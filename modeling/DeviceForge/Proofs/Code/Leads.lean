import DeviceForge.Proofs.Pattern.Fixed
import DeviceForge.Signature
/-!
# What does not depend on leads

`Token.leadless` takes away what stands before a token.
-/

namespace DeviceForge

open List Option Token Code Match

namespace Token

variable {ts us : List Token}

def leadless (t : Token) : Token :=
  ⟨t.kind, "", t.text⟩

@[simp]
lemma kind_leadless (t : Token) : t.leadless.kind = t.kind := rfl

@[simp]
lemma text_leadless (t : Token) : t.leadless.text = t.text := rfl

@[simp]
lemma isIdentifier_leadless (t : Token) : t.leadless.isIdentifier = t.isIdentifier := rfl

@[simp]
lemma isOpening_leadless (t : Token) : t.leadless.isOpening = t.isOpening := rfl

@[simp]
lemma isClosing_leadless (t : Token) : t.leadless.isClosing = t.isClosing := rfl

lemma leadless_eq_iff {t u : Token} : t.leadless = u.leadless ↔ t.bare = u.bare := by
  simp [leadless, bare]

def Twins (ts us : List Token) : Prop :=
  ts.map leadless = us.map leadless

lemma twins_iff : Twins ts us ↔ ts.map bare = us.map bare := by
  induction ts generalizing us with
  | nil => cases us <;> simp [Twins]
  | cons t ts ih =>
    cases us with
    | nil => simp [Twins]
    | cons u us => simp only [Twins, map_cons, cons.injEq, leadless_eq_iff] at ih ⊢; rw [ih]

lemma Twins.bare (h : Twins ts us) : ts.map bare = us.map bare :=
  twins_iff.1 h

lemma Twins.reverse (h : Twins ts us) : Twins ts.reverse us.reverse := by
  rw [Twins, map_reverse, map_reverse, h]

lemma Twins.drop (h : Twins ts us) (n : Nat) : Twins (ts.drop n) (us.drop n) := by
  rw [Twins, map_drop, map_drop, h]

lemma dropWhile_leadless {p : Token → Bool} (hp : ∀ t, p t.leadless = p t) (ts : List Token) :
    (ts.map leadless).dropWhile p = (ts.dropWhile p).map leadless := by
  rw [dropWhile_map]
  exact congrArg (fun q => (ts.dropWhile q).map leadless) (funext hp)

lemma Twins.dropWhile (h : Twins ts us) {p : Token → Bool} (hp : ∀ t, p t.leadless = p t) :
    Twins (ts.dropWhile p) (us.dropWhile p) := by
  rw [Twins, ← dropWhile_leadless hp, h, dropWhile_leadless hp]

end Token

@[simp]
lemma followsMember_leadless (before : List Token) : followsMember (before.map leadless) = followsMember before := by
  cases before <;> rfl

namespace Code

lemma twins_tokens {s s' : String} (h : shapes s = shapes s') : Token.Twins (ofString s).tokens (ofString s').tokens :=
  twins_iff.2 h

@[simp]
lemma closingIn_leadless (b : Bracket) (n : Nat) (ts : List Token) :
    closingIn b n (ts.map leadless) = closingIn b n ts := by
  induction ts generalizing n with
  | nil => rfl
  | cons t ts ih => simp [closingIn, ih]

lemma enclosed?_leadless (b : Bracket) (ts : List Token) : enclosed? b (ts.map leadless) =
      (enclosed? b ts).map fun (inside, close, rest) => (inside.map leadless, close.leadless, rest.map leadless) := by
  simp only [enclosed?, closingIn_leadless]
  cases closingIn b 1 ts with
  | none => rfl
  | some n => cases hn : ts[n]? <;> simp [hn]

lemma eq_of_enclosed? {b : Bracket} {ts inside rest : List Token} {close : Token} (h : enclosed? b ts = some (inside, close, rest)) :
    ts = inside ++ close :: rest := by
  simp only [enclosed?, bind_eq_bind, bind_eq_some_iff, Option.pure_def, Option.some.injEq, Prod.mk.injEq] at h
  obtain ⟨n, -, close', hclose, rfl, rfl, rfl⟩ := h
  obtain ⟨hlt, hget⟩ := List.getElem?_eq_some_iff.1 hclose
  rw [← hget, ← drop_eq_getElem_cons hlt, take_append_drop]

lemma enclosed?_twins (b : Bracket) {ts us : List Token} (h : Token.Twins ts us) :
    (enclosed? b ts = none ∧ enclosed? b us = none) ∨
      ∃ inside close rest inside' close' rest', enclosed? b ts = some (inside, close, rest) ∧
        enclosed? b us = some (inside', close', rest') ∧ Token.Twins inside inside' ∧ Token.Twins rest rest' := by
  have heq := enclosed?_leadless b ts
  rw [h, enclosed?_leadless] at heq
  cases hts : enclosed? b ts with
  | none =>
    rw [hts] at heq
    exact .inl ⟨rfl, by simpa using heq⟩
  | some found =>
    obtain ⟨inside, close, rest⟩ := found
    rw [hts] at heq
    obtain ⟨⟨inside', close', rest'⟩, hus, hfound⟩ := map_eq_some_iff.1 heq
    simp only [Prod.mk.injEq] at hfound
    exact .inr ⟨inside, close, rest, inside', close', rest', rfl, hus, hfound.1.symm, hfound.2.2.symm⟩

end Code

namespace Signature

lemma names?_leadless (done : List String) (current : Option String) (ts : List Token) :
    names? done current (ts.map leadless) = names? done current ts := by
  induction ts generalizing done current with
  | nil => rfl
  | cons t ts ih =>
    simp only [map_cons, names?, text_leadless, isIdentifier_leadless, ih]
    cases current <;> rfl

lemma find?_leadless (method : Option String) (ts : List Token) : find? method (ts.map leadless) = find? method ts := by
  induction ts with
  | nil => rfl
  | cons t ts ih =>
    have hnames (rest : List Token) :
        ((enclosed? .round (rest.map leadless)).bind fun x => names? [] none x.1) =
          (enclosed? .round rest).bind fun x => names? [] none x.1 := by
      rw [enclosed?_leadless]
      cases enclosed? .round rest <;> simp [names?_leadless]
    rw [map_cons]
    conv_lhs => rw [find?.eq_def]
    conv_rhs => rw [find?.eq_def]
    dsimp only
    rw [ih]
    cases ts with
    | nil => rfl
    | cons paren rest =>
      simp only [map_cons, text_leadless, isIdentifier_leadless, hnames]
      rfl

lemma parameters_twins {s s' : String} (h : shapes s = shapes s') (method : Option String) :
    parameters s method = parameters s' method := by
  rw [parameters, parameters, ← find?_leadless, twins_tokens h, find?_leadless]

end Signature

/-! ## Patterns -/

namespace Pattern

variable {captures captures' : List (String × Capture)} {name : String} {c : Capture} {n k : Nat}
  {es : List Element}

def leadlessCaptures (captures : List (String × Capture)) : List (String × Capture) :=
  captures.map fun (name, c) => (name, ⟨c.skipped, c.tokens.map Token.leadless⟩)

def Singles (captures : List (String × Capture)) : Prop :=
  ∀ e ∈ captures, ∃ t, e.2.tokens = [t]

lemma lookup_leadlessCaptures (captures : List (String × Capture)) (name : String) :
    (leadlessCaptures captures).lookup name =
      (captures.lookup name).map fun c => ⟨c.skipped, c.tokens.map leadless⟩ := by
  induction captures with
  | nil => rfl
  | cons e captures ih =>
    obtain ⟨key, c⟩ := e
    rw [leadlessCaptures, map_cons, lookup_cons, lookup_cons]
    split
    · rfl
    · exact ih

lemma mem_of_lookup (h : captures.lookup name = some c) : (name, c) ∈ captures := by
  obtain ⟨as, bs, rfl, -⟩ := lookup_eq_some_iff.1 h
  simp

lemma text_single (h : ∃ t, c.tokens = [t]) : Capture.text ⟨c.skipped, c.tokens.map Token.leadless⟩ = c.text := by
  obtain ⟨t, ht⟩ := h
  simp [Capture.text, ht, Code.span, Code.spell]

lemma singles_bind {t : Token} (h : Singles captures)
    (hbind : bind captures name ⟨n, [t]⟩ = some captures') : Singles captures' := by
  unfold bind at hbind
  split at hbind
  · split at hbind
    · exact some.inj hbind ▸ h
    · cases hbind
  · obtain rfl := some.inj hbind
    intro e he
    rcases mem_append.1 he with he | he
    · exact h e he
    · obtain rfl := mem_singleton.1 he
      exact ⟨t, rfl⟩

lemma bind_leadless (h : Singles captures) (name : String) (n : Nat) (t : Token) :
    bind (leadlessCaptures captures) name ⟨n, [t.leadless]⟩ = (bind captures name ⟨n, [t]⟩).map leadlessCaptures := by
  rw [bind, bind, lookup_leadlessCaptures]
  cases hold : captures.lookup name with
  | none => simp [leadlessCaptures]
  | some old =>
    have hsingle := h _ (mem_of_lookup hold)
    have htext : Capture.text ⟨n, [t.leadless]⟩ = Capture.text ⟨n, [t]⟩ := rfl
    simp only [map_some, text_single hsingle, htext]
    split <;> rfl

lemma singles_matchElements (hes : es.all (!·.isRun)) {ts : List Token} (h : Singles captures)
    (hmatch : matchElements es n ts captures = some (k, captures')) : Singles captures' := by
  induction es generalizing n ts captures with
  | nil =>
    simp only [matchElements, some.injEq, Prod.mk.injEq] at hmatch
    exact hmatch.2 ▸ h
  | cons e es ih =>
    simp only [all_cons, Bool.and_eq_true, Bool.not_eq_true'] at hes
    cases e with
    | run name => cases hes.1
    | literal text =>
      cases ts with
      | nil => cases hmatch
      | cons t ts =>
        rw [matchElements] at hmatch
        split at hmatch
        · exact ih hes.2 h hmatch
        · cases hmatch
    | single cls name =>
      cases ts with
      | nil => cases hmatch
      | cons t ts =>
        rw [matchElements] at hmatch
        split at hmatch
        · obtain ⟨mid, hbind, hmatch⟩ := bind_eq_some_iff.1 hmatch
          exact ih hes.2 (singles_bind h hbind) hmatch
        · cases hmatch

lemma matchElements_leadless (hes : es.all (!·.isRun)) (n : Nat) (ts : List Token) (h : Singles captures) :
    matchElements es n (ts.map leadless) (leadlessCaptures captures) =
      (matchElements es n ts captures).map fun (k, found) => (k, leadlessCaptures found) := by
  induction es generalizing n ts captures with
  | nil => rfl
  | cons e es ih =>
    simp only [all_cons, Bool.and_eq_true, Bool.not_eq_true'] at hes
    cases e with
    | run name => cases hes.1
    | literal text =>
      cases ts with
      | nil => rfl
      | cons t ts =>
        rw [map_cons, matchElements, matchElements, text_leadless]
        split
        · exact ih hes.2 (n + 1) ts h
        · rfl
    | single cls name =>
      cases ts with
      | nil => rfl
      | cons t ts =>
        rw [map_cons, matchElements, matchElements, kind_leadless, bind_leadless h]
        split
        · cases hbind : bind captures name ⟨n, [t]⟩ with
          | none => rfl
          | some mid => exact ih hes.2 (n + 1) ts (singles_bind h hbind)
        · rfl

end Pattern

lemma Match.text_of_lookup {m : Match} {name : String} {n : Nat} {t : Token} (h : m.captures.lookup name = some ⟨n, [t]⟩) :
    m.text name = t.text := by
  rw [text, capture?, h]
  simp [Capture.text, Code.span, Code.spell]

structure Match.Twins (m m' : Match) : Prop where
  before : Token.Twins m.before m'.before
  window : Token.Twins m.window m'.window
  after : Token.Twins m.after m'.after
  text : ∀ name, m.text name = m'.text name

namespace Pattern

def leadlessMatch (m : Match) : Match :=
  ⟨m.before.map Token.leadless, m.window.map Token.leadless, m.after.map Token.leadless, leadlessCaptures m.captures⟩

lemma text_leadlessMatch {m : Match} (h : Singles m.captures) (name : String) : (leadlessMatch m).text name = m.text name := by
  rw [Match.text, Match.text, Match.capture?, Match.capture?, leadlessMatch, lookup_leadlessCaptures]
  cases hc : m.captures.lookup name with
  | none => rfl
  | some c => exact text_single (h _ (mem_of_lookup hc))

lemma matchAt?_leadless {p : Pattern} (hp : p.elements.all (!·.isRun)) (before rest : List Token) :
    p.matchAt? (before.map leadless) (rest.map leadless) = (p.matchAt? before rest).map leadlessMatch := by
  rw [matchAt?, matchAt?, isEmpty_map]
  split
  · rfl
  · have hnone : Singles [] := by simp [Singles]
    have helements := matchElements_leadless hp 0 rest hnone
    rw [show leadlessCaptures [] = [] from rfl] at helements
    rw [helements, Option.map_map, Option.map_map]
    refine congrArg (fun f => Option.map f _) (funext fun found => ?_)
    simp [leadlessMatch, map_take, map_drop]

lemma find?_leadless {p : Pattern} (hp : p.elements.all (!·.isRun)) (before ts : List Token) :
    p.find? (before.map leadless) (ts.map leadless) = (p.find? before ts).map leadlessMatch := by
  induction ts generalizing before with
  | nil => rfl
  | cons t ts ih =>
    have hmatch := matchAt?_leadless hp before (t :: ts)
    rw [map_cons] at hmatch
    rw [map_cons, find?, find?, hmatch]
    cases p.matchAt? before (t :: ts) with
    | none => exact ih (t :: before)
    | some m => rfl

lemma split_of_find? {p : Pattern} (hp : p.elements.all (!·.isRun)) {ts : List Token} {m : Match} (h : p.find? [] ts = some m) :
    ts = m.before.reverse ++ (m.window ++ m.after) ∧ m.window ≠ [] ∧ Singles m.captures := by
  obtain ⟨passed, rest, rfl, hmatch⟩ := exists_of_find? h
  rw [matchAt?] at hmatch
  split at hmatch
  · cases hmatch
  · rename_i hne
    simp only [Bool.or_eq_true, List.isEmpty_iff, not_or] at hne
    obtain ⟨⟨n, captures⟩, helements, rfl⟩ := map_eq_some_iff.1 hmatch
    obtain ⟨rfl, hlen⟩ := length_of_matchElements hp helements
    refine ⟨by simp, fun hnil => ?_, singles_matchElements hp (by simp [Singles]) helements⟩
    have hpos := length_pos_iff.2 hne.2
    have hlength := congrArg length hnil
    simp only [length_take, length_nil] at hlength
    omega

lemma find?_twins {p : Pattern} (hp : p.elements.all (!·.isRun)) {ts us : List Token} (h : Token.Twins ts us) :
    (p.find? [] ts = none ∧ p.find? [] us = none) ∨
      ∃ m m', p.find? [] ts = some m ∧ p.find? [] us = some m' ∧ m.Twins m' := by
  have hts := find?_leadless hp [] ts
  have hus := find?_leadless hp [] us
  rw [h, hus] at hts
  cases hm : p.find? [] ts with
  | none =>
    rw [hm] at hts
    exact .inl ⟨rfl, by simpa using hts⟩
  | some m =>
    rw [hm] at hts
    obtain ⟨m', hm', hleadless⟩ := map_eq_some_iff.1 hts
    refine .inr ⟨m, m', rfl, hm', ?_⟩
    have htext (name : String) : m.text name = m'.text name := by
      rw [← text_leadlessMatch (split_of_find? hp hm).2.2, ← text_leadlessMatch (split_of_find? hp hm').2.2, hleadless]
    exact ⟨(congrArg Match.before hleadless).symm, (congrArg Match.window hleadless).symm, (congrArg Match.after hleadless).symm, htext⟩

end Pattern

end DeviceForge
