import DeviceForge.Proofs.Pattern.Rewrite
import DeviceForge.Proofs.Pattern.Cut
/-!
# Where a search finds a pattern

A pattern without runs takes one token for each of its elements, so it matches by the tokens that it takes
alone.
-/

namespace DeviceForge.Pattern

open Text Token List Option

variable {c : Char} {w name key : String} {e : Element} {es : List Element} {n i k : Nat}
  {ts us before rest vs : List Token} {captures captures' : List (String × Capture)} {p : Pattern}
  {old : Capture}

lemma toNat_of_wordChar (h : isWordChar c) : 48 ≤ c.toNat ∧ c.toNat ≤ 122 := by
  simp only [isWordChar, Char.isAlphanum, isAlpha_iff, Char.isDigit, Bool.or_eq_true, Bool.and_eq_true, decide_eq_true_eq,
    UInt32.le_iff_toNat_le, ge_iff_le] at h
  rcases h with ((h | h) | h) | rfl
  · exact ⟨Nat.le_trans (by decide) h.1, Nat.le_trans h.2 (by decide)⟩
  · exact ⟨Nat.le_trans (by decide) h.1, Nat.le_trans h.2 (by decide)⟩
  · exact ⟨Nat.le_trans (by decide) h.1, Nat.le_trans h.2 (by decide)⟩
  · decide

lemma not_space_of_wordChar (h : isWordChar c) : isSpace c = false := by
  have hlow := toNat_of_wordChar h
  simp only [isSpace, Bool.or_eq_false_iff, Bool.and_eq_false_iff, decide_eq_false_iff_not]
  omega

lemma wordChar_of_identifier (h : isIdentifierText w) : ∀ c ∈ w.toList, isWordChar c := by
  obtain ⟨c, cs, hcs, hc⟩ := exists_letter h
  unfold isIdentifierText at h
  rw [hcs] at h ⊢
  simp only [Bool.and_eq_true, List.all_eq_true] at h
  refine forall_mem_cons.2 ⟨?_, h.2⟩
  simp only [Bool.or_eq_true, decide_eq_true_eq] at hc
  rcases hc with hc | rfl
  · simp [isWordChar, Char.isAlphanum, hc]
  · decide

lemma words_identifier (h : isIdentifierText w) : words w = [w] := by
  refine words_single ?_ fun d hd => not_space_of_wordChar (wordChar_of_identifier h d hd)
  rintro rfl
  cases h

lemma ofWord_identifier (h : isIdentifierText w) : Element.ofWord w = .literal w := by
  obtain ⟨c, cs, hcs, hc⟩ := exists_letter h
  unfold Element.ofWord
  split
  all_goals first
    | rfl
    | rename_i heq
      obtain ⟨rfl, -⟩ := cons.inj (hcs.symm.trans heq)
      cases hc

/-- The elements of words with spaces between them. -/
lemma elements_words {s : String} (ws : List String) (hs : s = " ".intercalate ws) (hws : ∀ w ∈ ws, words w = [w]) :
    (ofString s).elements = ws.map Element.ofWord := by
  have hwords : words s = ws := by
    subst hs
    induction ws with
    | nil => decide +kernel
    | cons w ws ih =>
      obtain ⟨hw, hws⟩ := forall_mem_cons.1 hws
      cases ws with
      | nil => exact hw
      | cons w' ws => rw [String.intercalate_cons_cons, words_space, hw, ih hws, singleton_append]
  rw [ofString, hwords]

/-! ## Patterns without runs -/

def Element.isRun : Element → Bool
  | .run _ => true
  | _ => false

def Element.takes : Element → Token → Bool
  | .literal text, t => t.text = text
  | .single cls _, t => cls.accepts t.kind
  | .run _, _ => false

lemma matchElements_single (he : e.isRun = false) (es : List Element) (n : Nat) (t : Token)
    (captures : List (String × Capture)) :
    (e.takes t = false ∧ ∀ us, matchElements (e :: es) n (t :: us) captures = none) ∨
    ∃ mid : Option (List (String × Capture)), e.takes t ∧
      ∀ us, matchElements (e :: es) n (t :: us) captures = mid.bind (matchElements es (n + 1) us) := by
  cases e with
  | run name => cases he
  | literal text =>
    by_cases h : t.text = text
    · exact .inr ⟨some captures, by simp [Element.takes, h], fun us => by simp [matchElements, h]⟩
    · exact .inl ⟨by simp [Element.takes, h], fun us => by simp [matchElements, h]⟩
  | single cls name =>
    by_cases h : cls.accepts t.kind
    · exact .inr ⟨bind captures name ⟨n, [t]⟩, h, fun us => by simp [matchElements, h]⟩
    · exact .inl ⟨by simpa [Element.takes] using h, fun us => by simp [matchElements, h]⟩

lemma takes_of_matchElements (hes : es.all (!·.isRun))
    (h : (matchElements es n ts captures).isSome) (he : es[i]? = some e) : ∃ t, ts[i]? = some t ∧ e.takes t := by
  induction es generalizing n ts captures i with
  | nil => simp at he
  | cons e' es ih =>
    simp only [all_cons, Bool.and_eq_true, Bool.not_eq_true'] at hes
    cases ts with
    | nil => cases e' <;> simp_all [matchElements, Element.isRun]
    | cons t ts =>
      rcases matchElements_single hes.1 es n t captures with ⟨-, hnone⟩ | ⟨mid, htakes, hmatch⟩
      · simp [hnone] at h
      · cases i with
        | zero =>
          obtain rfl : e' = e := by simpa using he
          exact ⟨t, rfl, htakes⟩
        | succ i =>
          rw [hmatch] at h
          obtain ⟨r, hr⟩ := isSome_iff_exists.1 h
          obtain ⟨captures', -, hr⟩ := bind_eq_some_iff.1 hr
          have htail : es[i]? = some e := by simpa using he
          simpa using ih hes.2 (isSome_of_eq_some hr) htail

lemma matchElements_append (hes : es.all (!·.isRun)) (hlen : es.length ≤ us.length)
    (rest : List Token) (n : Nat) (captures : List (String × Capture)) :
    matchElements es n (us ++ rest) captures = matchElements es n us captures := by
  induction es generalizing us n captures with
  | nil => simp [matchElements]
  | cons e es ih =>
    simp only [all_cons, Bool.and_eq_true, Bool.not_eq_true'] at hes
    cases us with
    | nil => simp at hlen
    | cons t us =>
      rw [cons_append]
      rcases matchElements_single hes.1 es n t captures with ⟨-, hnone⟩ | ⟨mid, -, hmatch⟩
      · rw [hnone, hnone]
      · rw [hmatch, hmatch]
        exact congrArg mid.bind (funext fun captures' => ih hes.2 (by simpa using hlen) (n + 1) captures')

lemma matchAt?_eq_none_iff (hp : p.elements ≠ []) (hts : ts ≠ []) :
    p.matchAt? before ts = none ↔ matchElements p.elements 0 ts [] = none := by
  simp [matchAt?, hp, hts]

lemma find?_append (before : List Token)
    (h : ∀ vs, vs ≠ [] → vs <:+ us → ∀ before, p.matchAt? before (vs ++ rest) = none) :
    p.find? before (us ++ rest) = p.find? (us.reverse ++ before) rest := by
  induction us generalizing before with
  | nil => rfl
  | cons u us ih =>
    have hu := h (u :: us) (cons_ne_nil u us) (suffix_refl _) before
    rw [cons_append] at hu ⊢
    rw [find?, hu]
    rw [ih (u :: before) fun vs hne hvs => h vs hne (hvs.trans (suffix_cons u us)), reverse_cons, append_assoc]
    rfl

lemma matchAt?_of_find?_eq_none (h : p.find? before us = none) (hne : vs ≠ []) (hvs : vs <:+ us) :
    ∃ before', p.matchAt? before' vs = none := by
  induction us generalizing before with
  | nil => exact absurd (suffix_nil.1 hvs) hne
  | cons u us ih =>
    rw [find?] at h
    split at h
    · cases h
    · rename_i hnone
      rcases suffix_cons_iff.1 hvs with rfl | hvs
      · exact ⟨before, hnone⟩
      · exact ih h hvs

lemma find?_skip (hp : p.elements ≠ []) (hsingle : p.elements.all (!·.isRun)) (hnone : p.find? [] us = none)
    (hcross : ∀ vs, vs ≠ [] → vs <:+ us → vs.length < p.elements.length → ∃ (i : Nat) (e : Element) (t : Token), p.elements[i]? = some e ∧ (vs ++ rest)[i]? = some t ∧ e.takes t = false)
    (before : List Token) : p.find? before (us ++ rest) = p.find? (us.reverse ++ before) rest := by
  refine find?_append before fun vs hne hvs before' => ?_
  rw [matchAt?_eq_none_iff hp (by simp [hne])]
  by_cases hlen : p.elements.length ≤ vs.length
  · obtain ⟨before'', hvs⟩ := matchAt?_of_find?_eq_none hnone hne hvs
    rw [matchElements_append hsingle hlen]
    exact (matchAt?_eq_none_iff hp hne).1 hvs
  · obtain ⟨i, e, t, he, ht, hfalse⟩ := hcross vs hne hvs (Nat.lt_of_not_le hlen)
    rw [← not_isSome_iff_eq_none]
    intro hsome
    obtain ⟨t', ht', htrue⟩ := takes_of_matchElements hsingle hsome he
    rw [ht, some.injEq] at ht'
    simp [ht', htrue] at hfalse

lemma findAllFrom_eq_nil (hsingle : p.elements.all (!·.isRun)) (he : p.elements[i]? = some e)
    (h : ∀ t ∈ us, e.takes t = false) (before : List Token) : p.findAllFrom 0 before us = [] := by
  induction us generalizing before with
  | nil => rfl
  | cons u us ih =>
    have hnone : p.matchAt? before (u :: us) = none := by
      rw [matchAt?_eq_none_iff (by rintro hnil; simp [hnil] at he) (cons_ne_nil u us), ← not_isSome_iff_eq_none]
      intro hsome
      obtain ⟨t, ht, htakes⟩ := takes_of_matchElements hsingle hsome he
      simp [h t (mem_of_getElem? ht)] at htakes
    rw [findAllFrom, hnone]
    exact ih (fun t ht => h t (mem_cons_of_mem _ ht)) (u :: before)

lemma exists_of_find? {m : Match} (h : p.find? before ts = some m) :
    ∃ passed rest, ts = passed ++ rest ∧ p.matchAt? (passed.reverse ++ before) rest = some m := by
  induction ts generalizing before with
  | nil => cases h
  | cons t ts ih =>
    rw [find?] at h
    split at h
    · rename_i found hfound
      obtain rfl := some.inj h
      exact ⟨[], t :: ts, rfl, hfound⟩
    · obtain ⟨passed, rest, rfl, hmatch⟩ := ih h
      exact ⟨t :: passed, rest, rfl, by simpa using hmatch⟩

lemma length_of_matchElements (hes : es.all (!·.isRun)) (h : matchElements es n ts captures = some (k, captures')) :
    k = n + es.length ∧ es.length ≤ ts.length := by
  induction es generalizing n ts captures with
  | nil =>
    simp only [matchElements, some.injEq, Prod.mk.injEq] at h
    exact ⟨h.1.symm, Nat.zero_le _⟩
  | cons e es ih =>
    simp only [all_cons, Bool.and_eq_true, Bool.not_eq_true'] at hes
    cases ts with
    | nil => cases e <;> simp [matchElements, Element.isRun] at h hes
    | cons t ts =>
      obtain ⟨-, hnone⟩ | ⟨mid, -, hmid⟩ := matchElements_single hes.1 es n t captures
      · simp [hnone] at h
      · rw [hmid] at h
        obtain ⟨captures, -, h⟩ := bind_eq_some_iff.1 h
        obtain ⟨rfl, hlen⟩ := ih hes.2 h
        simp only [length_cons]
        omega

lemma lookup_bind {c : Capture} (h : bind captures name c = some captures')
    (hold : captures.lookup key = some old) : captures'.lookup key = some old := by
  unfold bind at h
  split at h
  · split at h
    · exact some.inj h ▸ hold
    · cases h
  · obtain rfl := some.inj h
    rw [lookup_append, hold]
    rfl

lemma lookup_matchElements (h : matchElements es n ts captures = some (k, captures'))
    (hold : captures.lookup key = some old) : captures'.lookup key = some old := by
  induction es generalizing n ts captures with
  | nil =>
    simp only [matchElements, some.injEq, Prod.mk.injEq] at h
    exact h.2 ▸ hold
  | cons e es ih =>
    cases e with
    | run name =>
      rw [matchElements] at h
      obtain ⟨k, -, h⟩ := bind_eq_some_iff.1 h
      obtain ⟨mid, hbind, h⟩ := bind_eq_some_iff.1 h
      exact ih h (lookup_bind hbind hold)
    | literal text =>
      cases ts with
      | nil => cases h
      | cons t ts =>
        rw [matchElements] at h
        split at h
        · exact ih h hold
        · cases h
    | single cls name =>
      cases ts with
      | nil => cases h
      | cons t ts =>
        rw [matchElements] at h
        split at h
        · obtain ⟨mid, hbind, h⟩ := bind_eq_some_iff.1 h
          exact ih h (lookup_bind hbind hold)
        · cases h

end DeviceForge.Pattern

/-!
# Taking windows out of code

Where windows of tokens are taken out of code, the lead of a window stays and goes before what follows the window
(`remove`).
-/

namespace DeviceForge

open List String

namespace Token

/-- A statement may start behind the token, and the token never goes on. -/
def endsPart (t : Token) : Bool :=
  t.text ∈ [";", ":", "\x7b", "\x7d", ")"]

lemma extent_part {c : Char} (h : c ∈ [';', ':', '\x7b', '\x7d', ')']) (rest : List Char) : extent c rest = (.punct, 0) := by
  simp only [mem_cons, not_mem_nil, or_false] at h
  rcases h with rfl | rfl | rfl | rfl | rfl <;> simp [extent, Lexeme.operator, Lexeme.operators]

lemma exists_part {t : Token} (h : t.endsPart) : ∃ c ∈ [';', ':', '\x7b', '\x7d', ')'], t.text.toList = [c] := by
  simp only [endsPart, mem_cons, not_mem_nil, or_false, decide_eq_true_eq] at h
  rcases h with h | h | h | h | h <;> simp [h]

lemma reads_part {t : Token} {ys : List Char} (h : Reads t ys) (hend : t.endsPart) (zs : List Char) : Reads t zs := by
  obtain ⟨d, hd, htext⟩ := exists_part hend
  obtain ⟨c, cs, hcs, hblank, hext⟩ := h
  obtain ⟨rfl, rfl⟩ : d = c ∧ [] = cs := by simpa [htext] using hcs
  rw [nil_append, extent_part hd] at hext
  exact ⟨d, [], hcs, hblank, by rw [nil_append, extent_part hd, hext]⟩

end Token

namespace Code

lemma toString_behind (lead : String) (c : Code) : (c.behind lead).toString = lead ++ c.toString := by
  obtain ⟨ts, tail⟩ := c
  cases ts <;> simp [behind, Code.toString, spell_nil, spell_cons, String.append_assoc]

lemma map_bare_behind (lead : String) (c : Code) : (c.behind lead).tokens.map Token.bare = c.tokens.map Token.bare := by
  obtain ⟨ts, tail⟩ := c
  cases ts <;> rfl

lemma Trivia.append {a b : String} (ha : Trivia a) (hb : Trivia b) : Trivia (a ++ b) := by
  intro rest
  rw [String.append_assoc, ha, hb, behind_behind]

def Legible (c : Code) : Prop :=
  Opens c.tokens c.tail ∧ ofString c.tail = ⟨[], c.tail⟩

lemma Legible.ofString_toString {c : Code} (h : Legible c) : ofString c.toString = c := by
  rw [Code.toString, ofString_opens h.1, h.2, append_nil]

lemma Legible.behind {c : Code} (h : Legible c) {lead : String} (hlead : Trivia lead) : Legible (c.behind lead) := by
  obtain ⟨ts, tail⟩ := c
  obtain ⟨hopens, htail⟩ := h
  cases ts with
  | nil => exact ⟨trivial, by rw [Code.behind, hlead, htail, Code.behind]⟩
  | cons t ts => exact ⟨⟨hlead.append hopens.1, hopens.2⟩, htail⟩

def removeFrom (width : List Token → Nat) (tail : String) : Nat → List Token → Code
  | _, [] => ⟨[], tail⟩
  | skip + 1, _ :: ts => removeFrom width tail skip ts
  | 0, t :: ts =>
    match width (t :: ts) with
    | 0 => ⟨t :: (removeFrom width tail 0 ts).tokens, (removeFrom width tail 0 ts).tail⟩
    | n + 1 => (removeFrom width tail n ts).behind t.lead

def remove (width : List Token → Nat) (tail : String) (ts : List Token) : Code :=
  removeFrom width tail 0 ts

/-- Every window stands behind blanks or comments, at the start, or behind a token after which a statement may start; `last`
is the token before the first one. -/
def Loose (width : List Token → Nat) : Option Token → List Token → Prop
  | _, [] => True
  | last, t :: ts => (width (t :: ts) ≠ 0 → t.lead ≠ "" ∨ ∀ u ∈ last, u.endsPart = true) ∧ Loose width (some t) ts

instance decidableLoose (width : List Token → Nat) : (last : Option Token) → (ts : List Token) → Decidable (Loose width last ts)
  | _, [] => inferInstanceAs (Decidable True)
  | _, t :: ts =>
    have := decidableLoose width (some t) ts
    inferInstanceAs (Decidable (_ ∧ _))

section
variable {width : List Token → Nat} {tail : String}
variable {t : Token} {ts us : List Token} {last : Option Token}

lemma removeFrom_drop (n : Nat) (ts : List Token) : removeFrom width tail n ts = remove width tail (ts.drop n) := by
  induction n generalizing ts with
  | zero => rfl
  | succ n ih =>
    cases ts with
    | nil => rfl
    | cons t ts => exact ih ts

lemma remove_keep (h : width (t :: ts) = 0) :
    remove width tail (t :: ts) = ⟨t :: (remove width tail ts).tokens, (remove width tail ts).tail⟩ := by
  rw [remove, removeFrom, h]
  rfl

lemma remove_window {n : Nat} (h : width (t :: ts) = n + 1) :
    remove width tail (t :: ts) = (remove width tail (ts.drop n)).behind t.lead := by
  rw [remove, removeFrom, h, ← removeFrom_drop]

lemma window_induction (width : List Token → Nat) {P : List Token → Prop} (nil : P [])
    (keep : ∀ t ts, width (t :: ts) = 0 → P ts → P (t :: ts))
    (window : ∀ t ts n, width (t :: ts) = n + 1 → P (ts.drop n) → P (t :: ts)) (ts : List Token) : P ts := by
  induction hlen : ts.length using Nat.strong_induction_on generalizing ts with
  | _ k ih =>
    cases ts with
    | nil => exact nil
    | cons t ts =>
      have hsmall (n : Nat) : (ts.drop n).length < k := by
        rw [← hlen, length_drop, length_cons]
        omega
      cases hw : width (t :: ts) with
      | zero => exact keep t ts hw (ih _ (hsmall 0) ts rfl)
      | succ n => exact window t ts n hw (ih _ (hsmall n) _ rfl)

lemma Loose.drop (h : Loose width last ts) (n : Nat) :
    ∃ last, Loose width last (ts.drop n) := by
  induction n generalizing last ts with
  | zero => exact ⟨last, h⟩
  | succ n ih =>
    cases ts with
    | nil => exact ⟨none, trivial⟩
    | cons t ts => exact ih h.2

def Quiet (width : List Token → Nat) (us rest : List Token) : Prop :=
  ∀ u v, us = u ++ v → v ≠ [] → width (v ++ rest) = 0

lemma Quiet.rest {rest : List Token} (h : Quiet width (t :: us) rest) : Quiet width us rest := by
  intro u v huv
  exact h (t :: u) v (by rw [huv]; rfl)

lemma Quiet.head {rest : List Token} (h : Quiet width (t :: us) rest) : width (t :: (us ++ rest)) = 0 :=
  h [] (t :: us) rfl (by simp)

lemma Quiet.remove_append {rest : List Token} (h : Quiet width us rest) :
    remove width tail (us ++ rest) = ⟨us ++ (remove width tail rest).tokens, (remove width tail rest).tail⟩ := by
  induction us with
  | nil => rfl
  | cons t us ih => rw [cons_append, remove_keep h.head, ih h.rest, cons_append]

lemma Quiet.loose {rest : List Token} (h : Quiet width us rest)
    (hrest : Loose width (us.getLast?.or last) rest) : Loose width last (us ++ rest) := by
  induction us generalizing last with
  | nil => exact hrest
  | cons t us ih =>
    refine ⟨fun hw => absurd h.head hw, ih h.rest ?_⟩
    cases us with
    | nil => exact hrest
    | cons u us =>
      rw [getLast?_cons_cons, getLast?_cons, Option.some_or] at hrest
      rwa [getLast?_cons, Option.some_or]

/-! ## What is left starts as before -/

lemma toList_spell_cons (t : Token) (ts : List Token) (rest : String) :
    (spell (t :: ts) ++ rest).toList = t.lead.toList ++ t.text.toList ++ (spell ts ++ rest).toList := by
  simp [spell_cons]

lemma head?_remove (h : Opens ts tail) (hloose : Loose width (some t) ts) :
    t.endsPart ∨ (remove width tail ts).toString.toList.head? = (spell ts ++ tail).toList.head? := by
  cases ts with
  | nil => exact .inr rfl
  | cons u us =>
    cases hw : width (u :: us) with
    | zero =>
      obtain ⟨c, cs, htext, -⟩ := h.2.2.1
      have hne : u.lead.toList ++ u.text.toList ≠ [] := by simp [htext]
      rw [remove_keep hw, Code.toString, toList_spell_cons, toList_spell_cons]
      exact .inr (by rw [head?_append_of_ne_nil _ hne, head?_append_of_ne_nil _ hne])
    | succ n =>
      rcases hloose.1 (by omega) with hlead | hend
      · have hne : u.lead.toList ≠ [] := by simpa using hlead
        rw [remove_window hw, toString_behind, toList_append, toList_spell_cons, List.append_assoc]
        exact .inr (by rw [head?_append_of_ne_nil _ hne, head?_append_of_ne_nil _ hne])
      · exact .inl (hend t rfl)

lemma not_trivia_point : ¬Trivia "." := by
  intro h
  have hempty := h ""
  revert hempty
  decide +kernel

lemma points_remove (h : Opens ts tail) (hloose : Loose width (some t) ts) (hend : t.endsPart = false)
    (hpoints : (remove width tail ts).toString.toList.take 2 = ['.', '.']) :
    (spell ts ++ tail).toList.take 2 = ['.', '.'] := by
  cases ts with
  | nil => exact hpoints
  | cons u us =>
    cases hw : width (u :: us) with
    | zero =>
      obtain ⟨c, cs, htext, -⟩ := h.2.2.1
      rw [remove_keep hw, Code.toString, toList_spell_cons] at hpoints
      rw [toList_spell_cons]
      rcases head?_remove h.2.2.2 hloose.2 with hpart | hhead
      · -- a point does not end a part, so both points stand in the token and its lead
        obtain ⟨d, hd, hdtext⟩ := Token.exists_part hpart
        have hne : d ≠ '.' := by
          rintro rfl
          simp at hd
        cases hlead : u.lead.toList with
        | nil => simp [hlead, hdtext, hne] at hpoints
        | cons b bs =>
          rw [hlead, hdtext] at hpoints
          rw [hdtext]
          cases bs <;> simpa using hpoints
      · exact Token.points_append (by simp [htext]) (fun hpoint => by rw [← hhead]; exact hpoint) hpoints
    | succ n =>
      rcases hloose.1 (by omega) with hlead | hpart
      · rw [remove_window hw, toString_behind, toList_append] at hpoints
        rw [toList_spell_cons, List.append_assoc]
        cases hcs : u.lead.toList with
        | nil => exact absurd (toList_injective hcs) hlead
        | cons b bs =>
          cases bs with
          | nil =>
            have hpoint : u.lead = "." := by
              apply toList_injective
              simp only [hcs, cons_append, take_succ_cons, cons.injEq] at hpoints
              rw [hcs, hpoints.1]
              rfl
            exact absurd (hpoint ▸ h.1) not_trivia_point
          | cons b' bs =>
            rw [hcs] at hpoints
            simpa using hpoints
      · simp [hpart t rfl] at hend

lemma reads_remove (h : Opens (t :: ts) tail) (hloose : Loose width (some t) ts) :
    Token.Reads t (remove width tail ts).toString.toList := by
  obtain ⟨-, hcomment, hreads, hopens⟩ := h
  cases hend : t.endsPart with
  | true => exact Token.reads_part hreads hend _
  | false =>
    have hhead := (head?_remove hopens hloose).resolve_left (by simp [hend])
    refine Token.reads_startAlike hreads hcomment (fun hnil => ?_) (.inl hhead.symm) (points_remove hopens hloose hend)
    rw [hnil] at hhead
    exact head?_eq_none_iff.1 hhead

lemma legible_remove (h : Opens ts tail) (htail : ofString tail = ⟨[], tail⟩)
    (hloose : Loose width last ts) : Legible (remove width tail ts) := by
  induction ts using window_induction width generalizing last with
  | nil => exact ⟨trivial, htail⟩
  | keep t ts hw ih =>
    obtain ⟨hopens, hnone⟩ := ih h.2.2.2 hloose.2
    rw [remove_keep hw]
    exact ⟨⟨h.1, h.2.1, reads_remove h hloose.2, hopens⟩, hnone⟩
  | window t ts n hw ih =>
    -- what stands before the window is no matter here: the token before it has been read by `reads_remove`
    obtain ⟨last, hdrop⟩ := hloose.2.drop n
    rw [remove_window hw]
    exact (ih (opens_drop h.2.2.2 n) hdrop).behind h.1

end

end Code

end DeviceForge

/-! # Patterns of a fixed length -/

namespace DeviceForge.Pattern

open List Code

variable {es fs : List Element} {ts us : List Token} {e : Element}

def names : List Element → List String
  | [] => []
  | .literal _ :: es => names es
  | .single _ name :: es => name :: names es
  | .run name :: es => name :: names es

def IsFixed (es : List Element) : Prop :=
  es.all (!·.isRun) = true ∧ (names es).Nodup

instance (es : List Element) : Decidable (IsFixed es) :=
  inferInstanceAs (Decidable (_ ∧ _))

def agrees : List Element → List Token → Bool
  | e :: es, t :: ts => e.takes t && agrees es ts
  | _, _ => true

def fits (es : List Element) (ts : List Token) : Bool :=
  es.length ≤ ts.length && agrees es ts

lemma agrees_append_left (h : agrees es (ts ++ us)) : agrees es ts := by
  induction es generalizing ts with
  | nil => rfl
  | cons e es ih =>
    cases ts with
    | nil => rfl
    | cons t ts =>
      simp only [cons_append, agrees, Bool.and_eq_true] at h ⊢
      exact ⟨h.1, ih h.2⟩

lemma fits_cons {t : Token} : fits (e :: es) (t :: ts) ↔ e.takes t ∧ fits es ts := by
  simp only [fits, agrees, length_cons, Nat.add_le_add_iff_right, Bool.and_eq_true]
  exact and_left_comm

lemma fits_append (es fs : List Element) (ts : List Token) : fits (es ++ fs) ts = (fits es ts && fits fs (ts.drop es.length)) := by
  induction es generalizing ts with
  | nil => simp [fits, agrees]
  | cons e es ih =>
    cases ts with
    | nil => simp [fits]
    | cons t ts =>
      rw [Bool.eq_iff_iff, Bool.and_eq_true, cons_append, fits_cons, fits_cons, ih, Bool.and_eq_true, and_assoc]
      rfl

lemma fits_take (es : List Element) (ts : List Token) : fits es (ts.take es.length) = fits es ts := by
  induction es generalizing ts with
  | nil => simp [fits, agrees]
  | cons e es ih =>
    cases ts with
    | nil => rfl
    | cons t ts => rw [Bool.eq_iff_iff, length_cons, take_succ_cons, fits_cons, fits_cons, ih]

lemma takes_of_fits (h : fits es ts) {i : Nat} (he : es[i]? = some e) : ∃ t, ts[i]? = some t ∧ e.takes t := by
  induction es generalizing ts i with
  | nil => simp at he
  | cons e' es ih =>
    cases ts with
    | nil => simp [fits] at h
    | cons t ts =>
      obtain ⟨htakes, hrest⟩ := fits_cons.1 h
      cases i with
      | zero =>
        obtain rfl : e' = e := by simpa using he
        exact ⟨t, rfl, htakes⟩
      | succ i => simpa using ih hrest (by simpa using he)

def Element.clashes : Element → Element → Bool
  | .literal text, .literal text' => text ≠ text'
  | _, _ => false

def Apart (es fs : List Element) : Prop :=
  ∀ k < es.length, 0 < k → ∃ i < es.length, ∃ e ∈ es[k + i]?, ∃ e' ∈ fs[i]?, e.clashes e' = true

instance (es fs : List Element) : Decidable (Apart es fs) :=
  inferInstanceAs (Decidable (∀ k < es.length, 0 < k → ∃ i < es.length, ∃ e ∈ es[k + i]?, ∃ e' ∈ fs[i]?, e.clashes e' = true))

lemma not_fits_drop (hapart : Apart es fs) (h : fits es ts) {k : Nat} (hpos : 0 < k)
    (hk : k < es.length) : fits fs (ts.drop k) = false := by
  obtain ⟨i, -, e, he, e', he', hclash⟩ := hapart k hk hpos
  obtain ⟨t, ht, htakes⟩ := takes_of_fits h he
  refine Bool.eq_false_iff.2 fun hfs => ?_
  obtain ⟨u, hu, htakes'⟩ := takes_of_fits hfs he'
  obtain rfl : t = u := by simpa [ht] using hu
  cases e <;> cases e' <;> simp_all [Element.clashes, Element.takes]

/-! ## Matching -/

lemma matchElements_not_fits (hes : es.all (!·.isRun)) (h : fits es ts = false) (more : List Element) (n : Nat)
    (captures : List (String × Capture)) : matchElements (es ++ more) n ts captures = none := by
  induction es generalizing ts n captures with
  | nil => simp [fits, agrees] at h
  | cons e es ih =>
    obtain ⟨he, hes⟩ : e.isRun = false ∧ es.all (!·.isRun) := by simpa using hes
    cases ts with
    | nil => cases e <;> simp_all [matchElements, Element.isRun]
    | cons t ts =>
      rcases matchElements_single he (es ++ more) n t captures with ⟨-, hnone⟩ | ⟨mid, htakes, hmid⟩
      · exact hnone ts
      · have hrest : fits es ts = false := by simpa [fits, agrees, htakes] using h
        rw [cons_append, hmid]
        cases mid with
        | none => rfl
        | some mid => exact ih hes hrest (n + 1) mid

lemma matchElements_fits (hes : IsFixed es) (h : fits es ts) (n : Nat)
    (captures : List (String × Capture)) (hnew : ∀ name ∈ names es, captures.lookup name = none) :
    ∃ captures', matchElements es n ts captures = some (n + es.length, captures') ∧
      ∀ (i : Nat) (cls : Class) (name : String) (t : Token), es[i]? = some (.single cls name) → ts[i]? = some t →
        captures'.lookup name = some ⟨n + i, [t]⟩ := by
  induction es generalizing ts n captures with
  | nil => exact ⟨captures, rfl, fun i cls name t he => by simp at he⟩
  | cons e es ih =>
    cases ts with
    | nil => simp [fits] at h
    | cons t ts =>
      obtain ⟨htakes, hrest⟩ := fits_cons.1 h
      cases e with
      | run name => simp [IsFixed, Element.isRun] at hes
      | literal text =>
        obtain ⟨captures', hmatch, hcaptures⟩ := ih hes hrest (n + 1) captures hnew
        refine ⟨captures', ?_, fun i cls name u he hu => ?_⟩
        · rw [matchElements, if_pos (by simpa [Element.takes] using htakes), hmatch, length_cons]
          simp [Nat.add_comm, Nat.add_left_comm]
        · cases i with
          | zero => simp at he
          | succ i =>
            rw [hcaptures i cls name u (by simpa using he) (by simpa using hu)]
            simp [Nat.add_comm, Nat.add_left_comm]
      | single cls name =>
        obtain ⟨hname, hnodup⟩ := nodup_cons.1 hes.2
        have hfree : captures.lookup name = none := hnew name mem_cons_self
        have hbind : bind captures name ⟨n, [t]⟩ = some (captures ++ [(name, ⟨n, [t]⟩)]) := by rw [bind, hfree]
        have hself : (captures ++ [(name, (⟨n, [t]⟩ : Capture))]).lookup name = some ⟨n, [t]⟩ := by
          rw [lookup_append, hfree, lookup_cons_self]
          rfl
        obtain ⟨captures', hmatch, hcaptures⟩ : ∃ captures',
            matchElements es (n + 1) ts (captures ++ [(name, ⟨n, [t]⟩)]) = some (n + 1 + es.length, captures') ∧ _ := by
          refine ih ⟨hes.1, hnodup⟩ hrest (n + 1) _ fun other hother => ?_
          have hne : other ≠ name := by
            rintro rfl
            exact hname hother
          rw [lookup_append, hnew other (mem_cons_of_mem _ hother), lookup_cons, beq_false_of_ne hne]
          rfl
        refine ⟨captures', ?_, fun i cls' name' u he hu => ?_⟩
        · rw [matchElements, if_pos (by simpa [Element.takes] using htakes), hbind]
          simp only [Option.bind_eq_bind, Option.bind_some, hmatch, length_cons]
          simp [Nat.add_comm, Nat.add_left_comm]
        · cases i with
          | zero =>
            obtain ⟨-, rfl⟩ : cls = cls' ∧ name = name' := by simpa using he
            obtain rfl : t = u := by simpa using hu
            exact lookup_matchElements hmatch hself
          | succ i =>
            rw [hcaptures i cls' name' u (by simpa using he) (by simpa using hu)]
            simp [Nat.add_comm, Nat.add_left_comm]

section
variable {p : Pattern}

lemma matchAt?_not_fits (hp : IsFixed p.elements) (h : fits p.elements ts = false) (before : List Token) :
    p.matchAt? before ts = none := by
  have hnone := matchElements_not_fits hp.1 h [] 0 []
  rw [append_nil] at hnone
  simp [matchAt?, hnone]

lemma matchAt?_fits (hp : IsFixed p.elements) (hne : p.elements ≠ []) (h : fits p.elements ts)
    (before : List Token) : ∃ m, p.matchAt? before ts = some m ∧ m.window.length = p.elements.length ∧
      ∀ (i : Nat) (cls : Class) (name : String) (t : Token), p.elements[i]? = some (.single cls name) → ts[i]? = some t →
        m.text name = t.text := by
  obtain ⟨captures, hmatch, hcaptures⟩ := matchElements_fits hp h 0 [] (by simp)
  have hlen : p.elements.length ≤ ts.length := by
    simp only [fits, Bool.and_eq_true, decide_eq_true_eq] at h
    exact h.1
  have hts : ts ≠ [] := by
    rintro rfl
    exact hne (List.length_eq_zero_iff.1 (Nat.le_zero.1 hlen))
  refine ⟨⟨before, ts.take p.elements.length, ts.drop p.elements.length, captures⟩, ?_, by simp [hlen], ?_⟩
  · rw [matchAt?, if_neg (by simp [hts, hne]), hmatch]
    simp
  · intro i cls name t he ht
    rw [Match.text, Match.capture?, hcaptures i cls name t he ht]
    simp [Capture.text, Code.span, spell_nil]

def width (p : Pattern) (ts : List Token) : Nat :=
  if fits p.elements ts then p.elements.length else 0

lemma matchAt?_width (hp : IsFixed p.elements) (hne : p.elements ≠ []) (before ts : List Token) :
    (p.matchAt? before ts = none ∧ p.width ts = 0) ∨
      ∃ m n, p.matchAt? before ts = some m ∧ m.window.length = n + 1 ∧ p.width ts = n + 1 := by
  cases h : fits p.elements ts with
  | false => exact .inl ⟨matchAt?_not_fits hp h before, by simp [width, h]⟩
  | true =>
    obtain ⟨m, hm, hlen, -⟩ := matchAt?_fits hp hne h before
    obtain ⟨n, hn⟩ := Nat.exists_eq_succ_of_ne_zero (mt length_eq_zero_iff.1 hne)
    exact .inr ⟨m, n, hm, hlen.trans hn, by simp [width, h, hn]⟩

section
variable {σ : Type} (f : σ → Match → σ)

lemma join_pieces (hp : IsFixed p.elements) (hne : p.elements ≠ []) (state : σ) (n : Nat) (before ts : List Token) (tail : String) :
    String.join (p.replacePieces (fun s m => (f s m, some "")) state n before ts).2 ++ tail =
      (removeFrom p.width tail n ts).toString := by
  induction ts generalizing state n before with
  | nil => cases n <;> simp [replacePieces, removeFrom, Code.toString, spell_nil]
  | cons t ts ih =>
    cases n with
    | succ n => exact ih state n (t :: before)
    | zero =>
      rcases matchAt?_width hp hne before (t :: ts) with ⟨hnone, hw⟩ | ⟨m, n, hm, hlen, hw⟩
      · have hrest := ih state 0 (t :: before)
        rw [removeFrom_drop, drop_zero] at hrest
        rw [removeFrom_drop, drop_zero, remove_keep hw, Code.toString, spell_cons, String.append_assoc,
          String.append_assoc, ← Code.toString, ← hrest, replacePieces, hnone]
        simp [String.append_assoc]
      · have hrest := ih (f state m) n (t :: before)
        rw [removeFrom_drop] at hrest
        rw [removeFrom_drop, drop_zero, remove_window hw, toString_behind, ← hrest, replacePieces, hm]
        simp [hlen, String.append_assoc]

lemma state_pieces (state : σ) (n : Nat) (before ts : List Token) :
    (p.replacePieces (fun s m => (f s m, some "")) state n before ts).1 = (p.findAllFrom n before ts).foldl f state := by
  induction ts generalizing state n before with
  | nil => cases n <;> rfl
  | cons t ts ih =>
    cases n with
    | succ n => exact ih state n (t :: before)
    | zero =>
      rw [replacePieces, findAllFrom]
      cases p.matchAt? before (t :: ts) with
      | none => exact ih state 0 (t :: before)
      | some m => exact ih (f state m) (m.window.length - 1) (t :: before)

lemma replaceWith_text (hp : IsFixed p.elements) (hne : p.elements ≠ []) (state : σ) (s : String) :
    (p.replaceWith (fun s m => (f s m, some "")) state s).2 =
      (remove p.width (Code.ofString s).tail (Code.ofString s).tokens).toString :=
  join_pieces f hp hne state 0 [] _ _

lemma replaceWith_state (state : σ) (s : String) :
    (p.replaceWith (fun s m => (f s m, some "")) state s).1 = (p.findAll (Code.ofString s).tokens).foldl f state :=
  state_pieces f state 0 [] _

lemma replaceWith_unchanged {α : Type} {g : σ → α} (h : ∀ state m, g (f state m) = g state) (state : σ) (s : String) :
    g (p.replaceWith (fun s m => (f s m, some "")) state s).1 = g state := by
  rw [replaceWith_state]
  induction p.findAll (Code.ofString s).tokens generalizing state with
  | nil => rfl
  | cons m ms ih => exact (ih (f state m)).trans (h state m)

end

end

end DeviceForge.Pattern

/-! # Rules that take matches out -/

namespace DeviceForge.Pattern

open Code

variable {α β σ : Type} {p : Pattern} {view : Match → Option α} {decline : σ → Match → σ} {accept : σ → α → σ}

def takeOut (view : Match → Option α) (decline : σ → Match → σ) (accept : σ → α → σ) (state : σ) (m : Match) : σ × Option String :=
  match view m with
  | none => (decline state m, none)
  | some x => (accept state x, some "")

def acceptedAt? (p : Pattern) (view : Match → Option α) (ts : List Token) : Option (Nat × α) :=
  (p.matchAt? [] ts).bind fun m => (view m).map (m.window.length, ·)

def acceptedWidth (p : Pattern) (view : Match → Option α) (ts : List Token) : Nat :=
  (p.acceptedAt? view ts).elim 0 (·.1)

def seenFrom (p : Pattern) (view : Match → Option α) (skip : Nat) : List Token → List α
  | [] => []
  | t :: ts =>
    match skip with
    | skip + 1 => seenFrom p view skip ts
    | 0 =>
      match p.acceptedAt? view (t :: ts) with
      | none => seenFrom p view 0 ts
      | some (n, x) => x :: seenFrom p view (n - 1) ts

lemma seenFrom_skip (p : Pattern) (view : Match → Option α) (us rest : List Token) :
    p.seenFrom view us.length (us ++ rest) = p.seenFrom view 0 rest := by
  induction us with
  | nil => rfl
  | cons t us ih => exact ih

lemma length_of_acceptedAt? {ts : List Token} {n : Nat} {x : α} (h : p.acceptedAt? view ts = some (n, x)) : n ≠ 0 := by
  obtain ⟨m, hm, hview⟩ := Option.bind_eq_some_iff.1 h
  obtain ⟨y, -, hy⟩ := Option.map_eq_some_iff.1 hview
  have hp : p.elements ≠ [] := by
    intro hnil
    simp [matchAt?_eq_none hnil] at hm
  obtain ⟨ws, rest, captures, -, hwindows, -, rfl⟩ := (matchAt?_eq_some_iff hp).1 hm
  obtain ⟨rfl, -⟩ := Prod.mk.inj hy
  exact mt List.length_eq_zero_iff.1 (windows_ne_nil hp hwindows)

lemma acceptedWidth_eq_zero_iff {ts : List Token} : p.acceptedWidth view ts = 0 ↔ p.acceptedAt? view ts = none := by
  unfold acceptedWidth
  cases h : p.acceptedAt? view ts with
  | none => simp
  | some x => simpa using length_of_acceptedAt? h

lemma seenFrom_quiet {us rest : List Token} (h : Code.Quiet (p.acceptedWidth view) us rest) :
    p.seenFrom view 0 (us ++ rest) = p.seenFrom view 0 rest := by
  induction us with
  | nil => rfl
  | cons t us ih =>
    rw [List.cons_append, seenFrom, acceptedWidth_eq_zero_iff.1 h.head]
    exact ih h.rest

lemma matchAt?_before (p : Pattern) (before ts : List Token) :
    p.matchAt? before ts = (p.matchAt? [] ts).map fun m => { m with before } := by
  unfold matchAt?
  split
  · rfl
  · rw [Option.map_map]
    rfl

def Blind (view : Match → Option α) : Prop :=
  ∀ (m : Match) (before : List Token), view { m with before } = view m

lemma takeOut_cases (hview : Blind view) (decline : σ → Match → σ) (accept : σ → α → σ) (before ts : List Token) :
    (p.acceptedAt? view ts = none ∧ (p.matchAt? before ts = none ∨
        ∃ m, p.matchAt? before ts = some m ∧ ∀ state, takeOut view decline accept state m = (decline state m, none))) ∨
    ∃ m n x, p.acceptedAt? view ts = some (n + 1, x) ∧ p.matchAt? before ts = some m ∧ m.window.length = n + 1 ∧
      ∀ state, takeOut view decline accept state m = (accept state x, some "") := by
  rw [matchAt?_before p before ts, acceptedAt?]
  cases hm : p.matchAt? [] ts with
  | none => exact .inl ⟨rfl, .inl rfl⟩
  | some m =>
    have hsame : view { m with before } = view m := hview m before
    cases hseen : view m with
    | none =>
      refine .inl ⟨by simp [hseen], .inr ⟨_, rfl, fun state => ?_⟩⟩
      rw [takeOut, hsame, hseen]
    | some x =>
      have haccepted : p.acceptedAt? view ts = some (m.window.length, x) := by simp [acceptedAt?, hm, hseen]
      obtain ⟨n, hn⟩ := Nat.exists_eq_succ_of_ne_zero (length_of_acceptedAt? haccepted)
      refine .inr ⟨_, n, x, by simp [hseen, hn], rfl, hn, fun state => ?_⟩
      rw [takeOut, hsame, hseen]

lemma join_takeOut (hview : Blind view) (state : σ) (n : Nat) (before ts : List Token) (tail : String) :
    String.join (p.replacePieces (takeOut view decline accept) state n before ts).2 ++ tail =
      (removeFrom (p.acceptedWidth view) tail n ts).toString := by
  induction ts generalizing state n before with
  | nil => cases n <;> simp [replacePieces, removeFrom, Code.toString, spell_nil]
  | cons t ts ih =>
    cases n with
    | succ n => exact ih state n (t :: before)
    | zero =>
      rw [removeFrom_drop, List.drop_zero, replacePieces]
      rcases takeOut_cases hview decline accept before (t :: ts) with ⟨hnone, hleft⟩ | ⟨m, n, x, hsome, hm, hlen, hrule⟩
      · have hrest (state : σ) := ih state 0 (t :: before)
        simp only [removeFrom_drop, List.drop_zero] at hrest
        rw [remove_keep (by rw [acceptedWidth, hnone]; rfl), Code.toString, spell_cons, String.append_assoc,
          String.append_assoc, ← Code.toString]
        rcases hleft with hm | ⟨m, hm, hrule⟩
        · simp [hm, ← hrest state, String.append_assoc]
        · simp [hm, hrule, ← hrest (decline state m), String.append_assoc]
      · have hrest := ih (accept state x) n (t :: before)
        rw [removeFrom_drop] at hrest
        rw [remove_window (by rw [acceptedWidth, hsome]; rfl), toString_behind, ← hrest]
        simp [hm, hrule, hlen, String.append_assoc]

lemma replaceWith_takeOut_text (hview : Blind view) (state : σ) (s : String) :
    (p.replaceWith (takeOut view decline accept) state s).2 =
      (remove (p.acceptedWidth view) (Code.ofString s).tail (Code.ofString s).tokens).toString :=
  join_takeOut hview state 0 [] _ _

lemma state_takeOut (hview : Blind view) {part : σ → β} {add : β → α → β} (hdecline : ∀ state m, part (decline state m) = part state)
    (haccept : ∀ state x, part (accept state x) = add (part state) x) (state : σ) (n : Nat) (before ts : List Token) :
    part (p.replacePieces (takeOut view decline accept) state n before ts).1 = (p.seenFrom view n ts).foldl add (part state) := by
  induction ts generalizing state n before with
  | nil => cases n <;> rfl
  | cons t ts ih =>
    cases n with
    | succ n => exact ih state n (t :: before)
    | zero =>
      rw [replacePieces, seenFrom]
      rcases takeOut_cases hview decline accept before (t :: ts) with ⟨hnone, hleft⟩ | ⟨m, n, x, hsome, hm, hlen, hrule⟩
      · rcases hleft with hm | ⟨m, hm, hrule⟩
        · rw [hm, hnone]
          exact ih state 0 (t :: before)
        · have hrest := ih (decline state m) 0 (t :: before)
          rw [hdecline] at hrest
          rw [hm, hnone]
          simpa [hrule] using hrest
      · have hrest := ih (accept state x) n (t :: before)
        rw [haccept] at hrest
        rw [hm, hsome]
        simpa [hrule, hlen] using hrest

lemma replaceWith_takeOut_state (hview : Blind view) (part : σ → β) {add : β → α → β}
    (hdecline : ∀ state m, part (decline state m) = part state) (haccept : ∀ state x, part (accept state x) = add (part state) x)
    (state : σ) (s : String) :
    part (p.replaceWith (takeOut view decline accept) state s).1 = (p.seenFrom view 0 (Code.ofString s).tokens).foldl add (part state) :=
  state_takeOut hview hdecline haccept state 0 [] _

end DeviceForge.Pattern
