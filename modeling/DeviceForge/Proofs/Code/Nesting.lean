import DeviceForge.Code
import Mathlib.Tactic.Lemma
/-!
# Blocks between brackets

`level` counts the brackets of one kind that tokens leave open.
-/

namespace DeviceForge.Code

open Option

variable {b : Bracket} {n k : Nat} {t close : Token} {ts us : List Token}

/-- How many brackets are open behind a token, if `n` are open before it; none if it closes one too many. -/
def levelBehind (b : Bracket) (n : Nat) (t : Token) : Option Nat :=
  if t.text = b.closing.toString then if n = 0 then none else some (n - 1)
  else if t.text = b.opening.toString then some (n + 1)
  else some n

/-- How many brackets are open behind tokens, if `n` are open before them. -/
def level (b : Bracket) (n : Nat) (ts : List Token) : Option Nat :=
  ts.foldlM (levelBehind b) n

lemma level_cons : level b n (t :: ts) = some k ↔ ∃ m, levelBehind b n t = some m ∧ level b m ts = some k := by
  rw [level, List.foldlM_cons]
  exact bind_eq_some_iff

lemma level_append (h : level b n ts = some k) : level b n (ts ++ us) = level b k us := by
  rw [level, List.foldlM_append]
  change (level b n ts).bind _ = _
  rw [h]
  rfl

lemma levelBehind_add (h : levelBehind b n t = some k) (m : Nat) : levelBehind b (n + m) t = some (k + m) := by
  unfold levelBehind at h ⊢
  split
  · rename_i hclose
    rw [if_pos hclose] at h
    split at h
    · cases h
    · obtain rfl := some.inj h
      rw [if_neg (by omega)]
      congr 1
      omega
  · rename_i hclose
    rw [if_neg hclose] at h
    split
    · rename_i hopen
      rw [if_pos hopen] at h
      obtain rfl := some.inj h
      congr 1
      omega
    · rename_i hopen
      rw [if_neg hopen] at h
      obtain rfl := some.inj h
      rfl

lemma level_add (h : level b n ts = some k) (m : Nat) : level b (n + m) ts = some (k + m) := by
  induction ts generalizing n with
  | nil =>
    obtain rfl := some.inj h
    rfl
  | cons t ts ih =>
    obtain ⟨j, ht, hts⟩ := level_cons.1 h
    exact level_cons.2 ⟨j + m, levelBehind_add ht m, ih hts⟩

lemma closingIn_cons (b : Bracket) (n : Nat) (t : Token) (ts : List Token) : closingIn b (n + 1) (t :: ts) =
      match levelBehind b n t with
      | none => some 0
      | some k => (closingIn b (k + 1) ts).map (· + 1) := by
  rw [closingIn, levelBehind]
  split
  · cases n <;> simp
  · split <;> rfl

lemma closingIn_append (h : level b n ts = some k) (rest : List Token) :
    closingIn b (n + 1) (ts ++ rest) = (closingIn b (k + 1) rest).map (· + ts.length) := by
  induction ts generalizing n with
  | nil =>
    obtain rfl := some.inj h
    simp
  | cons t ts ih =>
    obtain ⟨m, ht, hts⟩ := level_cons.1 h
    rw [List.cons_append, closingIn_cons, ht]
    dsimp only
    rw [ih hts, map_map]
    rfl

/-- All brackets of one kind that tokens open are closed by them, and no others. -/
def Balanced (b : Bracket) (ts : List Token) : Prop :=
  level b 0 ts = some 0

instance (b : Bracket) (ts : List Token) : Decidable (Balanced b ts) :=
  inferInstanceAs (Decidable (level b 0 ts = some 0))

lemma enclosed?_append (h : Balanced b ts) (hclose : close.text = b.closing.toString) (rest : List Token) :
    enclosed? b (ts ++ close :: rest) = some (ts, close, rest) := by
  have hn : closingIn b 1 (ts ++ close :: rest) = some ts.length := by
    rw [closingIn_append (n := 0) h, closingIn_cons, levelBehind, if_pos hclose]
    simp
  simp [enclosed?, hn]

lemma block?_append (h : Balanced b ts) (hclose : close.text = b.closing.toString) (rest : List Token) :
    block? b (ts ++ close :: rest) = some (⟨ts, close.lead⟩, rest) := by
  rw [block?, enclosed?_append h hclose]
  rfl

end DeviceForge.Code

/-! # Nested brackets -/

namespace DeviceForge.Code

open List

variable {t close opening closing c d : Token} {b : Bracket} {stack stack' inner outer : List Bracket}
  {ts us part more inside rest rest' : List Token}

def opened? (t : Token) : Option Bracket :=
  [.round, .square, .curly].find? fun b => t.text = b.opening.toString

def closed? (t : Token) : Option Bracket :=
  [.round, .square, .curly].find? fun b => t.text = b.closing.toString

/-- The brackets that are open behind a token, if `stack` are open before it. -/
def nestBehind (stack : List Bracket) (t : Token) : Option (List Bracket) :=
  match opened? t, closed? t with
  | some b, _ => some (b :: stack)
  | none, some b => if stack.head? = some b then some stack.tail else none
  | none, none => some stack

/-- The brackets that are open behind tokens, if `stack` are open before them. -/
def nesting (stack : List Bracket) (ts : List Token) : Option (List Bracket) :=
  ts.foldlM nestBehind stack

/-- Every bracket is closed by one of its kind, and between the two the same holds. -/
def Nested (ts : List Token) : Prop :=
  nesting [] ts = some []

instance (ts : List Token) : Decidable (Nested ts) :=
  inferInstanceAs (Decidable (nesting [] ts = some []))

lemma opened?_eq_some_iff : opened? t = some b ↔ t.text = b.opening.toString := by
  unfold opened?
  constructor
  · intro h
    simpa using find?_some h
  · intro h
    cases b <;> simp [h, Bracket.opening, Char.toString]

lemma closed?_eq_some_iff : closed? t = some b ↔ t.text = b.closing.toString := by
  unfold closed?
  constructor
  · intro h
    simpa using find?_some h
  · intro h
    cases b <;> simp [h, Bracket.closing, Char.toString]

lemma closing_ne_opening (b c : Bracket) : b.closing.toString ≠ c.opening.toString := by
  cases b <;> cases c <;> decide

def IsFlat (t : Token) : Prop :=
  opened? t = none ∧ closed? t = none

instance (t : Token) : Decidable (IsFlat t) :=
  inferInstanceAs (Decidable (_ ∧ _))

lemma nestBehind_eq_some_iff : nestBehind stack t = some stack' ↔
      (∃ b, t.text = b.opening.toString ∧ stack' = b :: stack) ∨
      (∃ b, t.text = b.closing.toString ∧ stack = b :: stack') ∨ (IsFlat t ∧ stack' = stack) := by
  simp only [nestBehind, ← opened?_eq_some_iff, ← closed?_eq_some_iff, IsFlat]
  cases ho : opened? t with
  | some b =>
    have hc : closed? t = none := by
      rw [Option.eq_none_iff_forall_ne_some]
      intro c hc
      exact closing_ne_opening c b ((closed?_eq_some_iff.1 hc).symm.trans (opened?_eq_some_iff.1 ho))
    simp [hc, eq_comm]
  | none =>
    cases hc : closed? t with
    | some b => cases stack <;> simp [and_comm, eq_comm]
    | none => simp [eq_comm]

lemma nesting_cons :
    nesting stack (t :: ts) = some stack' ↔ ∃ mid, nestBehind stack t = some mid ∧ nesting mid ts = some stack' := by
  rw [nesting, foldlM_cons]
  exact Option.bind_eq_some_iff

lemma nesting_append :
    nesting stack (ts ++ us) = some stack' ↔ ∃ mid, nesting stack ts = some mid ∧ nesting mid us = some stack' := by
  rw [nesting, foldlM_append]
  exact Option.bind_eq_some_iff

lemma nesting_flat (h : IsFlat t) (stack : List Bracket) (ts : List Token) :
    nesting stack (t :: ts) = nesting stack ts := by
  have hstep : nestBehind stack t = some stack := nestBehind_eq_some_iff.2 (.inr (.inr ⟨h, rfl⟩))
  rw [nesting, foldlM_cons, hstep]
  rfl

lemma nesting_opening (h : t.text = b.opening.toString) (stack : List Bracket) (ts : List Token) :
    nesting stack (t :: ts) = nesting (b :: stack) ts := by
  have hstep : nestBehind stack t = some (b :: stack) := nestBehind_eq_some_iff.2 (.inl ⟨b, h, rfl⟩)
  rw [nesting, foldlM_cons, hstep]
  rfl

lemma nesting_closing (h : t.text = b.closing.toString) (stack : List Bracket) (ts : List Token) :
    nesting (b :: stack) (t :: ts) = nesting stack ts := by
  have hstep : nestBehind (b :: stack) t = some stack := nestBehind_eq_some_iff.2 (.inr (.inl ⟨b, h, rfl⟩))
  rw [nesting, foldlM_cons, hstep]
  rfl

lemma nesting_add (h : nesting stack ts = some stack') (more : List Bracket) :
    nesting (stack ++ more) ts = some (stack' ++ more) := by
  induction ts generalizing stack with
  | nil =>
    obtain rfl := Option.some.inj h
    rfl
  | cons t ts ih =>
    obtain ⟨mid, ht, hts⟩ := nesting_cons.1 h
    rcases nestBehind_eq_some_iff.1 ht with ⟨b, hb, rfl⟩ | ⟨b, hb, rfl⟩ | ⟨hflat, rfl⟩
    · rw [nesting_opening hb]
      exact ih hts
    · rw [cons_append, nesting_closing hb]
      exact ih hts
    · rw [nesting_flat hflat]
      exact ih hts

lemma exists_match (h : nesting (inner ++ b :: outer) ts = some []) :
    ∃ inside close rest, ts = inside ++ close :: rest ∧ nesting inner inside = some [] ∧ close.text = b.closing.toString ∧
      nesting outer rest = some [] := by
  induction ts generalizing inner with
  | nil => exact absurd (Option.some.inj h) (by simp)
  | cons t ts ih =>
    obtain ⟨mid, ht, hts⟩ := nesting_cons.1 h
    rcases nestBehind_eq_some_iff.1 ht with ⟨c, hc, rfl⟩ | ⟨c, hc, hstack⟩ | ⟨hflat, rfl⟩
    · have hopen : nesting ((c :: inner) ++ b :: outer) ts = some [] := hts
      obtain ⟨inside, close, rest, rfl, hinside, hclose, hrest⟩ := ih hopen
      exact ⟨t :: inside, close, rest, rfl, by rw [nesting_opening hc]; exact hinside, hclose, hrest⟩
    · cases inner with
      | nil =>
        obtain ⟨rfl, rfl⟩ := cons.inj hstack
        exact ⟨[], t, ts, rfl, rfl, hc, hts⟩
      | cons d inner =>
        obtain ⟨rfl, rfl⟩ := cons.inj hstack
        obtain ⟨inside, close, rest, rfl, hinside, hclose, hrest⟩ := ih hts
        exact ⟨t :: inside, close, rest, rfl, by rw [nesting_closing hc]; exact hinside, hclose, hrest⟩
    · obtain ⟨inside, close, rest, rfl, hinside, hclose, hrest⟩ := ih hts
      exact ⟨t :: inside, close, rest, rfl, by rw [nesting_flat hflat]; exact hinside, hclose, hrest⟩

lemma level_of_nesting (h : nesting stack ts = some stack') (b : Bracket) :
    level b (stack.count b) ts = some (stack'.count b) := by
  induction ts generalizing stack with
  | nil =>
    obtain rfl := Option.some.inj h
    rfl
  | cons t ts ih =>
    obtain ⟨mid, ht, hts⟩ := nesting_cons.1 h
    refine level_cons.2 ⟨mid.count b, ?_, ih hts⟩
    have hclosing (c : Bracket) : c.closing.toString = b.closing.toString ↔ c = b := by cases b <;> cases c <;> decide
    have hopening (c : Bracket) : c.opening.toString = b.opening.toString ↔ c = b := by cases b <;> cases c <;> decide
    rcases nestBehind_eq_some_iff.1 ht with ⟨c, hc, rfl⟩ | ⟨c, hc, rfl⟩ | ⟨⟨ho, hc⟩, rfl⟩
    · rw [levelBehind, hc, if_neg (closing_ne_opening b c).symm]
      by_cases hcb : c = b
      · rw [if_pos ((hopening c).2 hcb), hcb, count_cons_self]
      · rw [if_neg (mt (hopening c).1 hcb), count_cons_of_ne hcb]
    · rw [levelBehind, hc]
      by_cases hcb : c = b
      · rw [if_pos ((hclosing c).2 hcb), hcb, count_cons_self, if_neg (by omega), Nat.add_sub_cancel]
      · rw [if_neg (mt (hclosing c).1 hcb), if_neg (closing_ne_opening c b), count_cons_of_ne hcb]
    · have hne : t.text ≠ b.closing.toString ∧ t.text ≠ b.opening.toString := by
        rw [Ne, Ne, ← closed?_eq_some_iff, ← opened?_eq_some_iff, ho, hc]
        exact ⟨by simp, by simp⟩
      rw [levelBehind, if_neg hne.1, if_neg hne.2]

lemma Nested.balanced (h : Nested ts) (b : Bracket) : Balanced b ts :=
  level_of_nesting h b

lemma not_nested_over (before : List Token) (h : Nested (before ++ part))
    (hclose : close.text = b.closing.toString) : ¬Nested (part ++ close :: more) := by
  intro hover
  obtain ⟨outer, -, hpart⟩ := nesting_append.1 h
  obtain ⟨inner, hinner, hrest⟩ := nesting_append.1 hover
  -- all that the part leaves open is closed in the brackets
  have hnil : inner ++ outer = [] := by
    have hadd := nesting_add hinner outer
    rw [nil_append, hpart] at hadd
    exact (Option.some.inj hadd).symm
  obtain ⟨rfl, -⟩ := append_eq_nil_iff.1 hnil
  obtain ⟨mid, hmid, -⟩ := nesting_cons.1 hrest
  rcases nestBehind_eq_some_iff.1 hmid with ⟨c, hc, -⟩ | ⟨c, -, hcons⟩ | ⟨hflat, -⟩
  · exact closing_ne_opening b c (hclose.symm.trans hc)
  · cases hcons
  · rw [IsFlat, closed?_eq_some_iff.2 hclose] at hflat
    cases hflat.2

lemma nesting_nested (h : Nested ts) (stack : List Bracket) (rest : List Token) :
    nesting stack (ts ++ rest) = nesting stack rest := by
  have hstack : nesting stack ts = some stack := nesting_add h stack
  rw [nesting, foldlM_append]
  change (nesting stack ts).bind _ = _
  rw [hstack]
  rfl

lemma nesting_group (hopening : opening.text = b.opening.toString) (hinside : Nested inside)
    (hclosing : closing.text = b.closing.toString) (stack : List Bracket) (rest : List Token) :
    nesting stack (opening :: (inside ++ closing :: rest)) = nesting stack rest := by
  rw [nesting_opening hopening, nesting_nested hinside, nesting_closing hclosing]

lemma eq_of_nested (hts : Nested ts) (hus : Nested us) (hc : c.text = b.closing.toString)
    (hd : d.text = b.closing.toString) (h : ts ++ c :: rest = us ++ d :: rest') : ts = us ∧ c = d ∧ rest = rest' := by
  rcases append_eq_append_iff.1 h with ⟨_ | ⟨e, mid⟩, rfl, hmid⟩ | ⟨_ | ⟨e, mid⟩, rfl, hmid⟩ <;> obtain ⟨rfl, rfl⟩ := cons.inj hmid
  · exact ⟨by simp, rfl, rfl⟩
  · exact absurd hus (not_nested_over [] hts hc)
  · exact ⟨by simp, rfl, rfl⟩
  · exact absurd hts (not_nested_over [] hus hd)

end DeviceForge.Code
