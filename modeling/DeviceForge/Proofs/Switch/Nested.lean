import DeviceForge.Proofs.Code.Nesting
import DeviceForge.Switch
/-!
# Labels in nested switches

`Sheltered` says of tokens that each label among them stands in the braces of a switch statement.
-/

namespace DeviceForge.Switch

open List Code

open Code (Nested IsFlat)

variable {ts args inside args' inside' rest rest' : List Token} {i m n : Nat} {t u : Token} {f g : Frame}

/-! ## Switch statements among tokens -/

structure Frame where
  word : Token
  opening : Token
  closing : Token
  brace : Token
  stop : Token
  word_eq : word.text = "switch"
  opening_eq : opening.text = "("
  closing_eq : closing.text = ")"
  brace_eq : brace.text = "\x7b"
  stop_eq : stop.text = "\x7d"

def Frame.around (f : Frame) (args inside : List Token) : List Token :=
  f.word :: f.opening :: (args ++ f.closing :: f.brace :: (inside ++ [f.stop]))

/-- The tokens start with a switch statement that has `m` tokens between its parentheses and `n` between its braces. -/
def StartsSwitch (m n : Nat) (ts : List Token) : Prop :=
  ts[0]?.any (·.text = "switch") = true ∧ ts[1]?.any (·.text = "(") = true ∧ Nested ((ts.drop 2).take m) ∧
    ts[m + 2]?.any (·.text = ")") = true ∧ ts[m + 3]?.any (·.text = "\x7b") = true ∧ Nested ((ts.drop (m + 4)).take n) ∧
    ts[m + 4 + n]?.any (·.text = "\x7d") = true

instance (m n : Nat) (ts : List Token) : Decidable (StartsSwitch m n ts) :=
  inferInstanceAs (Decidable (_ ∧ _))

/-- The token with index `i` stands between the braces of a switch statement. -/
def InSwitch (ts : List Token) (i : Nat) : Prop :=
  ∃ s < i, ∃ m < ts.length, ∃ n < ts.length, StartsSwitch m n (ts.drop s) ∧ s + m + 4 ≤ i ∧ i < s + m + 4 + n

instance (ts : List Token) (i : Nat) : Decidable (InSwitch ts i) :=
  inferInstanceAs (Decidable (∃ s < i, _))

/-- The tokens start with a label: with the word `case`, or with `default` before a colon. -/
def startsLabel : List Token → Bool
  | [] => false
  | t :: ts => t.text = "case" || (t.text = "default" && ts.head?.any (·.text = ":"))

def Sheltered (ts : List Token) : Prop :=
  ∀ i < ts.length, startsLabel (ts.drop i) = true → InSwitch ts i

instance (ts : List Token) : Decidable (Sheltered ts) :=
  inferInstanceAs (Decidable (∀ i < ts.length, _))

lemma exists_drop_eq_cons {text : String} (h : ts[i]?.any (·.text = text)) :
    ∃ t, ts.drop i = t :: ts.drop (i + 1) ∧ t.text = text := by
  cases ht : ts[i]? with
  | none => simp [ht] at h
  | some t =>
    obtain ⟨hi, rfl⟩ := List.getElem?_eq_some_iff.1 ht
    exact ⟨ts[i], drop_eq_getElem_cons hi, by simpa [ht] using h⟩

lemma startsSwitch_iff :
    StartsSwitch m n ts ↔ ∃ (f : Frame) (args inside after : List Token), ts = f.around args inside ++ after ∧ Nested args ∧
      Nested inside ∧ args.length = m ∧ inside.length = n := by
  constructor
  · rintro ⟨hword, hopening, hargs, hclosing, hbrace, hinside, hstop⟩
    obtain ⟨word, hword, hwordText⟩ := exists_drop_eq_cons hword
    obtain ⟨opening, hopening, hopeningText⟩ := exists_drop_eq_cons hopening
    obtain ⟨closing, hclosing, hclosingText⟩ := exists_drop_eq_cons hclosing
    obtain ⟨brace, hbrace, hbraceText⟩ := exists_drop_eq_cons hbrace
    obtain ⟨stop, hstop, hstopText⟩ := exists_drop_eq_cons hstop
    let f : Frame := ⟨word, opening, closing, brace, stop, hwordText, hopeningText, hclosingText, hbraceText, hstopText⟩
    have hrest : ts.drop (m + 4) = (ts.drop (m + 4)).take n ++ stop :: ts.drop (m + 4 + n + 1) := by
      have hsplit := take_append_drop n (ts.drop (m + 4))
      rw [drop_drop, hstop] at hsplit
      exact hsplit.symm
    have htail : ts.drop 2 = (ts.drop 2).take m ++ closing :: brace :: ts.drop (m + 4) := by
      have hsplit := take_append_drop m (ts.drop 2)
      rw [drop_drop, Nat.add_comm 2 m, hclosing, hbrace] at hsplit
      exact hsplit.symm
    have hts : ts = f.around ((ts.drop 2).take m) ((ts.drop (m + 4)).take n) ++ ts.drop (m + 4 + n + 1) := by
      calc ts = word :: opening :: ts.drop 2 := by rw [← hopening, ← hword, drop_zero]
        _ = word :: opening :: ((ts.drop 2).take m ++ closing :: brace :: ((ts.drop (m + 4)).take n ++
            stop :: ts.drop (m + 4 + n + 1))) := by rw [← hrest, ← htail]
        _ = _ := by simp [Frame.around, f]
    have hlength : m + 4 + n < ts.length := by
      have := congrArg length hstop
      rw [length_drop, length_cons] at this
      omega
    refine ⟨f, _, _, _, hts, hargs, hinside, ?_, ?_⟩
    · rw [length_take, length_drop]
      omega
    · rw [length_take, length_drop]
      omega
  · rintro ⟨f, args, inside, after, rfl, hargs, hinside, rfl, rfl⟩
    have hshape : f.around args inside ++ after =
        f.word :: f.opening :: (args ++ f.closing :: f.brace :: (inside ++ f.stop :: after)) := by simp [Frame.around]
    have hdrop : (f.around args inside ++ after).drop (args.length + 4) = inside ++ f.stop :: after := by
      rw [hshape, drop_succ_cons, drop_succ_cons, drop_length_add_append]
      rfl
    refine ⟨by simp [hshape, f.word_eq], by simp [hshape, f.opening_eq], by simpa [hshape] using hargs, by simp [hshape, f.closing_eq],
      by simp [hshape, f.brace_eq], ?_, ?_⟩
    · rwa [hdrop, take_left]
    · rw [← getElem?_drop, hdrop]
      simp [f.stop_eq]

lemma inSwitch_iff : InSwitch ts i ↔ ∃ (before : List Token) (f : Frame) (args inside after : List Token),
      ts = before ++ (f.around args inside ++ after) ∧ Nested args ∧ Nested inside ∧
        before.length + args.length + 4 ≤ i ∧ i < before.length + args.length + 4 + inside.length := by
  constructor
  · rintro ⟨s, hs, m, hm, n, hn, hstarts, hle, hlt⟩
    obtain ⟨f, args, inside, after, hts, hargs, hinside, rfl, rfl⟩ := startsSwitch_iff.1 hstarts
    have hlength : (ts.take s).length = s := by
      have := congrArg length hts
      simp only [Frame.around, length_drop, length_append, length_cons] at this
      rw [length_take]
      omega
    exact ⟨ts.take s, f, args, inside, after, by rw [← hts, take_append_drop], hargs, hinside, by omega, by omega⟩
  · rintro ⟨before, f, args, inside, after, rfl, hargs, hinside, hle, hlt⟩
    have hlength (n : Nat) (hn : n ≤ args.length + inside.length) : n < (before ++ (f.around args inside ++ after)).length := by
      simp only [Frame.around, length_append, length_cons]
      omega
    refine ⟨before.length, by omega, args.length, hlength _ (by omega), inside.length, hlength _ (by omega), ?_, hle, hlt⟩
    rw [drop_left]
    exact startsSwitch_iff.2 ⟨f, args, inside, after, rfl, hargs, hinside, rfl, rfl⟩

/-! ## Statements and brackets -/

lemma isFlat_of_text (h : t.text = u.text) (hu : IsFlat u) : IsFlat t := by
  unfold IsFlat opened? closed? at hu ⊢
  rwa [h]

lemma Frame.isFlat_word (f : Frame) : IsFlat f.word :=
  isFlat_of_text (u := ⟨.identifier, "", "switch"⟩) f.word_eq (by decide)

lemma nested_around (f : Frame) (hargs : Nested args) (hinside : Nested inside) : Nested (f.around args inside) := by
  have hgroup := nesting_group (b := .curly) f.brace_eq hinside f.stop_eq [] []
  rw [Nested, Frame.around, nesting_flat f.isFlat_word,
    nesting_group (b := .round) f.opening_eq hargs f.closing_eq, hgroup]
  rfl

lemma around_inj (hargs : Nested args) (hargs' : Nested args') (hinside : Nested inside)
    (hinside' : Nested inside') (h : f.around args inside ++ rest = g.around args' inside' ++ rest') :
    args = args' ∧ inside = inside' := by
  simp only [Frame.around, cons_append, List.append_assoc, cons.injEq, nil_append] at h
  obtain ⟨hargs, -, hrest⟩ := eq_of_nested (b := .round) hargs hargs' f.closing_eq g.closing_eq h.2.2
  obtain ⟨-, hrest⟩ := cons.inj hrest
  obtain ⟨hinside, -⟩ := eq_of_nested (b := .curly) hinside hinside' f.stop_eq g.stop_eq hrest
  exact ⟨hargs, hinside⟩

lemma InSwitch.tail (h : InSwitch (t :: ts) (i + 1)) :
    InSwitch ts i ∨ ∃ (f : Frame) (args inside after : List Token), t :: ts = f.around args inside ++ after ∧ Nested args ∧
      Nested inside ∧ i + 1 < args.length + 4 + inside.length := by
  obtain ⟨before, f, args, inside, after, hts, hargs, hinside, hle, hlt⟩ := inSwitch_iff.1 h
  cases before with
  | nil => exact .inr ⟨f, args, inside, after, hts, hargs, hinside, by simpa using hlt⟩
  | cons u before =>
    obtain ⟨-, hts⟩ := cons.inj hts
    simp only [length_cons] at hle hlt
    exact .inl (inSwitch_iff.2 ⟨before, f, args, inside, after, hts, hargs, hinside, by omega, by omega⟩)

lemma InSwitch.group {b : Bracket} {opening closing : Token} {group : List Token} (hopening : opening.text = b.opening.toString)
    (hgroup : Nested group) (hclosing : closing.text = b.closing.toString)
    (h : InSwitch (opening :: (group ++ closing :: rest)) i) :
    (∃ j, i = j + 1 ∧ j < group.length ∧ InSwitch group j) ∨ ∃ j, i = group.length + 2 + j ∧ InSwitch rest j := by
  obtain ⟨before, f, args, inside, after, hts, hargs, hinside, hle, hlt⟩ := inSwitch_iff.1 h
  have hlength : (f.around args inside).length = args.length + inside.length + 5 := by
    simp only [Frame.around, length_cons, length_append, length_nil]
    omega
  have hword (c : Char) (hc : f.word.text = c.toString) : False := by
    rw [f.word_eq] at hc
    have hlen := congrArg String.length hc
    rw [Char.toString, String.length_singleton] at hlen
    exact absurd hlen (by decide)
  cases before with
  | nil =>
    obtain ⟨rfl, -⟩ := cons.inj hts
    exact (hword _ hopening).elim
  | cons u before =>
    obtain ⟨-, hts⟩ := cons.inj hts
    simp only [length_cons] at hle hlt
    rcases append_eq_append_iff.1 hts with ⟨mid, rfl, hmid⟩ | ⟨mid, hgroupEq, hmid⟩
    · cases mid with
      | nil =>
        obtain ⟨rfl, -⟩ := cons.inj hmid
        exact (hword _ hclosing).elim
      | cons v mid =>
        obtain ⟨-, rfl⟩ := cons.inj hmid
        simp only [length_append, length_cons] at hle hlt
        exact .inr ⟨i - (group.length + 2), by omega,
          inSwitch_iff.2 ⟨mid, f, args, inside, after, rfl, hargs, hinside, by omega, by omega⟩⟩
    · -- the statement starts between the brackets and cannot reach over their end
      obtain ⟨more, hmore⟩ : ∃ more, mid = f.around args inside ++ more := by
        rcases append_eq_append_iff.1 hmid with ⟨more, hmore, -⟩ | ⟨beyond, hover, hrest⟩
        · exact ⟨more, hmore⟩
        · cases beyond with
          | nil => exact ⟨[], by simpa using hover.symm⟩
          | cons v beyond =>
            obtain ⟨rfl, -⟩ := cons.inj hrest
            rw [hgroupEq] at hgroup
            exact absurd (hover ▸ nested_around f hargs hinside) (not_nested_over before hgroup hclosing)
      rw [hmore] at hgroupEq
      have hlen := congrArg length hgroupEq
      simp only [length_append, hlength] at hlen
      exact .inl ⟨i - 1, by omega, by omega, inSwitch_iff.2 ⟨before, f, args, inside, more, hgroupEq, hargs, hinside, by omega, by omega⟩⟩

lemma InSwitch.behind (hargs : Nested args) (hinside : Nested inside)
    (h : InSwitch (f.around args inside ++ rest) ((f.around args inside).length + i)) : InSwitch rest i := by
  have hshape : f.around args inside ++ rest =
      f.word :: f.opening :: (args ++ f.closing :: f.brace :: (inside ++ f.stop :: rest)) := by simp [Frame.around]
  have hlength : (f.around args inside).length + i = (args.length + 2 + (inside.length + 2 + i)) + 1 := by
    simp only [Frame.around, length_cons, length_append, length_nil]
    omega
  rw [hlength, hshape] at h
  rcases h.tail with hround | ⟨g, args', inside', after, hts, hargs', hinside', hlt⟩
  · rcases hround.group (b := .round) f.opening_eq hargs f.closing_eq with ⟨j, hj, hlt, -⟩ | ⟨j, hj, hcurly⟩
    · omega
    obtain rfl : j = inside.length + 2 + i := by omega
    rcases hcurly.group (b := .curly) f.brace_eq hinside f.stop_eq with ⟨j, hj, hlt, -⟩ | ⟨j, hj, hrest⟩
    · omega
    obtain rfl : j = i := by omega
    exact hrest
  · rw [← hshape] at hts
    obtain ⟨rfl, rfl⟩ := around_inj hargs hargs' hinside hinside' hts
    omega

/-! ## Code without labels of its own -/

def StartsNone (ts : List Token) : Prop :=
  ∀ (f : Frame) (args inside after : List Token), Nested args → Nested inside → ts ≠ f.around args inside ++ after

inductive Body : List Token → Prop where
  | nil : Body []
  | plain {t : Token} {ts : List Token} : IsFlat t → startsLabel (t :: ts) = false → StartsNone (t :: ts) → Nested ts → Body ts →
      Body (t :: ts)
  | group {b : Bracket} {opening closing : Token} {inside ts : List Token} : opening.text = b.opening.toString →
      closing.text = b.closing.toString → Body inside → Body ts → Body (opening :: (inside ++ closing :: ts))
  | switch (f : Frame) {args inside ts : List Token} : Nested args → Nested inside → Body ts → Body (f.around args inside ++ ts)

lemma Sheltered.tail (h : Sheltered (t :: ts)) (hnone : StartsNone (t :: ts)) : Sheltered ts := by
  intro i hi hlabel
  rcases (h (i + 1) (by simpa using hi) hlabel).tail with h | ⟨f, args, inside, after, hts, hargs, hinside, -⟩
  · exact h
  · exact absurd hts (hnone f args inside after hargs hinside)

lemma Sheltered.behind (h : Sheltered (f.around args inside ++ ts)) (hargs : Nested args)
    (hinside : Nested inside) : Sheltered ts := by
  intro i hi hlabel
  refine (h ((f.around args inside).length + i) ?_ ?_).behind hargs hinside
  · rw [length_append]
    omega
  · rwa [drop_length_add_append]

section Group
variable {b : Bracket} {opening closing : Token} {inside ts : List Token}
  (hopening : opening.text = b.opening.toString) (hinside : Nested inside) (hclosing : closing.text = b.closing.toString)
  (h : Sheltered (opening :: (inside ++ closing :: ts)))
include hopening hinside hclosing h

lemma Sheltered.in_group : Sheltered inside := by
  intro i hi hlabel
  have hdrop : (opening :: (inside ++ closing :: ts)).drop (i + 1) = inside.drop i ++ closing :: ts := by
    rw [drop_succ_cons, drop_append_of_le_length (Nat.le_of_lt hi)]
  have hstarts : startsLabel ((opening :: (inside ++ closing :: ts)).drop (i + 1)) := by
    rw [hdrop]
    cases hd : inside.drop i with
    | nil => simp [hd, startsLabel] at hlabel
    | cons t us =>
      rw [hd, startsLabel] at hlabel
      rw [cons_append, startsLabel]
      cases us with
      | nil =>
        have hcase : t.text = "case" := by simpa using hlabel
        simp [hcase]
      | cons u us => exact hlabel
  rcases (h (i + 1) (by simp; omega) hstarts).group hopening hinside hclosing with ⟨j, hj, -, hin⟩ | ⟨j, hj, -⟩
  · obtain rfl : i = j := by omega
    exact hin
  · omega

lemma Sheltered.behind_group : Sheltered ts := by
  intro i hi hlabel
  have hdrop : (opening :: (inside ++ closing :: ts)).drop (inside.length + 2 + i) = ts.drop i := by
    rw [show inside.length + 2 + i = (inside.length + (1 + i)) + 1 by omega, drop_succ_cons, drop_length_add_append,
      Nat.add_comm 1 i, drop_succ_cons]
  rcases (h (inside.length + 2 + i) (by simp; omega) (by rwa [hdrop])).group hopening hinside hclosing with ⟨j, hj, hlt, -⟩ | ⟨j, hj, hin⟩
  · omega
  · obtain rfl : i = j := by omega
    exact hin

end Group

lemma body_of_sheltered (hnested : Nested ts) (hsheltered : Sheltered ts) : Body ts := by
  induction hn : ts.length using Nat.strongRecOn generalizing ts with
  | ind n ih =>
  cases ts with
  | nil => exact .nil
  | cons t ts =>
    by_cases hstarts : ∃ (f : Frame) (args inside after : List Token), Nested args ∧ Nested inside ∧ t :: ts = f.around args inside ++ after
    · obtain ⟨f, args, inside, after, hargs, hinside, heq⟩ := hstarts
      rw [heq] at hnested hsheltered hn ⊢
      have hlt : after.length < n := by
        rw [← hn, length_append]
        exact Nat.lt_add_of_pos_left (by simp [Frame.around])
      rw [Nested, nesting_nested (nested_around f hargs hinside)] at hnested
      exact .switch f hargs hinside (ih _ hlt hnested (hsheltered.behind hargs hinside) rfl)
    · have hnone : StartsNone (t :: ts) := fun f args inside after hargs hinside heq =>
        hstarts ⟨f, args, inside, after, hargs, hinside, heq⟩
      obtain ⟨mid, ht, hts⟩ := nesting_cons.1 hnested
      rcases nestBehind_eq_some_iff.1 ht with ⟨b, hb, rfl⟩ | ⟨b, -, hb⟩ | ⟨hflat, rfl⟩
      · have hopen : nesting ([] ++ b :: []) ts = some [] := hts
        obtain ⟨inside, close, rest, rfl, hinside, hclose, hrest⟩ := exists_match hopen
        simp only [length_cons, length_append] at hn
        exact .group hb hclose (ih _ (by omega) hinside (hsheltered.in_group hb hinside hclose) rfl)
          (ih _ (by omega) hrest (hsheltered.behind_group hb hinside hclose) rfl)
      · cases hb
      · have hlabel : startsLabel (t :: ts) = false := by
          refine Bool.eq_false_iff.2 fun hlabel => ?_
          obtain ⟨s, hs, -⟩ := hsheltered 0 (by simp) hlabel
          omega
        exact .plain hflat hlabel hnone hts (ih _ (by rw [← hn]; simp) hts (hsheltered.tail hnone) rfl)

lemma Body.nested (h : Body ts) : Nested ts := by
  induction h with
  | nil => rfl
  | plain hflat _ _ hnested _ _ => exact (nesting_flat hflat [] _).trans hnested
  | group hopening hclosing _ _ hinside hts => exact (nesting_group hopening hinside hclosing [] _).trans hts
  | switch f hargs hinside _ hts => exact (nesting_nested (nested_around f hargs hinside) [] _).trans hts

/-! ## The items of a body -/

def Ends (rest : List Token) : Prop :=
  ∀ t ∈ rest.head?, t.text ∉ [":", "(", "\x7b"]

def precede (is : List Item) (rest : Except Error (List Item)) : Except Error (List Item) :=
  rest.map (is ++ ·)

lemma precede_nil (rest : Except Error (List Item)) : precede [] rest = rest := by
  cases rest <;> rfl

lemma precede_precede (is js : List Item) (rest : Except Error (List Item)) : precede is (precede js rest) = precede (is ++ js) rest := by
  cases rest <;> simp [precede, Except.map]

lemma items_nested (us : List Token) (before rest : List Token) :
    items 0 us.length before (us ++ rest) = precede (us.map .plain) (items 0 0 (us.reverse ++ before) rest) := by
  induction us generalizing before with
  | nil => exact (precede_nil _).symm
  | cons u us ih =>
    rw [length_cons, cons_append, items, ih, reverse_cons, List.append_assoc, singleton_append]
    exact precede_precede [.plain u] _ _

lemma items_plain (hlabel : startsLabel (t :: ts) = false) (hhead : t.text = "switch" → head? ts = none)
    (before : List Token) : items 0 0 before (t :: ts) = precede [.plain t] (items 0 0 (t :: before) ts) := by
  simp only [startsLabel, Bool.or_eq_false_iff, decide_eq_false_iff_not] at hlabel
  rw [items]
  by_cases hswitch : t.text = "switch"
  · rw [if_pos hswitch, hhead hswitch]
    rfl
  · rw [if_neg hswitch, if_neg hlabel.1, if_neg (by simpa using hlabel.2)]
    rfl

section Head
variable {opening closing : Token} {args : List Token} (hopening : opening.text = "(") (hargs : Nested args) (hclosing : closing.text = ")")
include hopening hargs hclosing

lemma head?_parentheses : head? (opening :: (args ++ [closing])) = none := by
  rw [head?, if_pos hopening, enclosed?_append (hargs.balanced .round) hclosing]
  rfl

lemma head?_brace (brace : Token) (rest : List Token) : head? (opening :: (args ++ closing :: brace :: rest)) =
      if brace.text = "\x7b" then some (opening :: args ++ [closing, brace], rest) else none := by
  rw [head?, if_pos hopening, enclosed?_append (hargs.balanced .round) hclosing]
  rfl

end Head

lemma head?_eq_none (ht : t.text = "switch") (hts : Nested ts) (hnone : StartsNone (t :: ts))
    (hrest : Ends rest) : head? (ts ++ rest) = none := by
  have hfirst {c : String} (hc : c ∈ [":", "(", "\x7b"]) {u : Token} {us : List Token} (hu : rest = u :: us) : u.text ≠ c := by
    rintro rfl
    exact hrest u (by simp [hu]) hc
  cases ts with
  | nil =>
    cases hr : rest with
    | nil => rfl
    | cons u us => simp [head?, hfirst (c := "(") (by simp) hr]
  | cons opening ts =>
    by_cases hopening : opening.text = "("
    · have hopen : nesting ([] ++ .round :: []) ts = some [] := by
        rwa [Nested, nesting_opening (b := .round) hopening] at hts
      obtain ⟨args, closing, us, rfl, hargs, hclosing, hus⟩ := exists_match hopen
      rw [cons_append, List.append_assoc, cons_append]
      cases us with
      | nil =>
        rw [nil_append]
        cases hr : rest with
        | nil => exact head?_parentheses hopening hargs hclosing
        | cons u us => rw [head?_brace hopening hargs hclosing, if_neg (hfirst (by simp) hr)]
      | cons brace us =>
        rw [cons_append, head?_brace hopening hargs hclosing, if_neg]
        intro hbrace
        have hopen : nesting ([] ++ .curly :: []) us = some [] := by rwa [nesting_opening (b := .curly) hbrace] at hus
        obtain ⟨inside, stop, after, rfl, hinside, hstop, -⟩ := exists_match hopen
        let f : Frame := ⟨t, opening, closing, brace, stop, ht, hopening, hclosing, hbrace, hstop⟩
        exact absurd (by simp [f, Frame.around]) (hnone f args inside after hargs hinside)
    · simp [head?, hopening]

lemma items_body (h : Body ts) (hrest : Ends rest) (before : List Token) :
    items 0 0 before (ts ++ rest) = precede (ts.map .plain) (items 0 0 (ts.reverse ++ before) rest) := by
  induction h generalizing rest before with
  | nil => exact (precede_nil _).symm
  | @plain t ts hflat hlabel hnone hnested _ ih =>
    have hstarts : startsLabel (t :: (ts ++ rest)) = false := by
      cases ts with
      | cons u us => exact hlabel
      | nil =>
        simp only [startsLabel, Bool.or_eq_false_iff, Bool.and_eq_false_iff] at hlabel ⊢
        refine ⟨hlabel.1, .inr ?_⟩
        cases rest with
        | nil => rfl
        | cons u us =>
          have hcolon := hrest u rfl
          simp only [mem_cons, not_or] at hcolon
          simp [hcolon.1]
    rw [cons_append, items_plain hstarts (fun ht => head?_eq_none ht hnested hnone hrest), ih hrest, precede_precede]
    simp
  | @group b opening closing inside ts hopening hclosing _ _ hinside hts =>
    have hends : Ends (closing :: (ts ++ rest)) := by
      rintro t ⟨⟩
      rw [hclosing]
      cases b <;> decide
    have hbracket {t : Token} (ht : t.text = b.opening.toString ∨ t.text = b.closing.toString) (us : List Token) (before : List Token) :
        items 0 0 before (t :: us) = precede [.plain t] (items 0 0 (t :: before) us) := by
      have hne : t.text ∉ ["case", "default", "switch"] := by rcases ht with ht | ht <;> rw [ht] <;> cases b <;> decide
      simp only [mem_cons, not_or] at hne
      exact items_plain (by simp [startsLabel, hne.1, hne.2.1]) (fun hswitch => absurd hswitch hne.2.2.1) before
    rw [cons_append, List.append_assoc, cons_append, hbracket (.inl hopening), hinside hends, hbracket (.inr hclosing), hts hrest]
    simp [precede_precede]
  | @switch f args inside ts hargs hinside _ ih =>
    have hshape : f.around args inside ++ ts ++ rest =
        f.word :: (f.opening :: (args ++ f.closing :: f.brace :: (inside ++ [f.stop])) ++ (ts ++ rest)) := by simp [Frame.around]
    have hopen : f.opening :: (args ++ f.closing :: f.brace :: (inside ++ [f.stop])) ++ (ts ++ rest) =
        f.opening :: (args ++ f.closing :: f.brace :: (inside ++ f.stop :: (ts ++ rest))) := by simp
    have henclosed := enclosed?_append (hinside.balanced .curly) f.stop_eq (ts ++ rest)
    have hlength : (f.opening :: args ++ [f.closing, f.brace]).length + inside.length + 1 =
        (f.opening :: (args ++ f.closing :: f.brace :: (inside ++ [f.stop]))).length := by
      simp
      omega
    have hhead := head?_brace f.opening_eq hargs f.closing_eq f.brace (inside ++ f.stop :: (ts ++ rest))
    rw [← hopen, if_pos f.brace_eq] at hhead
    rw [hshape, items, if_pos f.word_eq, hhead]
    simp only [henclosed, hlength]
    rw [items_nested, ih hrest]
    change precede [.plain f.word] _ = _
    rw [precede_precede, precede_precede]
    simp [Frame.around]

end DeviceForge.Switch
