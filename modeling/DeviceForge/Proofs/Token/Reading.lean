import DeviceForge.Proofs.Segment.Bytes
/-!
# Reading tokens again

A text that was made from tokens is scanned into the same tokens if each of them is read where it stands: `Legible` says
that of a whole list of tokens, and `scan_of_legible` that it is all a scan needs.
-/

namespace DeviceForge.Lexeme

open List Text Lexeme String

variable {cs ys zs op : List Char} {c d : Char}

lemma quoted_le (quote : Char) (cs : List Char) : quoted quote cs ≤ cs.length := by
  fun_induction quoted quote cs with
  | case1 => exact Nat.le_refl _
  | case2 d cs ih => simp only [length_cons]; omega
  | case3 => simp
  | case4 c cs _ _ ih => simp only [length_cons]; omega

lemma block_le (cs : List Char) : block cs ≤ cs.length := by
  fun_induction block cs with
  | case1 => exact Nat.le_refl _
  | case2 => simp
  | case3 c cs _ ih => simp only [length_cons]; omega

lemma number_le (hexadecimal : Bool) (cs : List Char) : number hexadecimal cs ≤ cs.length := by
  fun_induction number hexadecimal cs with
  | case1 => exact Nat.le_refl _
  | case2 => simp
  | case3 => simp
  | case4 c d cs _ _ ih => simp only [length_cons]; omega
  | case5 c d cs _ _ ih => simp only [length_cons] at ih ⊢; omega
  | case6 => simp

def longOperators : List (List Char) :=
  [['<', '<', '='], ['>', '>', '='], ['.', '.', '.']]

def shortOperators : List (List Char) :=
  ["->", "++", "--", "<<", ">>", "<=", ">=", "==", "!=", "&&", "||", "+=", "-=", "*=", "/=", "%=", "&=", "|=", "^=",
    "##"].map String.toList

lemma find?_isPrefixOf {n : Nat} (ops : List String) (hlen : ∀ op ∈ ops, op.length = n) (cs : List Char) :
    (ops.find? (·.toList.isPrefixOf cs)).isSome = decide (cs.take n ∈ ops.map toList) := by
  induction ops with
  | nil => simp
  | cons op ops ih =>
    have hop : op.toList <+: cs ↔ cs.take n = op.toList := by
      rw [prefix_iff_eq_take, length_toList, hlen op mem_cons_self, eq_comm]
    rw [find?_cons]
    by_cases h : cs.take n = op.toList
    · rw [List.isPrefixOf_iff_prefix.2 (hop.2 h)]
      simp [h]
    · rw [Bool.eq_false_iff.2 fun hpre => h (hop.1 (List.isPrefixOf_iff_prefix.1 hpre)),
        ih fun op hop => hlen op (mem_cons_of_mem _ hop)]
      simp [h]

lemma operator_eq (cs : List Char) :
    operator cs = if cs.take 3 ∈ longOperators then 3 else if cs.take 2 ∈ shortOperators then 2 else 1 := by
  have hlong := find?_isPrefixOf (n := 3) (operators.take 3) (by decide) cs
  have hshort := find?_isPrefixOf (n := 2) (operators.drop 3) (by decide) cs
  have hlong' : (operators.take 3).map toList = longOperators := by decide
  have hshort' : (operators.drop 3).map toList = shortOperators := by decide
  have hlen3 : ∀ op ∈ operators.take 3, op.length = 3 := by decide
  have hlen2 : ∀ op ∈ operators.drop 3, op.length = 2 := by decide
  rw [hlong'] at hlong
  rw [hshort'] at hshort
  have hsplit : operators = operators.take 3 ++ operators.drop 3 := (take_append_drop 3 operators).symm
  rw [operator, hsplit, find?_append]
  cases h3 : (operators.take 3).find? (·.toList.isPrefixOf cs) with
  | some op =>
    rw [h3] at hlong
    rw [if_pos (by simpa using hlong)]
    exact hlen3 op (mem_of_find?_eq_some h3)
  | none =>
    rw [h3] at hlong
    rw [if_neg (by simpa using hlong)]
    cases h2 : (operators.drop 3).find? (·.toList.isPrefixOf cs) with
    | some op =>
      rw [h2] at hshort
      rw [if_pos (by simpa using hshort)]
      exact hlen2 op (mem_of_find?_eq_some h2)
    | none =>
      rw [h2] at hshort
      rw [if_neg (by simpa using hshort)]
      rfl

lemma operator_pos (cs : List Char) : 0 < operator cs := by
  rw [operator_eq]
  split
  · exact Nat.succ_pos _
  · split <;> exact Nat.succ_pos _

lemma operator_le (h : cs ≠ []) : operator cs ≤ cs.length := by
  have hpos := length_pos_iff.2 h
  rw [operator_eq]
  split
  · rename_i h3
    have hlen : ∀ op ∈ longOperators, op.length = 3 := by decide
    have := hlen _ h3
    rw [length_take] at this
    omega
  · split
    · rename_i h2
      have hlen : ∀ op ∈ shortOperators, op.length = 2 := by decide
      have := hlen _ h2
      rw [length_take] at this
      omega
    · omega

/-! ## What an extent depends on -/

def Apart (cs : List Char) : Prop :=
  ∀ c ∈ cs.head?, Text.isBlank c = true

lemma apart_nil : Apart [] := by
  intro c hc
  cases hc

lemma apart_cons (h : isBlank c) (cs : List Char) : Apart (c :: cs) := by
  intro d hd
  obtain rfl : c = d := by simpa using hd
  exact h

def Follows (ys zs : List Char) : Prop :=
  Apart zs ∨ zs.head? = ys.head? ∧ (zs.take 2 = ['.', '.'] → ys.take 2 = ['.', '.'])

lemma Follows.head (h : Follows ys zs) (hc : zs.head? = some c) (hblank : isBlank c = false) : ys.head? = some c := by
  rcases h with h | ⟨h, -⟩
  · have := h c hc
    simp [hblank] at this
  · rw [← h, hc]

lemma not_blank_of_wordChar (h : isWordChar c) : isBlank c = false := by
  by_contra hb
  rw [Bool.not_eq_false] at hb
  simp only [isBlank, Bool.or_eq_true, decide_eq_true_eq] at hb
  rcases hb with (((rfl | rfl) | rfl) | rfl) | rfl <;> revert h <;> decide

lemma takeWhile_append_iff (p : Char → Bool) (cs ys : List Char) :
    ((cs ++ ys).takeWhile p).length = cs.length ↔ (∀ c ∈ cs, p c) ∧ ∀ c ∈ ys.head?, p c = false := by
  induction cs with
  | nil =>
    rw [nil_append, length_nil, List.length_eq_zero_iff, takeWhile_eq_nil_iff]
    cases ys <;> simp
  | cons c cs ih =>
    rw [cons_append, takeWhile_cons]
    split <;> simp_all

lemma word_append_iff (cs ys : List Char) :
    word (cs ++ ys) = cs.length ↔ (∀ c ∈ cs, isWordChar c) ∧ ∀ c ∈ ys.head?, isWordChar c = false :=
  takeWhile_append_iff isWordChar cs ys

lemma word_append (h : word (cs ++ ys) = cs.length) (hf : Follows ys zs) : word (cs ++ zs) = cs.length := by
  obtain ⟨hcs, hys⟩ := (word_append_iff cs ys).1 h
  refine (word_append_iff cs zs).2 ⟨hcs, fun c hc => ?_⟩
  by_contra hword
  rw [Bool.not_eq_false] at hword
  simp [hys c (hf.head hc (not_blank_of_wordChar hword))] at hword

def isNumberChar (c : Char) : Bool :=
  Text.isWordChar c || c = '.'

def goesOn (hexadecimal : Bool) (c d : Char) : Bool :=
  isNumberChar d || !hexadecimal && (c = 'e' || c = 'E') && (d = '+' || d = '-')

lemma not_blank_of_goesOn {hexadecimal : Bool} (h : goesOn hexadecimal c d) : isBlank d = false := by
  simp only [goesOn, isNumberChar, Bool.or_eq_true, Bool.and_eq_true, decide_eq_true_eq] at h
  rcases h with (h | rfl) | ⟨-, rfl | rfl⟩
  · exact not_blank_of_wordChar h
  all_goals decide

lemma number_nil (hexadecimal : Bool) : number hexadecimal [] = 0 := rfl

lemma number_singleton (hexadecimal : Bool) (c : Char) :
    number hexadecimal [c] = if isNumberChar c then 1 else 0 := rfl

lemma number_cons_cons (hexadecimal : Bool) (c d : Char) (cs : List Char) : number hexadecimal (c :: d :: cs) =
      if isNumberChar c then
        if !hexadecimal && (c = 'e' || c = 'E') && (d = '+' || d = '-') then 2 + number hexadecimal cs
        else 1 + number hexadecimal (d :: cs) else 0 := rfl

lemma number_eq_zero_iff (hexadecimal : Bool) (cs : List Char) :
    number hexadecimal cs = 0 ↔ ∀ c ∈ cs.head?, isNumberChar c = false := by
  match cs with
  | [] => simp [number_nil]
  | [c] => rw [number_singleton]; split <;> simp_all
  | c :: d :: cs =>
    rw [number_cons_cons]
    split
    · split <;> simp_all
    · simp_all

lemma number_eq_one_iff (hexadecimal : Bool) (c : Char) (cs : List Char) :
    number hexadecimal (c :: cs) = 1 ↔ isNumberChar c ∧ ∀ d ∈ cs.head?, goesOn hexadecimal c d = false := by
  match cs with
  | [] => rw [number_singleton]; split <;> simp_all
  | d :: cs =>
    have hzero := number_eq_zero_iff hexadecimal (d :: cs)
    rw [number_cons_cons]
    split
    · split_ifs with hsign
      · have hgo : goesOn hexadecimal c d := by simp only [goesOn, hsign, Bool.or_true]
        simp [hgo]
        omega
      · simp_all [goesOn]
    · simp_all

lemma number_append {hexadecimal : Bool} (hf : Follows ys zs) (cs : List Char)
    (h : number hexadecimal (cs ++ ys) = cs.length) : number hexadecimal (cs ++ zs) = cs.length := by
  match cs with
  | [] =>
    rw [nil_append, length_nil, number_eq_zero_iff] at h ⊢
    intro d hd
    by_contra hn
    rw [Bool.not_eq_false] at hn
    have hgo : goesOn hexadecimal d d := by simp [goesOn, hn]
    have := h d (hf.head hd (not_blank_of_goesOn hgo))
    simp [hn] at this
  | [c] =>
    rw [List.singleton_append, List.length_singleton, number_eq_one_iff] at h ⊢
    refine ⟨h.1, fun d hd => ?_⟩
    by_contra hn
    rw [Bool.not_eq_false] at hn
    have := h.2 d (hf.head hd (not_blank_of_goesOn hn))
    simp [hn] at this
  | c :: d :: cs =>
    simp only [cons_append, number_cons_cons, length_cons] at h ⊢
    split at h
    · rename_i hc
      rw [if_pos hc]
      split at h
      · rename_i hsign
        rw [if_pos hsign, number_append hf cs (by omega)]
        omega
      · rename_i hsign
        have hlen : number hexadecimal (d :: cs ++ ys) = (d :: cs).length := by
          rw [cons_append, length_cons]
          omega
        have ih := number_append hf (d :: cs) hlen
        rw [cons_append, length_cons] at ih
        rw [if_neg hsign, ih]
        omega
    · omega

lemma not_blank_of_operators (h : op ∈ longOperators ∨ op ∈ shortOperators) : ∀ c ∈ op, isBlank c = false := by
  have hall : (longOperators ++ shortOperators).all (·.all fun c => !isBlank c) := by decide
  simp only [all_eq_true, Bool.not_eq_true'] at hall
  exact hall op (mem_append.2 h)

lemma operator_eq_one_iff (cs : List Char) :
    operator cs = 1 ↔ cs.take 3 ∉ longOperators ∧ cs.take 2 ∉ shortOperators := by
  rw [operator_eq]
  by_cases h3 : cs.take 3 ∈ longOperators <;> by_cases h2 : cs.take 2 ∈ shortOperators <;> simp [h3, h2]

lemma operator_eq_two_iff (cs : List Char) :
    operator cs = 2 ↔ cs.take 3 ∉ longOperators ∧ cs.take 2 ∈ shortOperators := by
  rw [operator_eq]
  by_cases h3 : cs.take 3 ∈ longOperators <;> by_cases h2 : cs.take 2 ∈ shortOperators <;> simp [h3, h2]

lemma operator_eq_three_iff (cs : List Char) : operator cs = 3 ↔ cs.take 3 ∈ longOperators := by
  rw [operator_eq]
  by_cases h3 : cs.take 3 ∈ longOperators <;> by_cases h2 : cs.take 2 ∈ shortOperators <;> simp [h3, h2]

lemma operator_le_three (cs : List Char) : operator cs ≤ 3 := by
  rw [operator_eq]
  by_cases h3 : cs.take 3 ∈ longOperators <;> by_cases h2 : cs.take 2 ∈ shortOperators <;> simp [h3, h2]

lemma Follows.completes (hf : Follows ys zs) (cs : List Char) (hlen : cs.length < op.length)
    (hop : op ∈ longOperators ∨ op ∈ shortOperators) (h : cs ++ zs.take 1 = op) : cs ++ ys.take 1 = op := by
  rw [take_one] at h ⊢
  cases hz : zs.head? with
  | none =>
    rw [hz, Option.toList_none, append_nil] at h
    rw [h] at hlen
    omega
  | some z =>
    rw [hz] at h
    have hmem : z ∈ op := by simp [← h]
    rw [hf.head hz (not_blank_of_operators hop z hmem)]
    exact h

lemma operator_append (hcs : cs ≠ []) (h : operator (cs ++ ys) = cs.length) (hf : Follows ys zs) :
    operator (cs ++ zs) = cs.length := by
  have hlen3 : ∀ op ∈ longOperators, op.length = 3 := by decide
  have hlen2 : ∀ op ∈ shortOperators, op.length = 2 := by decide
  match cs with
  | [a] =>
    simp only [List.singleton_append, List.length_singleton, operator_eq_one_iff, List.take_succ_cons] at h ⊢
    obtain ⟨hlong, hshort⟩ := h
    have hshort' : a :: zs.take 1 ∉ shortOperators := by
      intro hop
      have h := hf.completes [a] (by simp [hlen2 _ hop]) (.inr hop) rfl
      rw [List.singleton_append] at h
      exact hshort (by rwa [h])
    refine ⟨fun hop => ?_, hshort'⟩
    have hfirst : zs.take 1 = (zs.take 2).take 1 := by rw [List.take_take]; rfl
    -- only the three points are an operator whose first two characters are none
    simp only [longOperators, List.mem_cons, List.not_mem_nil, or_false, List.cons.injEq] at hop
    rcases hop with ⟨rfl, hz⟩ | ⟨rfl, hz⟩ | ⟨rfl, hz⟩
    · exact hshort' (by rw [hfirst, hz]; decide)
    · exact hshort' (by rw [hfirst, hz]; decide)
    · rcases hf with hf | ⟨-, hf⟩
      · obtain ⟨zs, rfl⟩ : ∃ zs', zs = '.' :: zs' := by
          cases zs with
          | nil => simp at hz
          | cons z zs => exact ⟨zs, by simp at hz; rw [hz.1]⟩
        exact absurd (hf '.' rfl) (by decide)
      · exact hlong (by rw [hf hz]; decide)
  | [a, b] =>
    rw [List.length_cons, List.length_singleton, operator_eq_two_iff] at h ⊢
    simp only [List.cons_append, List.nil_append, List.take_succ_cons, List.take_zero] at h ⊢
    refine ⟨fun hop => ?_, h.2⟩
    have heq := hf.completes [a, b] (by simp [hlen3 _ hop]) (.inl hop) rfl
    exact h.1 (by rw [List.cons_append, List.cons_append, List.nil_append] at heq; rwa [heq])
  | [a, b, c] =>
    rw [show [a, b, c].length = 3 from rfl, operator_eq_three_iff] at h ⊢
    exact h
  | a :: b :: c :: d :: cs =>
    have := operator_le_three (a :: b :: c :: d :: cs ++ ys)
    simp only [List.length_cons] at h
    omega

end DeviceForge.Lexeme

namespace DeviceForge.Token

variable {cs lead rest ys zs : List Char} {ts : List Token} {c : Char}

/-- The text of the token is read as this token, and no further, if `rest` follows it. -/
def Reads (t : Token) (rest : List Char) : Prop :=
  ∃ c cs, t.text.toList = c :: cs ∧ Text.isBlank c = false ∧ extent c (cs ++ rest) = (t.kind, cs.length)

def Blank (cs : List Char) : Prop :=
  ∀ c ∈ cs, Text.isBlank c = true

def Legible : List Token → List Char → Prop
  | [], tail => Blank tail
  | t :: ts, tail => Blank t.lead.toList ∧ Reads t (chars ts ++ tail) ∧ Legible ts tail

lemma extent_le (c : Char) (rest : List Char) : (extent c rest).2 ≤ rest.length := by
  unfold extent
  split
  · exact (List.takeWhile_prefix _).length_le
  split
  · rename_i h
    obtain ⟨-, cs, rfl⟩ : c = '/' ∧ ∃ cs, rest = '*' :: cs := by simpa [List.head?_eq_some_iff] using h
    have := Lexeme.block_le cs
    simp only [List.tail_cons, List.length_cons]
    omega
  split
  · exact Lexeme.quoted_le _ _
  split
  · exact Lexeme.quoted_le _ _
  split
  · dsimp only
    have := Lexeme.number_le (decide (c = '0') && (decide (rest.head? = some 'x') || decide (rest.head? = some 'X'))) (c :: rest)
    rw [List.length_cons] at this
    omega
  split
  · exact (List.takeWhile_prefix _).length_le
  · have := Lexeme.operator_le (List.cons_ne_nil c rest)
    rw [List.length_cons] at this
    dsimp only
    omega

lemma legible_of_scan {tail : String} (h : scan cs = (ts, tail)) : Legible ts tail.toList := by
  induction ts generalizing cs with
  | nil =>
    obtain ⟨ht, hb⟩ := scan_nil h
    rw [ht]
    exact hb
  | cons t ts ih =>
    obtain ⟨c, rest, n, hext, -, htext, hlead, hc, hscan⟩ := scan_cons h
    have hn : n ≤ rest.length := by
      have := extent_le c rest
      rwa [hext] at this
    refine ⟨hlead, ⟨c, rest.take n, htext, hc, ?_⟩, ih hscan⟩
    rw [← chars_scan hscan, List.take_append_drop, hext, List.length_take, Nat.min_eq_left hn]

lemma takeWhile_blank (h : Blank lead) (hc : Text.isBlank c = false) (cs : List Char) :
    (lead ++ c :: cs).takeWhile Text.isBlank = lead ∧ (lead ++ c :: cs).dropWhile Text.isBlank = c :: cs := by
  constructor
  · rw [List.takeWhile_append_of_pos h, List.takeWhile_cons_of_neg (by simp [hc]), List.append_nil]
  · rw [List.dropWhile_append_of_pos h, List.dropWhile_cons_of_neg (by simp [hc])]

lemma scan_of_legible {tail : List Char} (h : Legible ts tail) :
    scan (chars ts ++ tail) = (ts, String.ofList tail) := by
  induction ts with
  | nil =>
    rw [chars_nil, List.nil_append, scan]
    split
    · rfl
    · rename_i c rest hd
      simp [List.dropWhile_eq_nil_iff.2 h] at hd
  | cons t ts ih =>
    obtain ⟨hlead, ⟨c, cs, htext, hc, hext⟩, hts⟩ := h
    obtain ⟨htake, hdrop⟩ := takeWhile_blank hlead hc (cs ++ (chars ts ++ tail))
    have hchars : chars (t :: ts) ++ tail = t.lead.toList ++ c :: (cs ++ (chars ts ++ tail)) := by
      rw [chars_cons, htext]
      simp only [List.append_assoc, List.cons_append]
    rw [hchars, scan]
    split
    · rename_i hd
      simp [hdrop] at hd
    · rename_i d rest hd
      obtain ⟨rfl, rfl⟩ : c = d ∧ cs ++ (chars ts ++ tail) = rest := by simpa using hdrop.symm.trans hd
      rw [hext, htake]
      simp only [List.drop_left, List.take_left, ih hts, String.ofList_toList, ← htext]

/-! ## Tokens of code -/

lemma not_blank_of_digit (h : c.isDigit) : Text.isBlank c = false :=
  Lexeme.not_blank_of_wordChar (by simp [Text.isWordChar, Char.isAlphanum, h])

def isHexadecimal (c : Char) (rest : List Char) : Bool :=
  c = '0' && (rest.head? = some 'x' || rest.head? = some 'X')

def startsNumber (c : Char) (rest : List Char) : Bool :=
  c.isDigit || (c = '.' && rest.head?.any Char.isDigit)

lemma numberChar_of_startsNumber (h : startsNumber c rest) : Lexeme.isNumberChar c := by
  simp only [startsNumber, Bool.or_eq_true, Bool.and_eq_true, decide_eq_true_eq] at h
  rcases h with h | ⟨rfl, -⟩
  · simp [Lexeme.isNumberChar, Text.isWordChar, Char.isAlphanum, h]
  · decide

lemma isAlpha_iff : c.isAlpha ↔ (65 ≤ c.toNat ∧ c.toNat ≤ 90) ∨ 97 ≤ c.toNat ∧ c.toNat ≤ 122 := by
  have hupper : c.isUpper = decide (c.val ≥ 65 ∧ c.val ≤ 90) := rfl
  have hlower : c.isLower = (decide (c.val ≥ 97) && decide (c.val ≤ 122)) := rfl
  change (c.isUpper || c.isLower) ↔ _
  rw [hupper, hlower, Bool.or_eq_true, Bool.and_eq_true, decide_eq_true_iff, decide_eq_true_iff, decide_eq_true_iff]
  rfl

lemma letter_not_digit (h : (c.isAlpha || c = '_')) : c.isDigit = false := by
  simp only [Bool.or_eq_true, decide_eq_true_eq] at h
  rcases h with h | rfl
  · have hletter := isAlpha_iff.1 h
    simp only [Char.isDigit, Bool.and_eq_false_iff, decide_eq_false_iff_not, ge_iff_le, UInt32.le_iff_toNat_le]
    simp
    omega
  · rfl

/-- A token of code of this kind starts with `c` and takes `n` of the characters behind it. -/
def CodeExtent (c : Char) (rest : List Char) : Kind → Nat → Prop
  | .number, n => startsNumber c rest ∧ Lexeme.number (isHexadecimal c rest) (c :: rest) = n + 1
  | .identifier, n => (c.isAlpha || c = '_') ∧ Lexeme.word rest = n
  | .punct, n => startsNumber c rest = false ∧ (c.isAlpha || c = '_') = false ∧ Lexeme.operator (c :: rest) = n + 1
  | _, _ => False

lemma plain_of_head (h : (Segment.extent c ys).1 = .code) (hslash : zs.head? = some '/' → ys.head? = some '/')
    (hstar : zs.head? = some '*' → ys.head? = some '*') : (Segment.extent c zs).1 = .code := by
  by_contra hne
  rw [← Ne, Segment.extent_ne_code_iff] at hne
  exact (Segment.extent_ne_code_iff c ys).2 (hne.imp_right (.imp (.imp_right hslash) (.imp_right hstar))) h

lemma extent_iff {kind : Kind} {n : Nat} (hcode : kind.segment = .code) :
    extent c rest = (kind, n) ↔ (Segment.extent c rest).1 = .code ∧ CodeExtent c rest kind n := by
  have hplain (h : (Segment.extent c rest).1 = .code) : extent c rest =
      if startsNumber c rest then (.number, Lexeme.number (isHexadecimal c rest) (c :: rest) - 1)
      else if c.isAlpha || c = '_' then (.identifier, Lexeme.word rest) else (.punct, Lexeme.operator (c :: rest) - 1) := by
    have hne := mt (Segment.extent_ne_code_iff c rest).2 (not_not.2 h)
    simp only [not_or] at hne
    rw [extent, if_neg hne.2.1, if_neg hne.2.2, if_neg hne.1.1, if_neg hne.1.2]
    rfl
  constructor
  · intro h
    obtain ⟨hne, -⟩ | ⟨-, hsegment, -⟩ := extent_cases h
    · exact absurd hcode hne
    refine ⟨hsegment, ?_⟩
    rw [hplain hsegment] at h
    split_ifs at h with hnumber hletter <;> obtain ⟨rfl, rfl⟩ := Prod.mk.inj h
    · have hpos := mt (Lexeme.number_eq_zero_iff (isHexadecimal c rest) (c :: rest)).1
        (by simp [numberChar_of_startsNumber hnumber])
      exact ⟨hnumber, by omega⟩
    · exact ⟨hletter, rfl⟩
    · have hpos := Lexeme.operator_pos (c :: rest)
      exact ⟨by simpa using hnumber, by simpa using hletter, by omega⟩
  · rintro ⟨hsegment, h⟩
    rw [hplain hsegment]
    cases kind with
    | number => rw [if_pos h.1, h.2, Nat.add_sub_cancel]
    | identifier =>
      have hpoint : c ≠ '.' := by
        rintro rfl
        cases h.1
      rw [if_neg (by simp [startsNumber, letter_not_digit h.1, hpoint]), if_pos h.1, h.2]
    | punct => rw [if_neg (by simp [h.1]), if_neg (by simp [h.2.1]), h.2.2, Nat.add_sub_cancel]
    | str | char | comment => cases h

lemma number_single (hf : Lexeme.Follows ys zs) (hc : startsNumber c ys)
    (h : Lexeme.number (isHexadecimal c ys) (c :: ys) = 1) :
    startsNumber c zs ∧ isHexadecimal c zs = isHexadecimal c ys := by
  obtain ⟨-, hstop⟩ := (Lexeme.number_eq_one_iff _ _ _).1 h
  have hword {d : Char} (hd : ys.head? = some d) : Text.isWordChar d = false := by
    have := hstop d hd
    simp only [Lexeme.goesOn, Lexeme.isNumberChar, Bool.or_eq_false_iff] at this
    exact this.1.1
  constructor
  · simp only [startsNumber, Bool.or_eq_true, Bool.and_eq_true, Option.any_eq_true] at hc ⊢
    rcases hc with hc | ⟨-, d, hd, hdigit⟩
    · exact .inl hc
    · have := hword hd
      simp [Text.isWordChar, Char.isAlphanum, hdigit] at this
  · have hx {d : Char} (hd : Text.isWordChar d) : ¬ys.head? = some d := fun h => by
      simp [hword h] at hd
    have hx' {d : Char} (hd : Text.isWordChar d) : ¬zs.head? = some d := fun h =>
      hx hd (hf.head h (Lexeme.not_blank_of_wordChar hd))
    simp [isHexadecimal, hx (d := 'x') (by decide), hx (d := 'X') (by decide), hx' (d := 'x') (by decide),
      hx' (d := 'X') (by decide)]

lemma extent_number (hf : Lexeme.Follows ys zs) (hc : startsNumber c (cs ++ ys))
    (h : Lexeme.number (isHexadecimal c (cs ++ ys)) (c :: (cs ++ ys)) = cs.length + 1) : startsNumber c (cs ++ zs) ∧
    Lexeme.number (isHexadecimal c (cs ++ zs)) (c :: (cs ++ zs)) = cs.length + 1 := by
  have hhex : startsNumber c (cs ++ zs) ∧ isHexadecimal c (cs ++ zs) = isHexadecimal c (cs ++ ys) := by
    cases cs with
    | nil => exact number_single hf hc h
    | cons d cs => exact ⟨hc, rfl⟩
  refine ⟨hhex.1, ?_⟩
  rw [hhex.2]
  exact Lexeme.number_append hf (c :: cs) h

lemma head?_append_of_follows (hf : Lexeme.Follows ys zs) (hc : (cs ++ zs).head? = some c)
    (hblank : Text.isBlank c = false) : (cs ++ ys).head? = some c := by
  cases cs with
  | nil => exact hf.head hc hblank
  | cons d cs => exact hc

lemma reads_of_follows {t : Token} (h : Reads t ys) (hcode : t.kind.segment = .code)
    (hf : Lexeme.Follows ys zs) : Reads t zs := by
  obtain ⟨c, cs, htext, hblank, hext⟩ := h
  refine ⟨c, cs, htext, hblank, ?_⟩
  have hhead {d : Char} (hd : (cs ++ zs).head? = some d) (hb : Text.isBlank d = false) : (cs ++ ys).head? = some d :=
    head?_append_of_follows hf hd hb
  obtain ⟨hplain, hext⟩ := (extent_iff hcode).1 hext
  refine (extent_iff hcode).2 ⟨plain_of_head hplain (hhead · (by decide)) (hhead · (by decide)), ?_⟩
  revert hext
  cases t.kind with
  | number => exact fun h => extent_number hf h.1 h.2
  | identifier => exact fun h => ⟨h.1, Lexeme.word_append h.2 hf⟩
  | punct =>
    refine fun h => ⟨?_, h.2.1, Lexeme.operator_append (List.cons_ne_nil c cs) h.2.2 hf⟩
    by_contra hnumber
    simp only [startsNumber, Bool.not_eq_false, Bool.or_eq_true, Bool.and_eq_true, Option.any_eq_true] at hnumber
    rcases hnumber with hdigit | ⟨hdot, d, hd, hdigit⟩
    · exact absurd h.1 (by simp [startsNumber, hdigit])
    · exact absurd h.1 (by simp [startsNumber, hdot, hhead hd (not_blank_of_digit hdigit), hdigit])
  | str | char | comment => exact id

end DeviceForge.Token
