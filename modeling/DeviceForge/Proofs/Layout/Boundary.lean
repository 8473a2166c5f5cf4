import DeviceForge.Proofs.Layout.Shade
import DeviceForge.Proofs.Pattern.Fixed
/-!
# Modes and tokens

Behind each token of a text the reading is at a boundary (`Mode.At`): the next character starts a token, whether a gap
stands before it or not, and it is known whether the last token of code is `if`.
-/

namespace DeviceForge

open Token Text List Lexeme

/-- The token is a space that is no blank. -/
def Token.isSpace (t : Token) : Bool :=
  t.text.toList.all Text.isSpace

lemma Token.not_isSpace {t : Token} {c : Char} {cs : List Char} (htext : t.text.toList = c :: cs) (hc : Text.isSpace c = false) :
    t.isSpace = false := by
  rw [isSpace, htext, all_cons, hc, Bool.false_and]

namespace Layout

variable {hexadecimal afterIf : Bool} {c d : Char} {rest cs : List Char}

namespace Mode

variable {m : Mode} {w : List Char}

structure Ends (m : Mode) (afterIf : Bool) (rest : List Char) : Prop where
  tight : ∀ c ∈ rest.head?, m.step c = .start afterIf c ∨ c = '.' ∧ m.step c = .point true ∧ rest.tail.head? ≠ some '.'
  paused : ∀ feed, m.pause feed = .between afterIf

lemma ends_between (afterIf : Bool) (rest : List Char) : (Mode.between afterIf).Ends afterIf rest :=
  ⟨fun _ _ => .inl rfl, fun _ => rfl⟩

def Starts (m : Mode) (afterIf : Bool) (c : Char) (rest : List Char) : Prop :=
  m = .start afterIf c ∨ c = '.' ∧ m = .point true ∧ rest.head? ≠ some '.'

lemma Starts.eq (h : m.Starts afterIf c rest) (hc : c ≠ '.') : m = .start afterIf c :=
  h.elim id fun h => absurd h.1 hc

def At (m : Mode) (afterIf : Bool) (rest : List Char) : Prop :=
  rest = [] ∨ m = .line afterIf ∧ rest.head? = some '\n' ∨ m.Ends afterIf rest

lemma at_between (afterIf : Bool) (rest : List Char) : (Mode.between afterIf).At afterIf rest :=
  .inr (.inr (ends_between afterIf rest))

lemma afterIf_pause (m : Mode) (feed : Bool) : (m.pause feed).afterIf = m.afterIf := by
  cases m with
  | line afterIf => cases feed <;> rfl
  | _ => rfl

lemma afterIf_rest (m : Mode) (g : Gap) : (m.rest g).afterIf = m.afterIf := by
  cases g with
  | tight => rfl
  | blank => exact afterIf_pause m false
  | feed => exact afterIf_pause m true

lemma At.afterIf_eq (h : m.At afterIf rest) (hrest : rest ≠ []) : m.afterIf = afterIf := by
  rcases h with h | ⟨h, -⟩ | h
  · exact absurd h hrest
  · rw [h]
    rfl
  · rw [← afterIf_pause m true, h.paused]
    rfl

lemma foldl_between (hw : Spaces w) (afterIf : Bool) : w.foldl next (.between afterIf) = .between afterIf := by
  induction w with
  | nil => rfl
  | cons c w ih =>
    obtain ⟨hc, hw⟩ := spaces_cons.1 hw
    rw [foldl_cons, next_space hc]
    exact ih hw

lemma At.spaces (h : m.At afterIf (w ++ rest)) (hw : Spaces w) (hne : w ≠ []) :
    w.foldl next m = .between afterIf := by
  obtain ⟨c, w, rfl⟩ := exists_cons_of_ne_nil hne
  obtain ⟨hc, hw⟩ := spaces_cons.1 hw
  have hfirst : m.pause (c = '\n') = .between afterIf := by
    rcases h with h | ⟨rfl, hhead⟩ | h
    · cases h
    · obtain rfl : c = '\n' := Option.some.inj hhead
      rfl
    · exact h.paused _
  rw [foldl_cons, next_space hc, hfirst, foldl_between hw]

lemma At.foldl_spaces (h : m.At afterIf (w ++ rest)) (hw : Spaces w) : (w.foldl next m).At afterIf rest := by
  by_cases hne : w = []
  · subst hne
    exact h
  · rw [h.spaces hw hne]
    exact at_between afterIf rest

lemma At.starts (h : m.At afterIf (c :: rest)) (hc : isSpace c = false) : (m.step c).Starts afterIf c rest := by
  rcases h with h | ⟨-, hhead⟩ | h
  · cases h
  · obtain rfl : c = '\n' := Option.some.inj hhead
    cases hc
  · exact h.tight c rfl

end Mode

def isMark (hexadecimal : Bool) (c : Char) : Bool :=
  !hexadecimal && (c = 'e' || c = 'E')

lemma digit_goesOn (h : goesOn hexadecimal c d) :
    Mode.digit hexadecimal (isMark hexadecimal c) d = .number hexadecimal (isMark hexadecimal d) := by
  unfold Mode.digit
  split
  · rfl
  · rename_i hd
    have hnumber : isNumberChar d = false := Bool.eq_false_iff.2 hd
    rw [goesOn, hnumber, Bool.false_or, Bool.and_eq_true] at h
    rw [if_pos (by rw [h.2, isMark, h.1]; rfl)]
    have hsign : d = '+' ∨ d = '-' := by simpa using h.2
    rcases hsign with rfl | rfl <;> simp [isMark]

lemma digit_stop (h : goesOn hexadecimal c d = false) :
    Mode.digit hexadecimal (isMark hexadecimal c) d = .start false d := by
  rw [goesOn, Bool.or_eq_false_iff] at h
  have hsign : ((d = '+' || d = '-') && isMark hexadecimal c) = false := by
    rw [Bool.and_comm]
    exact h.2
  unfold Mode.digit
  rw [if_neg (by simpa [isNumberChar] using h.1), if_neg (by rw [hsign]; simp)]

lemma foldl_number (cs : List Char) (c : Char) (h : number hexadecimal (c :: (cs ++ rest)) = cs.length + 1) :
    ∃ last, cs.foldl Mode.step (.number hexadecimal (isMark hexadecimal c)) = .number hexadecimal (isMark hexadecimal last) ∧
      ∀ d ∈ rest.head?, goesOn hexadecimal last d = false := by
  have hgoes {d e : Char} {es : List Char} (h : number hexadecimal (e :: es) ≠ 0) : goesOn hexadecimal d e := by
    have hnum : isNumberChar e := by
      by_contra hnum
      exact h ((number_eq_zero_iff hexadecimal (e :: es)).2 (by simpa using hnum))
    rw [goesOn, hnum, Bool.true_or]
  induction hn : cs.length using Nat.strong_induction_on generalizing cs c with
  | _ n ih =>
    cases cs with
    | nil => exact ⟨c, rfl, ((number_eq_one_iff hexadecimal c rest).1 (by simpa using h)).2⟩
    | cons d ds =>
      rw [length_cons] at hn
      rw [cons_append, number_cons_cons, length_cons] at h
      split at h
      · rename_i hc
        split at h
        · rename_i hsign
          have hgo : goesOn hexadecimal c d := by rw [goesOn, hsign, Bool.or_true]
          rw [foldl_cons, Mode.step, digit_goesOn hgo]
          cases ds with
          | nil =>
            have hzero : number hexadecimal rest = 0 := by simpa using h
            have hmark : isMark hexadecimal d = false := by
              have hd : d = '+' ∨ d = '-' := by simpa using (Bool.and_eq_true_iff.1 hsign).2
              rcases hd with rfl | rfl <;> simp [isMark]
            refine ⟨d, rfl, fun e he => ?_⟩
            have hnot := (number_eq_zero_iff hexadecimal rest).1 hzero e he
            rw [goesOn, hnot, Bool.false_or]
            rw [isMark] at hmark
            rw [hmark, Bool.false_and]
          | cons e es =>
            have hlen : number hexadecimal (e :: (es ++ rest)) = es.length + 1 := by
              rw [cons_append, length_cons] at h
              omega
            rw [foldl_cons, Mode.step, digit_goesOn (hgoes (hlen.trans_ne (Nat.succ_ne_zero _)))]
            exact ih es.length (by rw [length_cons] at hn; omega) es e hlen rfl
        · have hlen : number hexadecimal (d :: (ds ++ rest)) = ds.length + 1 := by omega
          rw [foldl_cons, Mode.step, digit_goesOn (hgoes (hlen.trans_ne (Nat.succ_ne_zero _)))]
          exact ih ds.length (by omega) ds d hlen rfl
      · omega

/-! ## Tokens of code -/

namespace Mode

variable {m : Mode}

lemma ends_number {last : Char} (h : ∀ d ∈ rest.head?, goesOn hexadecimal last d = false) :
    (Mode.number hexadecimal (isMark hexadecimal last)).Ends false rest :=
  ⟨fun d hd => .inl (digit_stop (h d hd)), fun _ => rfl⟩

lemma ends_foldl_number (h : Lexeme.number hexadecimal (c :: (cs ++ rest)) = cs.length + 1) :
    (cs.foldl step (.number hexadecimal (isMark hexadecimal c))).Ends false rest := by
  obtain ⟨last, hfold, hstop⟩ := foldl_number cs c h
  rw [hfold]
  exact ends_number hstop

lemma start_digit (hc : c.isDigit) (hzero : c ≠ '0') (afterIf : Bool) : start afterIf c = .number false false := by
  have hne {x : Char} (hx : x.isDigit = false) : c ≠ x := by
    rintro rfl
    simp [hc] at hx
  unfold start
  rw [if_neg (hne (by decide)), if_neg (by simp [hne (x := '"') (by decide), hne (x := '\'') (by decide)]), if_neg (hne (by decide)),
    if_neg hzero, if_pos hc]

lemma isMark_digit (hc : c.isDigit) (hexadecimal : Bool) : isMark hexadecimal c = false := by
  have hne {x : Char} (hx : x.isDigit = false) : c ≠ x := by
    rintro rfl
    simp [hc] at hx
  simp [isMark, hne (x := 'e') (by decide), hne (x := 'E') (by decide)]

lemma ends_zero (h : Lexeme.number (isHexadecimal '0' (cs ++ rest)) ('0' :: (cs ++ rest)) = cs.length + 1) :
    (cs.foldl step .zero).Ends false rest := by
  have hword : isWordChar 'x' = true ∧ isWordChar 'X' = true := by decide
  cases cs with
  | nil =>
    obtain ⟨-, hstop⟩ := (number_eq_one_iff _ _ _).1 h
    refine ⟨fun d hd => .inl ?_, fun _ => rfl⟩
    have hnot := hstop d hd
    have hx : ¬(d = 'x' || d = 'X') := by
      intro hx
      have hx : d = 'x' ∨ d = 'X' := by simpa using hx
      rcases hx with rfl | rfl
      · simp [goesOn, isNumberChar, hword.1] at hnot
      · simp [goesOn, isNumberChar, hword.2] at hnot
    have hfalse : goesOn false '0' d = false := by
      simp only [goesOn, Bool.or_eq_false_iff] at hnot ⊢
      exact ⟨hnot.1, rfl⟩
    rw [foldl_nil, step, if_neg hx]
    exact digit_stop hfalse
  | cons d ds =>
    by_cases hx : (d = 'x' || d = 'X')
    · have hhex : isHexadecimal '0' (d :: ds ++ rest) = true := by simpa [isHexadecimal] using hx
      rw [hhex, cons_append, number_cons_cons, if_pos (by decide)] at h
      have hrest : Lexeme.number true (d :: (ds ++ rest)) = ds.length + 1 := by
        rw [if_neg (by simp), length_cons] at h
        omega
      rw [foldl_cons, step, if_pos hx]
      exact ends_foldl_number hrest
    · have hhex : isHexadecimal '0' (d :: ds ++ rest) = false := by simpa [isHexadecimal] using hx
      rw [hhex] at h
      have hsame : step .zero d = step (.number false (isMark false '0')) d := by
        rw [step, if_neg hx]
        rfl
      have hends := ends_foldl_number h
      rw [foldl_cons] at hends ⊢
      rw [hsame]
      exact hends

lemma ends_token_number (hm : m.Starts afterIf c (cs ++ rest)) (hc : startsNumber c (cs ++ rest))
    (h : Lexeme.number (isHexadecimal c (cs ++ rest)) (c :: (cs ++ rest)) = cs.length + 1) :
    (cs.foldl step m).Ends false rest := by
  simp only [startsNumber, Bool.or_eq_true, Bool.and_eq_true, decide_eq_true_eq, Option.any_eq_true] at hc
  rcases hc with hc | ⟨rfl, d, hd, hdigit⟩
  · have hpoint : c ≠ '.' := by
      rintro rfl
      cases hc
    rw [hm.eq hpoint]
    by_cases hzero : c = '0'
    · subst hzero
      exact ends_zero h
    · have hhex : isHexadecimal c (cs ++ rest) = false := by simp [isHexadecimal, hzero]
      rw [hhex] at h
      have hends := ends_foldl_number h
      rwa [isMark_digit hc, ← start_digit hc hzero afterIf] at hends
  · have hnumber : isNumberChar d = true := by simp [isNumberChar, isWordChar, Char.isAlphanum, hdigit]
    have hhex : isHexadecimal '.' (cs ++ rest) = false := rfl
    rw [hhex] at h
    cases cs with
    | nil =>
      obtain ⟨-, hstop⟩ := (number_eq_one_iff _ _ _).1 h
      have := hstop d hd
      simp [goesOn, hnumber] at this
    | cons e es =>
      obtain rfl : e = d := by simpa using hd
      have hfirst : m.step e = .number false (isMark false e) := by
        rw [isMark_digit hdigit]
        rcases hm with rfl | ⟨-, rfl, -⟩
        · exact if_pos hdigit
        · exact if_pos hdigit
      rw [cons_append, number_cons_cons, if_pos (by decide), if_neg (by simp), length_cons] at h
      rw [foldl_cons, hfirst]
      exact ends_foldl_number (by omega)

lemma ends_word {chars : List Char} (hcs : cs.all isWordChar) (hrest : ∀ c ∈ rest.head?, isWordChar c = false) :
    (cs.foldl step (.word chars)).Ends (chars ++ cs = ['i', 'f']) rest := by
  induction cs generalizing chars with
  | nil =>
    rw [foldl_nil, append_nil]
    exact ⟨fun c hc => .inl (if_neg (by simp [hrest c hc])), fun _ => rfl⟩
  | cons c cs ih =>
    rw [all_cons, Bool.and_eq_true] at hcs
    rw [foldl_cons, step, if_pos hcs.1]
    have := @ih (chars ++ [c]) hcs.2
    rwa [append_assoc, singleton_append] at this

lemma foldl_operator {op : List Char} (hop : op ∈ longOperators ++ shortOperators) (afterIf : Bool) :
    ∀ c cs, op = c :: cs → cs.foldl step (start afterIf c) = .between false := by
  have hall (b : Bool) : (longOperators ++ shortOperators).all
      (fun op => decide (op.tail.foldl step (start b (op.head?.getD ' ')) = .between false)) := by
    cases b <;> decide
  rintro c cs rfl
  exact of_decide_eq_true (all_eq_true.1 (hall afterIf) _ hop)

lemma ends_operator (hm : m.Starts afterIf c (cs ++ rest))
    (hplain : start afterIf c = .between false ∨ c = '/' ∨ c = '.')
    (hslash : c = '/' → (cs ++ rest).head? ≠ some '/' ∧ (cs ++ rest).head? ≠ some '*')
    (hpoint : startsNumber c (cs ++ rest) = false)
    (h : operator (c :: (cs ++ rest)) = cs.length + 1) : (cs.foldl step m).Ends false rest := by
  by_cases hcs : cs = []
  · subst hcs
    rw [nil_append] at hm hslash hpoint h
    rw [foldl_nil]
    rcases hm with rfl | ⟨rfl, rfl, hhead⟩
    · rcases hplain with hplain | rfl | rfl
      · rw [hplain]
        exact ends_between false rest
      · obtain ⟨hline, hblock⟩ := hslash rfl
        refine ⟨fun d hd => .inl ?_, fun _ => rfl⟩
        have hd' : d ≠ '/' ∧ d ≠ '*' := ⟨fun heq => hline (heq ▸ hd), fun heq => hblock (heq ▸ hd)⟩
        exact (if_neg hd'.1).trans (if_neg hd'.2)
      · refine ⟨fun d hd => ?_, fun _ => rfl⟩
        have hdigit : d.isDigit = false := by
          have hhead : rest.head? = some d := hd
          simpa [startsNumber, hhead] using hpoint
        by_cases hd' : d = '.'
        · refine .inr ⟨hd', ?_, fun htail => ?_⟩
          · subst hd'
            rfl
          · have hlong := ((operator_eq_one_iff _).1 h).1
            refine hlong ?_
            subst hd'
            obtain ⟨ds, rfl⟩ := head?_eq_some_iff.1 hd
            obtain ⟨es, rfl⟩ := head?_eq_some_iff.1 htail
            simp [longOperators]
        · refine .inl ?_
          have hstart : start afterIf '.' = .point false := rfl
          rw [hstart, step, if_neg (by simp [hdigit]), if_neg hd']
    · refine ⟨fun d hd => .inl ?_, fun _ => rfl⟩
      have hhead' : rest.head? = some d := hd
      have hdigit : d.isDigit = false := by simpa [startsNumber, hhead'] using hpoint
      rw [step, if_neg (by simp [hdigit]), if_neg (by rintro rfl; exact hhead hd)]
  · have hop : c :: cs ∈ longOperators ++ shortOperators := by
      rw [mem_append]
      have hlen : (c :: cs).length = cs.length + 1 := rfl
      have hpos := length_pos_iff.2 hcs
      rw [operator_eq] at h
      split at h
      · rename_i hlong
        refine .inl ?_
        rwa [h, ← hlen, ← cons_append, take_left] at hlong
      split at h
      · rename_i hshort
        refine .inr ?_
        rwa [h, ← hlen, ← cons_append, take_left] at hshort
      · omega
    have hstart : m = start afterIf c := by
      rcases hm with hm | ⟨rfl, -, hhead⟩
      · exact hm
      · obtain ⟨d, ds, rfl⟩ := exists_cons_of_ne_nil hcs
        have hdots : (longOperators ++ shortOperators).all (fun op => op.head? != some '.' || op.tail.head? == some '.') := by
          decide
        have := all_eq_true.1 hdots _ hop
        simp at this
        exact absurd (by simp [this]) hhead
    rw [hstart, foldl_operator hop afterIf c cs rfl]
    exact ends_between false rest

lemma start_plain (hquote : c ≠ '"' ∧ c ≠ '\'') (hdigit : c.isDigit = false)
    (hletter : (c.isAlpha || c = '_') = false) (afterIf : Bool) :
    start afterIf c = .between false ∨ c = '/' ∨ c = '.' := by
  have hzero : c ≠ '0' := by
    rintro rfl
    cases hdigit
  by_cases hslash : c = '/'
  · exact .inr (.inl hslash)
  by_cases hpoint : c = '.'
  · exact .inr (.inr hpoint)
  · refine .inl ?_
    unfold start
    rw [if_neg hslash, if_neg (by simp [hquote]), if_neg hpoint, if_neg hzero, if_neg (by simp [hdigit]), if_neg (by simp [hletter])]

lemma ends_code {kind : Token.Kind} (hext : extent c (cs ++ rest) = (kind, cs.length))
    (hcode : kind.segment = .code) (hm : m.Starts afterIf c (cs ++ rest)) :
    (cs.foldl step m).Ends (c :: cs = ['i', 'f']) rest := by
  obtain ⟨hplain, hext⟩ := (extent_iff hcode).1 hext
  have hquotes := mt (Segment.extent_ne_code_iff c (cs ++ rest)).2 (not_not.2 hplain)
  simp only [not_or] at hquotes
  obtain ⟨hquote, hline, hblock⟩ := hquotes
  cases kind with
  | str | char | comment => cases hext
  | number =>
    have hif : ¬(c :: cs = ['i', 'f']) := by
      rintro hif
      obtain ⟨rfl, -⟩ := cons.inj hif
      cases hext.1
    rw [decide_eq_false hif]
    exact ends_token_number hm hext.1 hext.2
  | identifier =>
    obtain ⟨hletter, hlen⟩ := hext
    have hstart : m = .word [c] := by
      have hne {x : Char} (hx : (x.isAlpha || x = '_') = false) : c ≠ x := by
        rintro rfl
        rw [hletter] at hx
        cases hx
      have hdigit := letter_not_digit hletter
      rw [hm.eq (hne (by decide)), start, if_neg (hne (by decide)), if_neg (by simp [hquote]), if_neg (hne (by decide)),
        if_neg (hne (by decide)), if_neg (by simp [hdigit]), if_pos hletter]
    obtain ⟨hwords, hstop⟩ := (word_append_iff cs rest).1 hlen
    rw [hstart]
    exact ends_word (all_eq_true.2 hwords) hstop
  | punct =>
    obtain ⟨hnumber, hletter, hlen⟩ := hext
    have hif : ¬(c :: cs = ['i', 'f']) := by
      rintro hif
      obtain ⟨rfl, -⟩ := cons.inj hif
      cases hletter
    have hdigit := (Bool.or_eq_false_iff.1 hnumber).1
    rw [decide_eq_false hif]
    exact ends_operator hm (start_plain hquote hdigit hletter afterIf)
      (fun hc => ⟨fun h => hline ⟨hc, h⟩, fun h => hblock ⟨hc, h⟩⟩) hnumber hlen

end Mode

/-! ## Tokens -/

lemma not_space_of_inner (h : isInner c) : isSpace c = false := by
  rw [isInner, Bool.or_eq_true] at h
  rcases h with h | h
  · exact Pattern.not_space_of_wordChar h
  · have hall : ['.', '+', '-', '<', '>', '=', '&', '|', '#'].all (!isSpace ·) := by decide
    simpa using all_eq_true.1 hall c (by simpa using h)

lemma foldl_next_chars (h : ∀ c ∈ cs, isSpace c = false) (m : Mode) :
    cs.foldl Mode.next m = cs.foldl Mode.step m := by
  induction cs generalizing m with
  | nil => rfl
  | cons c cs ih =>
    obtain ⟨hc, hcs⟩ := forall_mem_cons.1 h
    rw [foldl_cons, foldl_cons, Mode.next_char hc, ih hcs]

lemma text_of_space {kind : Token.Kind} (hext : extent c (cs ++ rest) = (kind, cs.length))
    (hc : Text.isSpace c) : cs = [] := by
  have hword : isWordChar c = false := by
    by_contra hword
    simp [Pattern.not_space_of_wordChar (by simpa using hword)] at hc
  have hne {x : Char} (hx : Text.isSpace x = false) : c ≠ x := by
    rintro rfl
    simp [hc] at hx
  simp only [isWordChar, Char.isAlphanum, Bool.or_eq_false_iff] at hword
  have hops : (longOperators ++ shortOperators).all (fun op => op.head?.all (!Text.isSpace ·)) = true := by decide
  have hop (n : Nat) (hn : n ≠ 0) : (c :: (cs ++ rest)).take n ∉ longOperators ++ shortOperators := by
    intro hmem
    have hhead := all_eq_true.1 hops _ hmem
    obtain ⟨n, rfl⟩ := Nat.exists_eq_succ_of_ne_zero hn
    simp [hc] at hhead
  have hone : operator (c :: (cs ++ rest)) = 1 :=
    (operator_eq_one_iff _).2 ⟨fun h => hop 3 (by decide) (mem_append_left _ h), fun h => hop 2 (by decide) (mem_append_right _ h)⟩
  have hpunct : extent c (cs ++ rest) = (.punct, 0) := by
    simp [extent, hone, hne (x := '/') (by decide), hne (x := '"') (by decide), hne (x := '\'') (by decide), hne (x := '.') (by decide),
      hword]
  rw [hpunct] at hext
  exact length_eq_zero_iff.1 (Prod.mk.inj hext).2.symm

def carry (t : Token) (afterIf : Bool) : Bool :=
  if t.isComment || t.isSpace then afterIf else t.text = "if"

lemma Mode.At.token {m : Mode} {t : Token} (h : m.At afterIf (t.text.toList ++ rest))
    (hreads : t.Reads rest) (hreturn : '\r' ∉ rest) : (t.text.toList.foldl next m).At (carry t afterIf) rest := by
  rcases reads_cases hreads with hcode | ⟨quote, cs, hq, htext, hlen⟩ | ⟨cs, hkind, htext, hbreaks, hrest⟩ | ⟨cs, hkind, htext, hlen⟩
  · have hcomment : t.isComment = false := by cases hk : t.kind <;> simp_all [isComment, Kind.segment]
    obtain ⟨c, cs, htext, -, hext⟩ := hreads
    rw [htext] at h ⊢
    by_cases hc : isSpace c
    · obtain rfl := text_of_space hext hc
      have hcarry : carry t afterIf = afterIf := if_pos (by simp [Token.isSpace, htext, hc])
      rw [hcarry]
      exact h.foldl_spaces (spaces_cons.2 ⟨hc, spaces_nil⟩)
    · rw [Bool.not_eq_true] at hc
      have hinner : ∀ d ∈ cs, isInner d := by
        rcases extent_cases hext with ⟨hne, -⟩ | ⟨-, -, hinner⟩
        · exact absurd hcode hne
        · rwa [take_left] at hinner
      have hcarry : carry t afterIf = decide (c :: cs = ['i', 'f']) := by
        rw [carry, if_neg (by simp [hcomment, not_isSpace htext hc]), ← htext]
        exact decide_eq_decide.2 ⟨fun h => by rw [h]; rfl, fun h => String.toList_injective h⟩
      rw [hcarry, foldl_cons, next_char hc, foldl_next_chars fun d hd => not_space_of_inner (hinner d hd)]
      exact .inr (.inr (ends_code hext hcode (h.starts hc)))
  · have hquote : quote = '"' ∨ quote = '\'' := by rcases hq with ⟨-, rfl⟩ | ⟨-, rfl⟩ <;> simp
    have hcarry : carry t afterIf = false := by
      have hkind : t.isComment = false := by rcases hq with ⟨hk, -⟩ | ⟨hk, -⟩ <;> simp [isComment, hk]
      rw [carry, if_neg (by simp [hkind, not_isSpace htext hq.not_space])]
      refine decide_eq_false fun hif => ?_
      rw [hif] at htext
      rcases hquote with rfl | rfl <;> exact absurd (cons.inj htext).1 (by decide)
    rw [htext] at h ⊢
    have hopen : m.step quote = .quoted quote := by
      have hstart := h.starts hq.not_space
      rw [hstart.eq (by rcases hquote with rfl | rfl <;> decide)]
      rcases hquote with rfl | rfl <;> rfl
    have hend := (agrees_quoted hquote (cs ++ rest)).2
    rw [hlen, take_left, drop_left] at hend
    rw [hcarry, foldl_cons, next_char hq.not_space, hopen]
    rcases hend with hend | rfl
    · rw [hend]
      exact at_between false rest
    · exact .inl rfl
  · have hcarry : carry t afterIf = afterIf := if_pos (by simp [isComment, hkind])
    rw [htext] at h ⊢
    have hopen : m.step '/' = .slash afterIf := (h.starts (by decide)).eq (by decide)
    have hcomment : (Mode.slash afterIf).next '/' = .line afterIf := rfl
    rw [hcarry, foldl_cons, next_char (by decide), hopen, foldl_cons, hcomment, (agrees_line hbreaks).2]
    cases rest with
    | nil => exact .inl rfl
    | cons c rest =>
      have hc := hrest c rfl
      have hne : c ≠ '\r' := fun heq => hreturn (heq ▸ mem_cons_self)
      refine .inr (.inl ⟨rfl, ?_⟩)
      simpa [isLineBreak, hne] using hc
  · have hcarry : carry t afterIf = afterIf := if_pos (by simp [isComment, hkind])
    rw [htext] at h ⊢
    have hopen : m.step '/' = .slash afterIf := (h.starts (by decide)).eq (by decide)
    have hcomment : (Mode.slash afterIf).next '*' = .block afterIf := rfl
    have hend := (agrees_block (cs ++ rest) (.inl rfl : InBlock afterIf (.block afterIf) _)).2
    rw [hlen, take_left, drop_left] at hend
    rw [hcarry, foldl_cons, next_char (by decide), hopen, foldl_cons, hcomment]
    rcases hend with hend | rfl
    · rw [hend]
      exact at_between afterIf rest
    · exact .inl rfl

end Layout

end DeviceForge

/-! # Reading tokens -/

namespace DeviceForge.Layout

open Token Segment List Reader

structure Reading (r : Reader) (afterIf : Bool) (ts : List Token) (tail : List Char) : Prop where
  legible : Legible ts tail
  unified : '\r' ∉ Token.chars ts ++ tail
  boundary : r.here.At afterIf (Token.chars ts ++ tail)
  agrees : Agrees Fits r.here (ts.flatMap (labelledToken Shade.of .code) ++ tail.map (·, .code))

def Reader.opened : Reader :=
  ⟨.between false, .tight⟩

namespace Reading

lemma initial {cs : List Char} {ts : List Token} {tail : String} (h : scan cs = (ts, tail)) (hreturn : '\r' ∉ cs) :
    Reading .initial false ts tail.toList := by
  have hagrees := agrees_labelled (m := Reader.initial.here) hreturn trivial
  rw [labelled_scan (fun _ => rfl) h] at hagrees
  rw [chars_scan h] at hreturn
  exact ⟨legible_of_scan h, hreturn, Mode.at_between false _, hagrees⟩

variable {r : Reader} {afterIf : Bool} {t : Token} {ts : List Token} {tail : List Char} {x : Glyph}

section
variable (h : Reading r afterIf (t :: ts) tail)

include h

lemma spaces_lead : Text.Spaces t.lead.toList :=
  fun c hc => Text.isSpace_of_isBlank (h.legible.1 c hc)

lemma glyphs_lead (cs : List Char) :
    glyphs r (t.lead.toList ++ cs) = glyphs (r.past t.lead.toList) cs := by
  rw [glyphs_append, glyphs_spaces h.spaces_lead, nil_append]

lemma at_text :
    (r.past t.lead.toList).here.At afterIf (t.text.toList ++ (chars ts ++ tail)) := by
  have hat := h.boundary
  rw [chars_cons, append_assoc, append_assoc] at hat
  rw [here_past]
  exact hat.foldl_spaces h.spaces_lead

lemma agrees_text :
    Agrees Fits (r.past t.lead.toList).here (t.text.toList.map (·, Shade.of ⟨t.kind.segment, t.text.toList⟩)) ∧
      Agrees Fits ((r.past t.lead.toList).past t.text.toList).here
        (ts.flatMap (labelledToken Shade.of .code) ++ tail.map (·, .code)) := by
  have hagrees := h.agrees
  rw [flatMap_cons, labelledToken, append_assoc, append_assoc, agrees_append, agrees_append, map_map,
    map_map] at hagrees
  simpa [here_past, Function.comp_def] using hagrees.2

lemma next : Reading ((r.past t.lead.toList).past t.text.toList) (carry t afterIf) ts tail := by
  have hunified : '\r' ∉ chars ts ++ tail := by
    have := h.unified
    rw [chars_cons, append_assoc, mem_append, not_or] at this
    exact this.2
  refine ⟨h.legible.2.2, hunified, ?_, h.agrees_text.2⟩
  rw [here_past]
  exact h.at_text.token h.legible.2.1 hunified

lemma afterIf_eq : r.mode.afterIf = afterIf := by
  obtain ⟨c, cs, htext, -⟩ := h.legible.2.1
  rw [← Mode.afterIf_rest r.mode r.gap]
  refine h.boundary.afterIf_eq ?_
  rw [chars_cons, htext]
  simp

lemma fits_of_glyph (hx : x ∈ glyphs (r.past t.lead.toList) t.text.toList) :
    x.char ∈ t.text.toList ∧ ∃ m, Fits (Shade.of ⟨t.kind.segment, t.text.toList⟩) m x.char x.mode := by
  have hmap : (t.text.toList.map (·, Shade.of ⟨t.kind.segment, t.text.toList⟩)).map (·.1) = t.text.toList := by
    rw [map_map]
    exact map_id _
  rw [← hmap] at hx
  obtain ⟨y, hy, hchar, hfits⟩ := h.agrees_text.1.exists_of_glyph hx
  obtain ⟨c, hc, rfl⟩ := mem_map.1 hy
  exact ⟨hchar ▸ hc, hfits⟩

lemma text_of_glyph (hx : x ∈ glyphs (r.past t.lead.toList) t.text.toList)
    (hbracket : isBracket x.char) (hmode : x.mode = .between false) : t.text = x.char.toString := by
  obtain ⟨hchar, m, hfits⟩ := h.fits_of_glyph hx
  exact text_of_bracket h.legible.2.1 (Shade.of_eq_code_iff.1 ((hfits.bracket hbracket).2 hmode)) hbracket hchar

lemma isLineComment_of_glyph (hx : x ∈ glyphs (r.past t.lead.toList) t.text.toList)
    (hline : x.mode.isLine) : t.isLineComment := by
  obtain ⟨-, m, hfits⟩ := h.fits_of_glyph hx
  have hsegment := isLineSegment_of_shade (hfits.line hline)
  cases hkind : t.kind <;> simp_all [isLineSegment, isLineComment, Token.Kind.segment]

lemma bracket {c : Char} (hc : isBracket c) (ht : t.text = c.toString) :
    (r.past t.lead.toList).past t.text.toList = .opened ∧
      ∀ cs, glyphs (r.past t.lead.toList) (c :: cs) = ⟨(r.past t.lead.toList).gap, c, .between false⟩ :: glyphs .opened cs := by
  have htext : t.text.toList = [c] := by rw [ht, Char.toString, String.toList_singleton]
  have hspace := not_space_of_isBracket hc
  have hat := h.at_text
  rw [htext] at hat
  have hstart : Mode.start afterIf c = .between false ∧ c ≠ '.' := by
    rcases cases_of_isBracket hc with rfl | rfl | rfl | rfl | rfl | rfl <;> exact ⟨rfl, by decide⟩
  have hstep : (r.past t.lead.toList).here.step c = .between false := ((hat.starts hspace).eq hstart.2).trans hstart.1
  refine ⟨?_, fun cs => ?_⟩
  · rw [htext, past_cons, push_char hspace, hstep]
    rfl
  · rw [glyphs_char hspace, hstep]
    rfl

end

lemma drop {as bs : List Token} (h : Reading r afterIf (as ++ bs) tail) :
    Reading (r.past (chars as)) (as.foldl (fun b t => carry t b) afterIf) bs tail := by
  induction as generalizing r afterIf with
  | nil => exact h
  | cons t as ih =>
    rw [chars_cons, past_append, past_append, foldl_cons]
    exact ih h.next

end Reading

end DeviceForge.Layout
