import DeviceForge.Code
import DeviceForge.Proofs.Token.Reading
/-!
# Closed literals and comments

A literal or a block comment that is closed ends at its own last character, so it is read before anything that may
follow it; a comment up to the end of its line is read before a line break.
-/

namespace DeviceForge.Lexeme

open List Lexeme

variable {quote : Char} {cs : List Char}

def endsQuoted (quote : Char) : List Char → Bool
  | [] => false
  | '\\' :: _ :: cs => endsQuoted quote cs
  | c :: cs => if c = quote then cs.isEmpty else endsQuoted quote cs

def endsBlock : List Char → Bool
  | [] => false
  | '*' :: '/' :: cs => cs.isEmpty
  | _ :: cs => endsBlock cs

lemma quoted_escape (quote d : Char) (cs : List Char) : quoted quote ('\\' :: d :: cs) = 2 + quoted quote cs := by
  rw [quoted]

lemma quoted_plain {c : Char} (h : c ≠ '\\') (cs : List Char) :
    quoted quote (c :: cs) = if c = quote then 1 else 1 + quoted quote cs := by
  rw [quoted]
  rintro d ds rfl
  exact absurd rfl h

lemma endsQuoted_plain {c : Char} (h : c ≠ '\\') (cs : List Char) :
    endsQuoted quote (c :: cs) = if c = quote then cs.isEmpty else endsQuoted quote cs := by
  rw [endsQuoted]
  rintro d ds rfl
  exact absurd rfl h

lemma quoted_append (hq : quote ≠ '\\') (rest : List Char) :
    (cs : List Char) → endsQuoted quote cs → quoted quote (cs ++ rest) = cs.length
  | [], h => by cases h
  | [c], h => by
    by_cases hc : c = '\\'
    · subst hc
      simp [endsQuoted, Ne.symm hq] at h
    · rw [endsQuoted_plain hc] at h
      rw [singleton_append, quoted_plain hc]
      split
      · rfl
      · rename_i hne
        rw [if_neg hne] at h
        cases h
  | c :: d :: cs, h => by
    by_cases hc : c = '\\'
    · subst hc
      have ih := quoted_append hq rest cs h
      rw [cons_append, cons_append, quoted_escape, ih, length_cons, length_cons, Nat.add_comm]
    · rw [endsQuoted_plain hc] at h
      rw [cons_append, quoted_plain hc]
      split
      · rename_i heq
        rw [if_pos heq] at h
        cases h
      · rename_i hne
        rw [if_neg hne] at h
        rw [quoted_append hq rest (d :: cs) h, length_cons, length_cons, length_cons, Nat.add_comm]

lemma quoted_pos (quote : Char) (h : cs ≠ []) : 0 < quoted quote cs := by
  match cs with
  | [c] => rw [quoted]; split <;> omega; simp
  | c :: d :: cs =>
    by_cases hc : c = '\\'
    · subst hc
      rw [quoted_escape]
      omega
    · rw [quoted_plain hc]
      split <;> omega

lemma endsQuoted_of_quoted {rest : List Char} (hrest : rest ≠ []) :
    (cs : List Char) → quoted quote (cs ++ rest) = cs.length → endsQuoted quote cs
  | [], h => by
    have := quoted_pos quote hrest
    rw [nil_append, length_nil] at h
    omega
  | [c], h => by
    by_cases hc : c = '\\'
    · subst hc
      obtain ⟨d, rest, rfl⟩ := exists_cons_of_ne_nil hrest
      rw [singleton_append, quoted_escape, length_singleton] at h
      omega
    · have := quoted_pos quote hrest
      rw [singleton_append, quoted_plain hc, length_singleton] at h
      rw [endsQuoted_plain hc]
      split
      · rfl
      · rename_i hne
        rw [if_neg hne] at h
        omega
  | c :: d :: cs, h => by
    by_cases hc : c = '\\'
    · subst hc
      rw [cons_append, cons_append, quoted_escape, length_cons, length_cons] at h
      exact endsQuoted_of_quoted hrest cs (by omega)
    · rw [cons_append, quoted_plain hc, length_cons, length_cons] at h
      rw [endsQuoted_plain hc]
      split
      · rename_i heq
        rw [if_pos heq] at h
        omega
      · rename_i hne
        rw [if_neg hne] at h
        exact endsQuoted_of_quoted hrest (d :: cs) (by rw [length_cons]; omega)

/-! ## Comments -/

lemma block_append (h : endsBlock cs) (rest : List Char) : block (cs ++ rest) = cs.length := by
  fun_induction endsBlock cs with
  | case1 => cases h
  | case2 cs => simp_all [block]
  | case3 c cs hne ih =>
    rw [cons_append, block, ih h, length_cons, Nat.add_comm]
    rintro ds rfl heq
    cases cs with
    | nil => cases h
    | cons e es =>
      obtain ⟨rfl, -⟩ := cons.inj heq
      exact hne es rfl rfl

lemma endsBlock_of_block {rest : List Char} (hrest : rest ≠ []) (h : block (cs ++ rest) = cs.length) :
    endsBlock cs := by
  fun_induction endsBlock cs with
  | case1 =>
    obtain ⟨c, rest, rfl⟩ := exists_cons_of_ne_nil hrest
    rw [nil_append, length_nil] at h
    unfold block at h
    split at h <;> simp_all
  | case2 cs => simp_all [block]
  | case3 c cs hne ih =>
    rw [cons_append, length_cons] at h
    by_cases hclose : c = '*' ∧ (cs ++ rest).head? = some '/'
    · obtain ⟨rfl, hhead⟩ := hclose
      obtain ⟨ds, hds⟩ := head?_eq_some_iff.1 hhead
      rw [hds, block] at h
      cases cs with
      | nil => simp at h
      | cons e es =>
        obtain ⟨rfl, -⟩ := cons.inj hds
        exact absurd rfl (hne es rfl)
    · apply ih
      rw [block] at h
      · omega
      · rintro ds rfl heq
        exact hclose ⟨rfl, by rw [heq]; rfl⟩

def BreaksOff (cs : List Char) : Prop :=
  ∀ c ∈ cs.head?, isLineBreak c = true

lemma line_append_iff (cs rest : List Char) :
    line (cs ++ rest) = cs.length ↔ (∀ c ∈ cs, isLineBreak c = false) ∧ BreaksOff rest := by
  simpa [line, BreaksOff] using takeWhile_append_iff (!isLineBreak ·) cs rest

end DeviceForge.Lexeme

namespace DeviceForge.Token

variable {c quote d : Char} {rest cs w : List Char} {t : Token}

/-- The token is a comment up to the end of its line. -/
def isLineComment (t : Token) : Bool :=
  t.kind = .comment && t.text.toList.take 2 = ['/', '/']

/-- A literal has its closing quote, and a block comment its closing `*/`. -/
def isClosed (t : Token) : Bool :=
  match t.kind with
  | .str => Lexeme.endsQuoted '"' t.text.toList.tail
  | .char => Lexeme.endsQuoted '\'' t.text.toList.tail
  | .comment => t.isLineComment || Lexeme.endsBlock (t.text.toList.drop 2)
  | _ => true

lemma extent_literal {kind : Kind} {n : Nat} (h : extent c rest = (kind, n)) (hkind : kind.segment ≠ .code) :
    (∃ q, (kind = .str ∧ q = '"' ∨ kind = .char ∧ q = '\'') ∧ c = q ∧ n = Lexeme.quoted q rest) ∨
    kind = .comment ∧ c = '/' ∧ ((∃ cs, rest = '/' :: cs ∧ n = Lexeme.line rest) ∨
      ∃ cs, rest = '*' :: cs ∧ n = 1 + Lexeme.block cs) := by
  unfold extent at h
  split_ifs at h with hline hblock hstr hchar <;> obtain ⟨rfl, rfl⟩ := Prod.mk.inj h
  · obtain ⟨cs, rfl⟩ := List.head?_eq_some_iff.1 hline.2
    exact .inr ⟨rfl, hline.1, .inl ⟨cs, rfl, rfl⟩⟩
  · obtain ⟨cs, rfl⟩ := List.head?_eq_some_iff.1 hblock.2
    exact .inr ⟨rfl, hblock.1, .inr ⟨cs, rfl, rfl⟩⟩
  · exact .inl ⟨'"', .inl ⟨rfl, rfl⟩, hstr, rfl⟩
  · exact .inl ⟨'\'', .inr ⟨rfl, rfl⟩, hchar, rfl⟩
  all_goals exact absurd rfl hkind

def IsQuoted (t : Token) (quote : Char) : Prop :=
  t.kind = .str ∧ quote = '"' ∨ t.kind = .char ∧ quote = '\''

lemma IsQuoted.ne_backslash (h : IsQuoted t quote) : quote ≠ '\\' := by
  rcases h with ⟨-, rfl⟩ | ⟨-, rfl⟩ <;> decide

lemma IsQuoted.isClosed_iff (h : IsQuoted t quote) : t.isClosed = Lexeme.endsQuoted quote t.text.toList.tail := by
  rcases h with ⟨hk, rfl⟩ | ⟨hk, rfl⟩ <;> simp [isClosed, hk]

lemma IsQuoted.reads (h : IsQuoted t quote) (htext : t.text.toList = quote :: cs)
    (hlen : Lexeme.quoted quote (cs ++ rest) = cs.length) : Reads t rest := by
  refine ⟨quote, cs, htext, ?_, ?_⟩
  · rcases h with ⟨-, rfl⟩ | ⟨-, rfl⟩ <;> decide
  · rcases h with ⟨hk, rfl⟩ | ⟨hk, rfl⟩ <;> simp [extent, hk, hlen]

lemma reads_cases (h : Reads t rest) : t.kind.segment = .code ∨
    (∃ quote cs, IsQuoted t quote ∧ t.text.toList = quote :: cs ∧ Lexeme.quoted quote (cs ++ rest) = cs.length) ∨
    (∃ cs, t.kind = .comment ∧ t.text.toList = '/' :: '/' :: cs ∧ (∀ c ∈ cs, Lexeme.isLineBreak c = false) ∧
      Lexeme.BreaksOff rest) ∨
    ∃ cs, t.kind = .comment ∧ t.text.toList = '/' :: '*' :: cs ∧ Lexeme.block (cs ++ rest) = cs.length := by
  obtain ⟨c, cs, htext, -, hext⟩ := h
  by_cases hcode : t.kind.segment = .code
  · exact .inl hcode
  rcases extent_literal hext hcode with ⟨q, hq, rfl, hlen⟩ | ⟨hkind, rfl, ⟨ds, hds, hlen⟩ | ⟨ds, hds, hlen⟩⟩
  · exact .inr (.inl ⟨c, cs, hq, htext, hlen.symm⟩)
  · obtain ⟨hbreak, hrest⟩ := (Lexeme.line_append_iff cs rest).1 hlen.symm
    cases cs with
    | nil =>
      rw [List.nil_append] at hds
      exact absurd (hrest '/' (by rw [hds]; rfl)) (by decide)
    | cons d cs =>
      obtain ⟨rfl, -⟩ := List.cons.inj hds
      exact .inr (.inr (.inl ⟨cs, hkind, htext, fun c hc => hbreak c (List.mem_cons_of_mem _ hc), hrest⟩))
  · cases cs with
    | nil =>
      rw [List.length_nil] at hlen
      omega
    | cons d cs =>
      rw [List.cons_append] at hds
      obtain ⟨rfl, rfl⟩ := List.cons.inj hds
      rw [List.length_cons] at hlen
      exact .inr (.inr (.inr ⟨cs, hkind, htext, by omega⟩))

lemma reads_lineComment (hkind : t.kind = .comment) (htext : t.text.toList = '/' :: '/' :: cs)
    (hbreak : ∀ c ∈ cs, Lexeme.isLineBreak c = false) (hrest : Lexeme.BreaksOff rest) : Reads t rest := by
  refine ⟨'/', '/' :: cs, htext, by decide, ?_⟩
  have hline := (Lexeme.line_append_iff ('/' :: cs) rest).2 ⟨by simpa using ⟨by decide, hbreak⟩, hrest⟩
  rw [List.cons_append] at hline
  simp [extent, hkind, hline]

lemma reads_block (hkind : t.kind = .comment) (htext : t.text.toList = '/' :: '*' :: cs)
    (hlen : Lexeme.block (cs ++ rest) = cs.length) : Reads t rest :=
  ⟨'/', '*' :: cs, htext, by decide, by simp [extent, hkind, hlen, Nat.add_comm]⟩

lemma isLineComment_iff (hkind : t.kind = .comment) (htext : t.text.toList = c :: d :: cs) :
    t.isLineComment ↔ c = '/' ∧ d = '/' := by
  simp [isLineComment, hkind, htext]

lemma not_isLineComment (h : t.kind ≠ .comment) : t.isLineComment = false := by
  simp [isLineComment, h]

lemma reads_of_isClosed (h : Reads t rest) (hclosed : t.isClosed) (hcode : t.kind.segment ≠ .code)
    (hline : t.isLineComment = false) (rest' : List Char) : Reads t rest' := by
  rcases reads_cases h with h | ⟨quote, cs, hq, htext, -⟩ | ⟨cs, hkind, htext, -⟩ | ⟨cs, hkind, htext, -⟩
  · exact absurd h hcode
  · rw [hq.isClosed_iff, htext] at hclosed
    exact hq.reads htext (Lexeme.quoted_append hq.ne_backslash rest' cs hclosed)
  · simp [(isLineComment_iff hkind htext).2 ⟨rfl, rfl⟩] at hline
  · simp only [isClosed, hkind, hline, Bool.false_or, htext, List.drop_succ_cons, List.drop_zero] at hclosed
    exact reads_block hkind htext (Lexeme.block_append hclosed rest')

lemma isClosed_of_reads (h : Reads t rest) (hrest : rest ≠ []) : t.isClosed := by
  rcases reads_cases h with h | ⟨quote, cs, hq, htext, hlen⟩ | ⟨cs, hkind, htext, -⟩ | ⟨cs, hkind, htext, hlen⟩
  · cases hk : t.kind <;> simp_all [isClosed, Kind.segment]
  · rw [hq.isClosed_iff, htext]
    exact Lexeme.endsQuoted_of_quoted hrest cs hlen
  · simp [isClosed, hkind, (isLineComment_iff hkind htext).2 ⟨rfl, rfl⟩]
  · simp [isClosed, hkind, htext, Lexeme.endsBlock_of_block hrest hlen]

lemma reads_line (h : Reads t rest) (hline : t.isLineComment) :
    ∃ cs, t.kind = .comment ∧ t.text.toList = '/' :: '/' :: cs ∧ (∀ c ∈ cs, Lexeme.isLineBreak c = false) ∧
      Lexeme.BreaksOff rest := by
  rcases reads_cases h with h | ⟨quote, cs, hq, -⟩ | hcs | ⟨cs, hkind, htext, -⟩
  · cases hk : t.kind <;> simp_all [isLineComment, Kind.segment]
  · rcases hq with ⟨hk, -⟩ | ⟨hk, -⟩ <;> simp [isLineComment, hk] at hline
  · exact hcs
  · exact absurd ((isLineComment_iff hkind htext).1 hline).2 (by decide)

lemma reads_swap (h : Reads t (cs ++ rest)) (hne : cs ≠ []) {more : List Char}
    (hpoint : cs = ['.'] → more.head? ≠ some '.') : Reads t (cs ++ more) := by
  have hhead : (cs ++ more).head? = (cs ++ rest).head? := by
    rw [List.head?_append_of_ne_nil _ hne, List.head?_append_of_ne_nil _ hne]
  by_cases hcode : t.kind.segment = .code
  · refine reads_of_follows h hcode (.inr ⟨hhead, fun htake => ?_⟩)
    obtain ⟨c, cs, rfl⟩ := List.exists_cons_of_ne_nil hne
    cases cs with
    | nil =>
      cases more with
      | nil => simp at htake
      | cons d more =>
        obtain ⟨rfl, rfl⟩ : c = '.' ∧ d = '.' := by simpa using htake
        exact absurd rfl (hpoint rfl)
    | cons d cs => exact htake
  by_cases hline : t.isLineComment
  · obtain ⟨ds, hkind, htext, hbreak, hrest⟩ := reads_line h hline
    exact reads_lineComment hkind htext hbreak fun c hc => hrest c (hhead ▸ hc)
  · exact reads_of_isClosed h (isClosed_of_reads h (by simp [hne])) hcode (by simpa using hline) _

lemma scan_append_blank {ts : List Token} {tail : String} (h : scan cs = (ts, tail)) (hne : tail ≠ "")
    (more : List Char) :
    scan (cs ++ more) = (ts ++ (scan (tail.toList ++ more)).1, (scan (tail.toList ++ more)).2) := by
  have hlegible := legible_of_scan h
  obtain ⟨us, tail', hmore⟩ : ∃ us tail', scan (tail.toList ++ more) = (us, tail') := ⟨_, _, rfl⟩
  have hchars := chars_scan hmore
  have hne' : tail.toList ≠ [] := fun h => hne (String.toList_injective h)
  have hblank := scan_tail h
  have hall : Legible (ts ++ us) tail'.toList := by
    clear h
    induction ts with
    | nil => exact legible_of_scan hmore
    | cons t ts ih =>
      obtain ⟨hlead, hreads, hlegible⟩ := hlegible
      refine ⟨hlead, ?_, ih hlegible⟩
      have hpoint : chars ts ++ tail.toList = ['.'] → more.head? ≠ some '.' := fun h => by
        rcases List.append_eq_singleton_iff.1 h with ⟨-, h⟩ | ⟨-, h⟩
        · exact absurd (hblank '.' (by simp [h])) (by decide)
        · exact absurd h hne'
      have hreads : Reads t (chars ts ++ tail.toList ++ []) := by rwa [List.append_nil]
      have := reads_swap hreads (by simp [hne']) hpoint
      rwa [List.append_assoc, hchars, ← List.append_assoc, ← chars_append] at this
  have hscan := scan_of_legible hall
  rw [chars_append, List.append_assoc, ← hchars, ← List.append_assoc, ← chars_scan h, String.ofList_toList] at hscan
  rw [hscan, hmore]

end DeviceForge.Token

/-! # Labels of characters -/

namespace DeviceForge.Segment

open List

section Labels
variable {α : Type} (label : Segment → α)

def labelled (cs : List Char) : List (Char × α) :=
  (ofChars cs).flatMap fun s => s.text.map (·, label s)

def labelledToken (code : α) (t : Token) : List (Char × α) :=
  t.lead.toList.map (·, code) ++ t.text.toList.map (·, label ⟨t.kind.segment, t.text.toList⟩)

variable {label} {code : α} (hcode : ∀ text, label ⟨.code, text⟩ = code)

include hcode

lemma labelled_code {c : Char} {cs : List Char} (h : (extent c cs).1 = .code) :
    labelled label (c :: cs) = (c, code) :: labelled label cs := by
  rw [labelled, ofChars_code h, labelled]
  generalize ofChars cs = segments
  unfold prepend
  split
  · simp [hcode]
  · simp [hcode]

lemma labelled_plain {ds : List Char} (h : ∀ d ∈ ds, isPlain d) (cs : List Char) :
    labelled label (ds ++ cs) = ds.map (·, code) ++ labelled label cs := by
  induction ds with
  | nil => rfl
  | cons d ds ih =>
    rw [cons_append, labelled_code hcode (extent_plain (h d mem_cons_self) _),
      ih fun d hd => h d (mem_cons_of_mem _ hd), map_cons, cons_append]

lemma labelled_scan {cs : List Char} {ts : List Token} {tail : String} (h : Token.scan cs = (ts, tail)) :
    labelled label cs = ts.flatMap (labelledToken label code) ++ tail.toList.map (·, code) := by
  induction ts generalizing cs with
  | nil =>
    obtain ⟨htail, hblank⟩ := Token.scan_nil h
    have hplain := labelled_plain hcode (fun d hd => plain_of_blank (hblank d hd)) []
    rw [append_nil] at hplain
    rw [hplain, htail]
    simp [labelled, ofChars]
  | cons t ts ih =>
    obtain ⟨c, rest, n, hext, rfl, htext, hlead, -, hscan⟩ := Token.scan_cons h
    have hrest : rest = rest.take n ++ rest.drop n := (take_append_drop n rest).symm
    rw [labelled_plain hcode fun d hd => plain_of_blank (hlead d hd), flatMap_cons, labelledToken, append_assoc,
      append_assoc, ← ih hscan, append_cancel_left_eq]
    rcases Token.extent_cases hext with ⟨-, hseg⟩ | ⟨hkind, hstart, hinner⟩
    · rw [labelled, ofChars_cons, hseg, flatMap_cons, htext]
      rfl
    · rw [labelled_code hcode hstart, hkind, hcode, htext, map_cons, cons_append]
      conv_lhs => rw [hrest]
      rw [labelled_plain hcode fun d hd => plain_of_inner (hinner d hd)]

end Labels

lemma marked_scan {cs : List Char} {ts : List Token} {tail : String} (h : Token.scan cs = (ts, tail)) :
    marked cs = ts.flatMap (labelledToken kind .code) ++ tail.toList.map (·, .code) :=
  labelled_scan (fun _ => rfl) h

end DeviceForge.Segment

/-!
# Where tokens end

A token of code ends before every character that no token goes on with (`reads_stop`), and an operator before
every letter (`reads_letter`).
-/

namespace DeviceForge

open List Text Lexeme

namespace Lexeme

def endsOperator (d : Char) : Bool :=
  (longOperators ++ shortOperators).all fun op => !op.tail.contains d

lemma not_mem_tail {d : Char} (hd : endsOperator d) {op : List Char} (hop : op ∈ longOperators ∨ op ∈ shortOperators) :
    d ∉ op.tail := by
  have := all_eq_true.1 hd op (mem_append.2 hop)
  simpa using this

lemma operator_stop {d : Char} (hd : endsOperator d) {cs : List Char} (hne : cs ≠ []) (rest : List Char) :
    operator (cs ++ d :: rest) = operator cs := by
  have hlen3 : ∀ op ∈ longOperators, op.length = 3 := by decide
  have hlen2 : ∀ op ∈ shortOperators, op.length = 2 := by decide
  have hlong {op : List Char} (h : d ∈ op.tail) : op ∉ longOperators := fun hop => not_mem_tail hd (.inl hop) h
  have hshort {op : List Char} (h : d ∈ op.tail) : op ∉ shortOperators := fun hop => not_mem_tail hd (.inr hop) h
  match cs with
  | [a] =>
    have h3 : [a] ∉ longOperators := fun hop => absurd (hlen3 _ hop) (by simp)
    have h2 : [a] ∉ shortOperators := fun hop => absurd (hlen2 _ hop) (by simp)
    have hlong' : a :: d :: rest.take 1 ∉ longOperators := hlong (by simp)
    have hshort' : [a, d] ∉ shortOperators := hshort (by simp)
    rw [operator_eq, operator_eq]
    simp [hlong', hshort', h3, h2]
  | [a, b] =>
    have h3 : [a, b] ∉ longOperators := fun hop => absurd (hlen3 _ hop) (by simp)
    have hlong' : [a, b, d] ∉ longOperators := hlong (by simp)
    rw [operator_eq, operator_eq, if_neg (show ¬([a, b] ++ d :: rest).take 3 ∈ longOperators from hlong'),
      if_neg (show ¬[a, b].take 3 ∈ longOperators from h3)]
    rfl
  | a :: b :: c :: cs => rw [operator_eq, operator_eq]; rfl

lemma number_stop {d : Char} (hd : isNumberChar d = false) (hsign : d ≠ '+' ∧ d ≠ '-') (hexadecimal : Bool) (rest : List Char) :
    (cs : List Char) → number hexadecimal (cs ++ d :: rest) = number hexadecimal cs
  | [] => by
    rw [nil_append, number_nil, number_eq_zero_iff]
    simpa using hd
  | [c] => by
    have hzero : number hexadecimal (d :: rest) = 0 := by
      rw [number_eq_zero_iff]
      simpa using hd
    rw [singleton_append, number_cons_cons, number_singleton, hzero]
    simp [hsign]
  | c :: e :: cs => by
    have hrest := number_stop hd hsign hexadecimal rest cs
    have hmore := number_stop hd hsign hexadecimal rest (e :: cs)
    rw [cons_append] at hmore
    rw [cons_append, cons_append, number_cons_cons, number_cons_cons, hrest, hmore]

lemma not_numberChar_of_number {hexadecimal : Bool} {ys : List Char} (cs : List Char) (h : number hexadecimal (cs ++ ys) = cs.length) :
    ∀ c ∈ ys.head?, isNumberChar c = false := by
  match cs with
  | [] => exact (number_eq_zero_iff hexadecimal ys).1 h
  | [c] =>
    rw [singleton_append, length_singleton, number_eq_one_iff] at h
    intro d hd
    exact (Bool.or_eq_false_iff.1 (h.2 d hd)).1
  | c :: d :: cs =>
    simp only [cons_append, number_cons_cons, length_cons] at h
    split at h
    · split at h
      · have hlen : number hexadecimal (cs ++ ys) = cs.length := by omega
        exact not_numberChar_of_number cs hlen
      · have hlen : number hexadecimal (d :: cs ++ ys) = (d :: cs).length := by
          rw [cons_append, length_cons]
          omega
        exact not_numberChar_of_number (d :: cs) hlen
    · omega

end Lexeme

namespace Token

variable {d c : Char} {t : Token} {cs ys rest more tail : List Char} {ts us : List Token}

def isStop (d : Char) : Bool :=
  Lexeme.endsOperator d && !Lexeme.isNumberChar d && !(d ∈ ['+', '-', '/', '*'])

lemma not_wordChar_of_stop (h : isStop d) : isWordChar d = false := by
  simp only [isStop, isNumberChar, Bool.and_eq_true, Bool.not_eq_true', Bool.or_eq_false_iff] at h
  exact h.1.2.1

def isLexeme (kind : Kind) (text : String) : Bool :=
  match text.toList with
  | [] => false
  | c :: cs => !Text.isBlank c && extent c cs = (kind, cs.length)

lemma reads_of_isLexeme (h : isLexeme t.kind t.text) : Reads t [] := by
  unfold isLexeme at h
  split at h
  · cases h
  rename_i c cs hcs
  simp only [Bool.and_eq_true, Bool.not_eq_true', decide_eq_true_eq] at h
  exact ⟨c, cs, hcs, h.1, by rw [append_nil]; exact h.2⟩

lemma reads_before (h : Reads t ys) (hcode : t.kind.segment = .code) (hslash : d ≠ '/' ∧ d ≠ '*')
    (hnumber : t.kind = .number → isNumberChar d = false ∧ d ≠ '+' ∧ d ≠ '-') (hword : t.kind = .identifier → isWordChar d = false)
    (hpunct : t.kind = .punct → d.isDigit = false ∧ operator (t.text.toList ++ d :: rest) = operator t.text.toList) :
    Reads t (d :: rest) := by
  obtain ⟨c, cs, htext, hblank, hext⟩ := reads_of_follows h hcode (.inl apart_nil)
  rw [append_nil] at hext
  refine ⟨c, cs, htext, hblank, ?_⟩
  rw [htext] at hpunct
  -- a look at the next character sees no more than at the end of the text
  have hhead {x : Char} (hx : d ≠ x) (h : (cs ++ d :: rest).head? = some x) : cs.head? = some x := by
    cases cs with
    | nil => exact absurd (by simpa using h) hx
    | cons e cs => exact h
  obtain ⟨hplain, hext⟩ := (extent_iff hcode).1 hext
  refine (extent_iff hcode).2 ⟨plain_of_head hplain (hhead hslash.1) (hhead hslash.2), ?_⟩
  cases hkind : t.kind with
  | number =>
    rw [hkind] at hext
    obtain ⟨hd, hsign⟩ := hnumber hkind
    have hstart : startsNumber c (cs ++ d :: rest) ∧ isHexadecimal c (cs ++ d :: rest) = isHexadecimal c cs := by
      cases cs with
      | cons e cs => exact ⟨hext.1, rfl⟩
      | nil =>
        have hx : d ≠ 'x' ∧ d ≠ 'X' := by constructor <;> rintro rfl <;> revert hd <;> decide
        exact ⟨by simpa [startsNumber] using .inl (by simpa [startsNumber] using hext.1), by simp [isHexadecimal, hx]⟩
    refine ⟨hstart.1, ?_⟩
    rw [hstart.2]
    exact (number_stop hd hsign _ rest (c :: cs)).trans hext.2
  | identifier =>
    rw [hkind] at hext
    have hcs := (word_append_iff cs []).1 (by rw [append_nil]; exact hext.2)
    exact ⟨hext.1, (word_append_iff cs _).2 ⟨hcs.1, by simpa using hword hkind⟩⟩
  | punct =>
    rw [hkind] at hext
    obtain ⟨hd, hop⟩ := hpunct hkind
    refine ⟨?_, hext.2.1, hop.trans hext.2.2⟩
    have hstart := hext.1
    cases cs with
    | nil => simpa [startsNumber, hd] using hstart
    | cons e cs => exact hstart
  | str | char | comment => cases hkind ▸ hcode

lemma reads_stop (h : Reads t ys) (hcode : t.kind.segment = .code) (hd : isStop d)
    (rest : List Char) : Reads t (d :: rest) := by
  have hword := not_wordChar_of_stop hd
  simp only [isStop, Bool.and_eq_true, Bool.not_eq_true', mem_cons, not_mem_nil, or_false, decide_eq_false_iff_not,
    not_or] at hd
  obtain ⟨⟨hop, hnumber⟩, hplus, hminus, hslash⟩ := hd
  refine reads_before h hcode hslash (fun _ => ⟨hnumber, hplus, hminus⟩) (fun _ => hword) fun _ => ⟨?_, ?_⟩
  · simp only [isWordChar, Char.isAlphanum, Bool.or_eq_false_iff] at hword
    exact hword.1.2
  · obtain ⟨c, cs, htext, -⟩ := h
    rw [htext]
    exact operator_stop hop (cons_ne_nil c cs) rest

lemma reads_stop_of_isClosed (h : Reads t ys) (hclosed : t.isClosed)
    (hline : t.isLineComment = false) (hd : isStop d) (rest : List Char) : Reads t (d :: rest) := by
  by_cases hcode : t.kind.segment = .code
  · exact reads_stop h hcode hd rest
  · exact reads_of_isClosed h hclosed hcode hline _

lemma reads_letter (h : Reads t ys) (hkind : t.kind = .punct) (hd : (d.isAlpha || d = '_'))
    (rest : List Char) : Reads t (d :: rest) := by
  have hstop : endsOperator d := by
    refine all_eq_true.2 fun op hop => ?_
    have hall : (longOperators ++ shortOperators).all (·.all fun x => !(x.isAlpha || x = '_')) = true := by decide
    have hop := all_eq_true.1 (all_eq_true.1 hall op hop)
    simp only [Bool.not_eq_true', contains_eq_mem, decide_eq_false_iff_not] at hop ⊢
    intro hmem
    simp [hop d (mem_of_mem_tail hmem)] at hd
  have hne {x : Char} (hx : (x.isAlpha || x = '_') = false) : d ≠ x := by
    rintro rfl
    simp [hx] at hd
  refine reads_before h (by rw [hkind]; rfl) ⟨hne (by decide), hne (by decide)⟩ (fun h => ?_) (fun h => ?_)
    fun _ => ⟨letter_not_digit hd, ?_⟩
  · cases hkind.symm.trans h
  · cases hkind.symm.trans h
  · obtain ⟨c, cs, htext, -⟩ := h
    rw [htext]
    exact operator_stop hstop (cons_ne_nil c cs) rest

lemma exists_letter {w : String} (h : isIdentifierText w) : ∃ c cs, w.toList = c :: cs ∧ (c.isAlpha || c = '_') := by
  unfold isIdentifierText at h
  split at h
  · cases h
  · rename_i c cs hcs
    exact ⟨c, cs, hcs, (Bool.and_eq_true _ _ ▸ h).1⟩

lemma extent_letter (hc : (c.isAlpha || c = '_')) (rest : List Char) : extent c rest = (.identifier, word rest) := by
  refine (extent_iff rfl).2 ⟨Segment.extent_plain ?_ rest, hc, rfl⟩
  have hne {x : Char} (hx : (x.isAlpha || x = '_') = false) : c ≠ x := by
    rintro rfl
    simp [hx] at hc
  simp [Segment.isPlain, hne (x := '"') (by decide), hne (x := '\'') (by decide), hne (x := '/') (by decide)]

lemma reads_identifier (hkind : t.kind = .identifier) (htext : isIdentifierText t.text)
    (hrest : ∀ c ∈ rest.head?, isWordChar c = false) : Reads t rest := by
  unfold isIdentifierText at htext
  split at htext
  · cases htext
  rename_i c cs hcs
  simp only [Bool.and_eq_true, all_eq_true] at htext
  obtain ⟨hc, hword⟩ := htext
  refine ⟨c, cs, hcs, ?_, ?_⟩
  · by_contra hblank
    rw [Bool.not_eq_false] at hblank
    simp only [isBlank, Bool.or_eq_true, decide_eq_true_eq] at hblank
    rcases hblank with (((rfl | rfl) | rfl) | rfl) | rfl <;> cases hc
  · rw [extent_letter hc, hkind, (word_append_iff cs rest).2 ⟨hword, hrest⟩]

lemma isIdentifier_of_reads (h : Reads t rest) (htext : isIdentifierText t.text) : t.isIdentifier := by
  obtain ⟨d, ds, hds, hd⟩ := exists_letter htext
  obtain ⟨c, cs, hcs, -, hext⟩ := h
  obtain rfl : c = d := (cons.inj (hcs.symm.trans hds)).1
  rw [extent_letter hd] at hext
  simp [isIdentifier, ← (Prod.mk.inj hext).1]

lemma isIdentifierText_of_reads (h : Reads t rest) (hkind : t.kind = .identifier) : isIdentifierText t.text := by
  obtain ⟨c, cs, htext, -, hext⟩ := h
  rw [hkind] at hext
  obtain ⟨-, hletter, hlen⟩ := (extent_iff rfl).1 hext
  have hword : cs.all isWordChar := all_eq_true.2 ((word_append_iff cs rest).1 hlen).1
  simp only [isIdentifierText, htext, hword, Bool.and_true]
  exact hletter

lemma not_wordChar_behind (h : Reads t ys) (hkind : t.kind = .identifier ∨ t.kind = .number) :
    ∀ c ∈ ys.head?, isWordChar c = false := by
  obtain ⟨c, cs, htext, hblank, hext⟩ := h
  rcases hkind with hkind | hkind <;> rw [hkind] at hext
  · exact ((word_append_iff cs ys).1 ((extent_iff rfl).1 hext).2.2).2
  · intro d hd
    exact (Bool.or_eq_false_iff.1 (not_numberChar_of_number (c :: cs) ((extent_iff rfl).1 hext).2.2 d hd)).1

def Opens : List Token → List Char → Prop
  | [], _ => True
  | t :: ts, rest => Blank t.lead.toList ∧ Reads t (chars ts ++ rest) ∧ Opens ts rest

lemma legible_append (h : Opens ts (chars us ++ tail)) (hus : Legible us tail) : Legible (ts ++ us) tail := by
  induction ts with
  | nil => exact hus
  | cons t ts ih =>
    obtain ⟨hlead, hreads, hts⟩ := h
    refine ⟨hlead, ?_, ih hts⟩
    change Reads t (chars (ts ++ us) ++ tail)
    rwa [chars_append, append_assoc]

lemma scan_opens (h : Opens ts rest) : scan (chars ts ++ rest) = (ts ++ (scan rest).1, (scan rest).2) := by
  obtain ⟨us, tail, hrest⟩ : ∃ us tail, scan rest = (us, tail) := ⟨_, _, rfl⟩
  have hchars := chars_scan hrest
  have hscan := scan_of_legible (legible_append (by rwa [← hchars]) (legible_of_scan hrest))
  rw [chars_append, append_assoc, ← hchars, String.ofList_toList] at hscan
  rw [hscan, hrest]

lemma opens_append (h : Legible ts tail) (hpoint : more.head? ≠ some '.')
    (hlast : ∀ t ∈ ts.getLast?, tail = [] → Reads t more) : Opens ts (tail ++ more) := by
  induction ts with
  | nil => trivial
  | cons t ts ih =>
    obtain ⟨hlead, hreads, hts⟩ := h
    refine ⟨hlead, ?_, ih hts fun u hu => hlast u ?_⟩
    · by_cases hne : chars ts ++ tail = []
      · obtain ⟨hchars, htail⟩ := append_eq_nil_iff.1 hne
        have hnil : ts = [] := by
          cases ts with
          | nil => rfl
          | cons u ts =>
            obtain ⟨c, cs, htext, -⟩ := hts.2.1
            simp [htext] at hchars
        rw [hchars, htail]
        exact hlast t (by simp [hnil]) htail
      · rw [← append_assoc]
        have hreads : Reads t (chars ts ++ tail ++ []) := by rwa [append_nil]
        exact reads_swap hreads hne fun _ => hpoint
    · rw [getLast?_cons, show ts.getLast? = some u from hu]
      rfl

end Token

end DeviceForge
