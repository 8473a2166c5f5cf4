import DeviceForge.Proofs.Token.Between
import DeviceForge.Directive
/-!
# Finding directives and taking blocks out

`found` is the scan for directives on characters that carry their kinds, so that a text can be scanned
piece by piece.
-/

namespace DeviceForge.Directive

open Text List String

/-! ## Reading a head -/

def Tabs (cs : List Char) : Prop :=
  ∀ c ∈ cs, isTab c = true

lemma blank_of_tab {c : Char} (h : isTab c) : isBlank c := by
  simp only [isTab, Bool.or_eq_true, decide_eq_true_eq] at h
  rcases h with rfl | rfl <;> decide

lemma takeWhile_append_stop {p : Char → Bool} {as bs : List Char} (has : ∀ c ∈ as, p c)
    (hbs : ∀ c ∈ bs.head?, p c = false) : (as ++ bs).takeWhile p = as := by
  rw [takeWhile_append_of_pos has]
  cases bs with
  | nil => simp
  | cons b bs => rw [takeWhile_cons_of_neg (by simp [hbs b rfl]), append_nil]

def readWord (headLength : Nat) (word : String) (rest : List Char) : Kind × Nat :=
  let gap := (rest.takeWhile isBlank).length
  let symbol := (rest.drop gap).takeWhile isWordChar
  match word with
  | "ifdef" => (.ifDefined (ofList symbol), headLength + gap + symbol.length)
  | "ifndef" => (.ifUndefined (ofList symbol), headLength + gap + symbol.length)
  | "if" => (.ifHolds, headLength + Lexeme.line rest)
  | "elif" => (.elseIf, headLength + Lexeme.line rest)
  | "else" => (.otherwise, headLength)
  | "endif" => (.endIf, headLength)
  | "define" => (.define, headLength + definition false rest)
  | "include" => (.inclusion, headLength + Lexeme.line rest)
  | _ => (.other, headLength + Lexeme.line rest)

lemma not_tab_of_alphanum {c : Char} (h : c.isAlphanum) : isTab c = false := by
  by_contra htab
  simp only [isTab, Bool.not_eq_false, Bool.or_eq_true, decide_eq_true_eq] at htab
  rcases htab with rfl | rfl <;> cases h

lemma read_word (word : String) {pad rest : List Char} (hpad : Tabs pad) (hstop : ∀ c ∈ (word.toList ++ rest).head?, isTab c = false)
    (hword : ∀ c ∈ word.toList, c.isAlphanum) (hrest : ∀ c ∈ rest.head?, c.isAlphanum = false) :
    read (pad ++ (word.toList ++ rest)) = readWord (pad.length + word.toList.length) word rest := by
  have hpad' : (pad ++ (word.toList ++ rest)).takeWhile isTab = pad := takeWhile_append_stop hpad hstop
  have hword' : (word.toList ++ rest).takeWhile Char.isAlphanum = word.toList := takeWhile_append_stop hword hrest
  have hdrop : (pad ++ (word.toList ++ rest)).drop (pad.length + word.toList.length) = rest := by
    rw [← List.append_assoc, ← List.length_append, drop_left]
  simp only [read, hpad', drop_left, hword', hdrop, ofList_toList]
  rfl

lemma head?_dropWhile {p : Char → Bool} {cs : List Char} : ∀ c ∈ (cs.dropWhile p).head?, p c = false := by
  intro c hc
  have := head?_dropWhile_not p cs
  rw [show (cs.dropWhile p).head? = some c from hc] at this
  simpa using this

lemma exists_read (cs : List Char) :
    ∃ (pad : List Char) (word : String) (rest : List Char), cs = pad ++ (word.toList ++ rest) ∧ Tabs pad ∧
      (∀ c ∈ (word.toList ++ rest).head?, isTab c = false) ∧ (∀ c ∈ word.toList, c.isAlphanum) ∧
      (∀ c ∈ rest.head?, c.isAlphanum = false) ∧ read cs = readWord (pad.length + word.toList.length) word rest := by
  let tail := cs.dropWhile isTab
  have hcs : cs = cs.takeWhile isTab ++ ((ofList (tail.takeWhile Char.isAlphanum)).toList ++ tail.dropWhile Char.isAlphanum) := by
    rw [toList_ofList, List.takeWhile_append_dropWhile, List.takeWhile_append_dropWhile]
  have hpad : Tabs (cs.takeWhile isTab) := fun c hc => mem_takeWhile_imp hc
  have hstop : ∀ c ∈ ((ofList (tail.takeWhile Char.isAlphanum)).toList ++ tail.dropWhile Char.isAlphanum).head?, isTab c = false := by
    rw [toList_ofList, List.takeWhile_append_dropWhile]
    exact head?_dropWhile
  have hword : ∀ c ∈ (ofList (tail.takeWhile Char.isAlphanum)).toList, c.isAlphanum := by
    rw [toList_ofList]
    exact fun c hc => mem_takeWhile_imp hc
  have hread := read_word _ hpad hstop hword head?_dropWhile
  rw [← hcs] at hread
  exact ⟨_, _, _, hcs, hpad, hstop, hword, head?_dropWhile, hread⟩

def found (pos skip : Nat) (ms : List (Char × Segment.Kind)) : List Directive :=
  scan pos skip (ms.map (·.1)) (ms.map (·.2))

lemma ofChars_eq (cs : List Char) : ofChars cs = found 0 0 (Segment.marked cs) := by
  rw [ofChars, found, Segment.map_fst_marked, Segment.kinds]

section Steps
variable (pos skip : Nat) (c : Char) (ms : List (Char × Segment.Kind))

lemma found_nil : found pos skip [] = [] := by
  rw [found, map_nil, map_nil, scan]
  simp

lemma found_literal {kind : Segment.Kind} (h : kind ≠ .code) :
    found pos skip ((c, kind) :: ms) = found (pos + c.utf8Size) 0 ms := by
  simp [found, scan, h]

lemma found_skip : found pos (skip + 1) ((c, .code) :: ms) = found (pos + c.utf8Size) skip ms := by
  rw [found, map_cons, map_cons, scan, if_neg (by simp), found]

lemma found_other (h : c ≠ '#' ∨ (ms.map (·.1)).head? = some '#') :
    found pos 0 ((c, .code) :: ms) = found (pos + c.utf8Size) 0 ms := by
  rw [found, map_cons, map_cons, scan, if_neg (by simp), if_neg, found]
  rintro ⟨h1, h2⟩
  exact h.elim (· h1) h2

lemma found_mark (h : (ms.map (·.1)).head? ≠ some '#') : found pos 0 (('#', .code) :: ms) =
      ⟨(read (ms.map (·.1))).1, pos, pos + 1 + byteLength ((ms.map (·.1)).take (read (ms.map (·.1))).2)⟩ ::
        found (pos + 1) (read (ms.map (·.1))).2 ms := by
  rw [found, map_cons, map_cons, scan, if_neg (by simp), if_pos ⟨rfl, h⟩]
  rfl

end Steps

lemma found_unmarked {as : List (Char × Segment.Kind)} (h : ∀ p ∈ as, p.2 = .code → p.1 ≠ '#') (pos : Nat) {skip : Nat}
    (hskip : skip ≤ as.length) (ms : List (Char × Segment.Kind)) :
    found pos skip (as ++ ms) = found (pos + byteLength (as.map (·.1))) 0 ms := by
  induction as generalizing pos skip with
  | nil => rw [Nat.le_zero.1 hskip]; rfl
  | cons p as ih =>
    obtain ⟨c, kind⟩ := p
    obtain ⟨hc, has⟩ := forall_mem_cons.1 h
    rw [cons_append, map_cons, byteLength_cons, ← Nat.add_assoc]
    by_cases hcode : kind = .code
    · subst hcode
      cases skip with
      | zero => rw [found_other pos c _ (.inl (hc rfl)), ih has _ (Nat.zero_le _)]
      | succ skip => rw [found_skip, ih has _ (Nat.le_of_succ_le_succ hskip)]
    · rw [found_literal pos skip c _ hcode, ih has _ (Nat.zero_le _)]

structure Stands (d : Directive) (pre head : List Char) : Prop where
  start_eq : d.start = byteLength pre
  stop_eq : d.stop = byteLength (pre ++ head)

section Blocks
variable {b : OpenBlock} {close : Directive} {pre opening first middle second closing post : List Char}

lemma Stands.slice_eq {d : Directive} (hopening : Stands d pre opening) (hclosing : Stands close (pre ++ opening ++ first) closing)
    (post : List Char) : slice d.stop close.start (pre ++ (opening ++ (first ++ post))) = first := by
  rw [hopening.stop_eq, hclosing.start_eq, byteLength_append (pre ++ opening), ← List.append_assoc, ← List.append_assoc]
  exact slice_append _ _ _

lemma resolve_block (hnone : b.otherwise = none) (hopening : Stands b.head pre opening)
    (hclosing : Stands close (pre ++ opening ++ first) closing) (taken : Bool) :
    b.resolve (pre ++ opening ++ first ++ closing ++ post) close taken = pre ++ (if taken then first else []) ++ post := by
  have hpost := hclosing.stop_eq ▸ after_append (pre ++ opening ++ first ++ closing) post
  simp only [List.append_assoc] at hpost
  cases taken <;>
    simp [OpenBlock.resolve, hnone, hopening.start_eq, slice_zero, hpost, hopening.slice_eq hclosing]

lemma resolve_choice {d : Directive} (hsome : b.otherwise = some d) (hopening : Stands b.head pre opening)
    (hmiddle : Stands d (pre ++ opening ++ first) middle)
    (hclosing : Stands close (pre ++ opening ++ first ++ middle ++ second) closing) (taken : Bool) :
    b.resolve (pre ++ opening ++ first ++ middle ++ second ++ closing ++ post) close taken =
      pre ++ (if taken then first else second) ++ post := by
  have hpost := hclosing.stop_eq ▸ after_append (pre ++ opening ++ first ++ middle ++ second ++ closing) post
  have hsecond := hmiddle.slice_eq hclosing (closing ++ post)
  simp only [List.append_assoc] at hpost hsecond
  cases taken <;>
    simp [OpenBlock.resolve, hsome, hopening.start_eq, slice_zero, hpost, hopening.slice_eq hmiddle, hsecond]

end Blocks

end DeviceForge.Directive

/-! # Documents with conditional blocks -/

namespace DeviceForge.Directive

open Segment Text List Lexeme

/-- Lines of text without directives, in which literals and comments are closed. -/
structure Chunk where
  chars : List Char
  closed : ∀ t ∈ (Token.scan chars).1, t.isClosed = true
  unmarked : ∀ p ∈ marked chars, p.2 = .code → p.1 ≠ '#'
  ended : chars.getLast? = some '\n'

inductive Head where
  /-- Opens a block if the symbol is defined or, negated, if it is not. -/
  | symbol (negated : Bool) (gap name : List Char)
  /-- Opens a block that tests an expression or, as a further one, a branch of it. -/
  | condition (further : Bool)
  | otherwise
  | endIf

namespace Head

def word : Head → String
  | symbol false _ _ => "ifdef"
  | symbol true _ _ => "ifndef"
  | condition false => "if"
  | condition true => "elif"
  | otherwise => "else"
  | endIf => "endif"

/-- What belongs to the head behind its word: the symbol that it tests. -/
def operand : Head → List Char
  | symbol _ gap name => gap ++ name
  | condition _ | otherwise | endIf => []

def chars (head : Head) : List Char :=
  head.word.toList ++ head.operand

def WellFormed : Head → Prop
  | symbol _ gap name => Tabs gap ∧ gap ≠ [] ∧ name ≠ [] ∧ ∀ c ∈ name, isWordChar c = true
  | _ => True

def kind : Head → Kind
  | symbol false _ name => .ifDefined (String.ofList name)
  | symbol true _ name => .ifUndefined (String.ofList name)
  | condition false => .ifHolds
  | condition true => .elseIf
  | otherwise => .otherwise
  | endIf => .endIf

def expression : Head → List Char → List Char
  | condition _, rest => rest.takeWhile (!Lexeme.isLineBreak ·)
  | symbol _ _ _, _ | otherwise, _ | endIf, _ => []

def isBranch : Head → Bool
  | condition further => further
  | otherwise => true
  | symbol _ _ _ | endIf => false

lemma word_alphanum (head : Head) : ∀ c ∈ head.word.toList, c.isAlphanum := by
  have hall : head.word.toList.all Char.isAlphanum := by
    unfold word
    split <;> decide
  exact all_eq_true.1 hall

lemma word_ne_nil (head : Head) : head.word.toList ≠ [] := by
  unfold word
  split <;> decide

lemma chars_ne_nil (head : Head) : head.chars ≠ [] :=
  append_ne_nil_of_left_ne_nil head.word_ne_nil _

end Head

/-- A directive on a line of its own, between spaces and tabs before its mark and the rest of its line. -/
structure Line (head : Head) where
  indent : List Char
  pad : List Char
  rest : Chunk
  wellFormed : head.WellFormed
  tabs_indent : Tabs indent
  tabs_pad : Tabs pad
  apart : ∀ c ∈ rest.chars.head?, isWordChar c = false

def Line.chars {head : Head} (l : Line head) : List Char :=
  l.indent ++ '#' :: (l.pad ++ head.chars ++ l.rest.chars)

/-- A sequence of chunks and blocks. In a document with branches, the lines that start the branches of the
block around it stand between them. -/
inductive Document : (branches : Bool) → Type where
  | empty {branches : Bool} : Document branches
  | text {branches : Bool} (chunk : Chunk) (next : Document branches) : Document branches
  /-- A block that tests a symbol. -/
  | block {branches negated : Bool} {gap name : List Char} (opening : Line (.symbol negated gap name)) (first : Document false)
      (closing : Line .endIf) (next : Document branches) : Document branches
  /-- A block that tests a symbol, with a second branch for the other case. -/
  | choice {branches negated : Bool} {gap name : List Char} (opening : Line (.symbol negated gap name)) (first : Document false)
      (middle : Line .otherwise) (second : Document false) (closing : Line .endIf) (next : Document branches) : Document branches
  /-- A block that tests an expression. -/
  | expression {branches : Bool} (opening : Line (.condition false)) (body : Document true) (closing : Line .endIf)
      (next : Document branches) : Document branches
  /-- A block that tests a symbol first and then expressions. -/
  | chain {branches negated : Bool} {gap name : List Char} (opening : Line (.symbol negated gap name)) (first : Document false)
      (further : Line (.condition true)) (others : Document true) (closing : Line .endIf) (next : Document branches) :
      Document branches
  /-- A further branch of the block around the document. -/
  | branch {head : Head} (line : Line head) (isBranch : head.isBranch = true) (next : Document true) : Document true

def holds (defined : List String) (negated : Bool) (name : List Char) : Bool :=
  defined.contains (String.ofList name) != negated

namespace Document

/-- The text of a document. -/
def render {branches : Bool} : Document branches → List Char
  | empty => []
  | text chunk next => chunk.chars ++ next.render
  | block opening first closing next => opening.chars ++ first.render ++ closing.chars ++ next.render
  | choice opening first middle second closing next =>
    opening.chars ++ first.render ++ middle.chars ++ second.render ++ closing.chars ++ next.render
  | expression opening body closing next => opening.chars ++ body.render ++ closing.chars ++ next.render
  | chain opening first further others closing next =>
    opening.chars ++ first.render ++ further.chars ++ others.render ++ closing.chars ++ next.render
  | branch line _ next => line.chars ++ next.render

/-- The text of a document under a set of defined symbols. A block that tests a symbol only gives way to one
of its branches: its directives are left out, and so is the other branch, from the directive that starts it
to the one that ends it. Other blocks stay, with their contents selected. -/
def select {branches : Bool} (defined : List String) : Document branches → List Char
  | empty => []
  | text chunk next => chunk.chars ++ next.select defined
  | @block _ negated _ name opening first closing next =>
    opening.indent ++
      (if holds defined negated name then opening.rest.chars ++ first.select defined ++ closing.indent else []) ++
      closing.rest.chars ++ next.select defined
  | @choice _ negated _ name opening first middle second closing next =>
    opening.indent ++
      (if holds defined negated name then opening.rest.chars ++ first.select defined ++ middle.indent
        else middle.rest.chars ++ second.select defined ++ closing.indent) ++
      closing.rest.chars ++ next.select defined
  | expression opening body closing next => opening.chars ++ body.select defined ++ closing.chars ++ next.select defined
  | chain opening first further others closing next =>
    opening.chars ++ first.select defined ++ further.chars ++ others.select defined ++ closing.chars ++ next.select defined
  | branch line _ next => line.chars ++ next.select defined

end Document

lemma not_alphanum_of_not_wordChar {c : Char} (h : isWordChar c = false) : c.isAlphanum = false := by
  simp only [isWordChar, Bool.or_eq_false_iff] at h
  exact h.1

lemma symbol_after {gap name rest : List Char} (hgap : Tabs gap) (hname : ∀ c ∈ name, isWordChar c) (hne : name ≠ [])
    (hrest : ∀ c ∈ rest.head?, isWordChar c = false) :
    (gap ++ (name ++ rest)).takeWhile isBlank = gap ∧ (name ++ rest).takeWhile isWordChar = name := by
  refine ⟨takeWhile_append_stop (fun c hc => blank_of_tab (hgap c hc)) fun c hc => ?_, takeWhile_append_stop hname hrest⟩
  rw [head?_append_of_ne_nil _ hne] at hc
  exact not_blank_of_wordChar (hname c (mem_of_mem_head? hc))

lemma Chunk.ne_nil (c : Chunk) : c.chars ≠ [] := by
  intro h
  have := c.ended
  simp [h] at this

lemma Chunk.takeWhile_append (c : Chunk) (post : List Char) :
    (c.chars ++ post).takeWhile (!isLineBreak ·) = c.chars.takeWhile (!isLineBreak ·) := by
  obtain ⟨init, hinit⟩ := getLast?_eq_some_iff.1 c.ended
  rw [List.takeWhile_append, if_neg]
  intro hlen
  have hall := (List.takeWhile_prefix (!isLineBreak ·)).eq_of_length hlen
  have := takeWhile_eq_self_iff.1 hall '\n' (by simp [hinit])
  cases this

lemma Line.read_tail {head : Head} (l : Line head) (post : List Char) :
    read (l.pad ++ (head.chars ++ (l.rest.chars ++ post))) =
      (head.kind, (l.pad ++ head.chars ++ head.expression l.rest.chars).length) := by
  have hrest : ∀ c ∈ (l.rest.chars ++ post).head?, isWordChar c = false := by
    rw [head?_append_of_ne_nil _ l.rest.ne_nil]
    exact l.apart
  have hstop : ∀ c ∈ (head.operand ++ (l.rest.chars ++ post)).head?, c.isAlphanum = false := by
    intro c hc
    cases head with
    | symbol negated gap name =>
      obtain ⟨hgap, hne, -⟩ := l.wellFormed
      rw [Head.operand, append_assoc, head?_append_of_ne_nil _ hne] at hc
      by_contra halnum
      have := not_tab_of_alphanum (by simpa using halnum)
      simp [hgap c (mem_of_mem_head? hc)] at this
    | condition | otherwise | endIf => exact not_alphanum_of_not_wordChar (hrest c hc)
  have hword : ∀ c ∈ (head.word.toList ++ (head.operand ++ (l.rest.chars ++ post))).head?, isTab c = false := by
    intro c hc
    rw [head?_append_of_ne_nil _ head.word_ne_nil] at hc
    exact not_tab_of_alphanum (head.word_alphanum c (mem_of_mem_head? hc))
  have hread := read_word head.word l.tabs_pad hword head.word_alphanum hstop
  rw [Head.chars, append_assoc, hread]
  simp only [length_append, Nat.add_assoc]
  cases head with
  | symbol negated gap name =>
    obtain ⟨hgap, -, hne, hname⟩ := l.wellFormed
    obtain ⟨h1, h2⟩ := symbol_after hgap hname hne hrest
    cases negated
    all_goals
      simp only [Head.word, Head.operand, Head.kind, Head.expression, append_assoc, readWord, h1, drop_left, h2,
        length_append, length_nil, Nat.add_zero, Nat.add_assoc]
  | condition further =>
    have hline : line (l.rest.chars ++ post) = (l.rest.chars.takeWhile (!isLineBreak ·)).length := by
      rw [line, l.rest.takeWhile_append]
    cases further
    all_goals
      simp only [Head.word, Head.operand, Head.kind, Head.expression, nil_append, readWord, hline, length_nil,
        Nat.zero_add, Nat.add_assoc]
  | otherwise | endIf => rfl

/-! ## Directives of the parts -/

lemma Chunk.rests (c : Chunk) : Token.Rests c.chars :=
  Token.rests_of_closed c.closed c.ended (by decide)

lemma Chunk.found (c : Chunk) (pos : Nat) (post : List Char) :
    found pos 0 (marked (c.chars ++ post)) = found (pos + byteLength c.chars) 0 (marked post) := by
  rw [c.rests.marked_append, found_unmarked c.unmarked pos (Nat.zero_le _), map_fst_marked]

lemma Head.mem_chars {head : Head} (h : head.WellFormed) {c : Char} (hc : c ∈ head.chars) :
    isWordChar c ∨ isTab c := by
  rw [chars, mem_append] at hc
  rcases hc with hc | hc
  · exact .inl (by simp [isWordChar, head.word_alphanum c hc])
  · cases head with
    | symbol negated gap name =>
      obtain ⟨hgap, -, -, hname⟩ := h
      exact (mem_append.1 hc).elim (fun hc => .inr (hgap c hc)) (fun hc => .inl (hname c hc))
    | condition | otherwise | endIf => cases hc

namespace Line
variable {head : Head} (l : Line head)

def spelled : List Char :=
  '#' :: (l.pad ++ head.chars ++ head.expression l.rest.chars)

lemma chars_eq (h : head.expression l.rest.chars = []) : l.chars = l.indent ++ (l.spelled ++ l.rest.chars) := by
  simp [chars, spelled, h]

def directive (pos : Nat) : Directive :=
  ⟨head.kind, pos + byteLength l.indent, pos + byteLength l.indent + byteLength l.spelled⟩

lemma stands (pre : List Char) : Stands (l.directive (byteLength pre)) (pre ++ l.indent) l.spelled :=
  ⟨by rw [directive, byteLength_append], by rw [directive, byteLength_append, byteLength_append]⟩

lemma mem_word {c : Char} (hc : c ∈ l.pad ++ head.chars) : isWordChar c ∨ isTab c := by
  rw [mem_append] at hc
  rcases hc with hc | hc
  · exact .inr (l.tabs_pad c hc)
  · exact Head.mem_chars l.wellFormed hc

lemma plain_word : ∀ c ∈ l.pad ++ head.chars, isPlain c := by
  intro c hc
  rcases l.mem_word hc with h | h
  · exact plain_of_inner (by simp [Token.isInner, h])
  · exact plain_of_blank (blank_of_tab h)

lemma mark_not_mem_word : '#' ∉ l.pad ++ head.chars := by
  intro hc
  rcases l.mem_word hc with h | h <;> cases h

lemma plain_indent : ∀ c ∈ l.indent, isPlain c :=
  fun c hc => plain_of_blank (blank_of_tab (l.tabs_indent c hc))

lemma mark_not_mem_indent : '#' ∉ l.indent :=
  fun hc => absurd (l.tabs_indent '#' hc) (by decide)

def markedTail : List (Char × Segment.Kind) :=
  (l.pad ++ head.chars).map (·, .code) ++ marked l.rest.chars

@[simp] lemma map_fst_markedTail : l.markedTail.map (·.1) = l.pad ++ head.chars ++ l.rest.chars := by
  simp [markedTail, Function.comp_def]

lemma unmarked_markedTail : ∀ p ∈ l.markedTail, p.2 = .code → p.1 ≠ '#' := by
  intro p hp hcode
  rcases mem_append.1 hp with hp | hp
  · obtain ⟨c, hc, rfl⟩ := mem_map.1 hp
    rintro rfl
    exact l.mark_not_mem_word hc
  · exact l.rest.unmarked p hp hcode

lemma marked_append (post : List Char) : marked (l.chars ++ post) =
      l.indent.map (·, .code) ++ ('#', .code) :: (l.markedTail ++ marked post) := by
  have hchars : l.chars ++ post = l.indent ++ (['#'] ++ (l.pad ++ head.chars ++ (l.rest.chars ++ post))) := by
    simp only [chars, append_assoc, cons_append, nil_append]
  rw [hchars, marked_plain l.plain_indent, marked_plain (forall_mem_singleton.2 (by decide)),
    marked_plain l.plain_word, l.rest.rests.marked_append, markedTail, append_assoc]
  rfl

lemma exists_tail : ∃ more, l.pad ++ head.chars ++ l.rest.chars = (l.pad ++ head.chars ++ head.expression l.rest.chars) ++ more := by
  have hexpr : head.expression l.rest.chars <+: l.rest.chars := by
    cases head with
    | condition => exact takeWhile_prefix _
    | symbol | otherwise | endIf => exact nil_prefix
  obtain ⟨more, hmore⟩ := hexpr
  exact ⟨more, by rw [append_assoc _ _ more, hmore]⟩

lemma found (pos : Nat) (post : List Char) : found pos 0 (marked (l.chars ++ post)) =
      l.directive pos :: found (pos + byteLength l.chars) 0 (marked post) := by
  have hindent : ∀ p ∈ l.indent.map (fun c => (c, Segment.Kind.code)), p.2 = .code → p.1 ≠ '#' := by
    rintro p hp - h
    obtain ⟨c, hc, rfl⟩ := mem_map.1 hp
    exact l.mark_not_mem_indent (h ▸ hc)
  have htail : (l.markedTail ++ marked post).map (·.1) = l.pad ++ (head.chars ++ (l.rest.chars ++ post)) := by simp
  have hhead : (l.pad ++ (head.chars ++ (l.rest.chars ++ post))).head? ≠ some '#' := by
    intro h
    rw [← append_assoc, head?_append_of_ne_nil _ (append_ne_nil_of_right_ne_nil _ head.chars_ne_nil)] at h
    exact l.mark_not_mem_word (mem_of_mem_head? h)
  obtain ⟨more, hmore⟩ := l.exists_tail
  have hreach : (l.pad ++ head.chars ++ head.expression l.rest.chars).length ≤ l.markedTail.length := by
    have := congrArg length (hmore.symm.trans l.map_fst_markedTail.symm)
    rw [length_map, length_append] at this
    omega
  have htake : (l.pad ++ (head.chars ++ (l.rest.chars ++ post))).take
      (l.pad ++ head.chars ++ head.expression l.rest.chars).length = l.pad ++ head.chars ++ head.expression l.rest.chars := by
    rw [← append_assoc, ← append_assoc, hmore, append_assoc _ more, take_left]
  rw [l.marked_append, found_unmarked hindent pos (Nat.zero_le _), found_mark _ _ (by rw [htail]; exact hhead), htail, l.read_tail,
    htake, found_unmarked l.unmarked_markedTail _ hreach, l.map_fst_markedTail]
  have hsize : Char.utf8Size '#' = 1 := rfl
  simp only [directive, spelled, chars, map_map, Function.comp_def, map_id_fun', id, byteLength_append,
    byteLength_cons, hsize, Nat.add_assoc]

end Line

end DeviceForge.Directive
