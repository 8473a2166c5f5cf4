import DeviceForge.Lexeme
import DeviceForge.Text.Offset
import DeviceForge.Error
/-!
# Segments

A text falls into segments of code, literals and comments.
-/

namespace DeviceForge

inductive Segment.Kind where
  | code
  | quoted
  | comment
  deriving DecidableEq, Repr

structure Segment where
  kind : Segment.Kind
  text : List Char
  deriving DecidableEq, Repr

namespace Segment

def extent (c : Char) (cs : List Char) : Kind × Nat :=
  if c = '"' || c = '\'' then (.quoted, Lexeme.quoted c cs)
  else if c = '/' ∧ cs.head? = some '/' then (.comment, Lexeme.line cs)
  else if c = '/' ∧ cs.head? = some '*' then (.comment, 1 + Lexeme.block cs.tail)
  else (.code, Lexeme.code cs)

def ofChars : List Char → List Segment
  | [] => []
  | c :: cs =>
    let (kind, n) := extent c cs
    ⟨kind, c :: cs.take n⟩ :: ofChars (cs.drop n)
termination_by cs => cs.length
decreasing_by
  simp only [List.length_drop, List.length_cons]
  omega

def marked (cs : List Char) : List (Char × Kind) :=
  (ofChars cs).flatMap fun s => s.text.map (·, s.kind)

theorem flatMap_text_ofChars (cs : List Char) : (ofChars cs).flatMap (·.text) = cs := by
  fun_induction ofChars cs with
  | case1 => rfl
  | case2 c cs kind n he ih => rw [List.flatMap_cons, ih, List.cons_append, List.take_append_drop]

@[simp]
theorem map_fst_marked (cs : List Char) : (marked cs).map (·.1) = cs := by
  rw [marked, List.map_flatMap]
  simpa [List.map_map, Function.comp_def] using flatMap_text_ofChars cs

def kinds (cs : List Char) : List Kind :=
  (marked cs).map (·.2)

@[simp]
theorem length_kinds (cs : List Char) : (kinds cs).length = cs.length := by
  have h := congrArg List.length (map_fst_marked cs)
  rw [List.length_map] at h
  rw [kinds, List.length_map, h]

def removeComments (s : String) : String :=
  String.ofList (((ofChars s.toList).filter (·.kind ≠ .comment)).flatMap (·.text))

/-! ## Spans -/

/-- The bytes that a segment takes. -/
structure Span where
  kind : Kind
  start : Nat
  stop : Nat
  deriving DecidableEq, Repr

def place (pos : Nat) : List Segment → List Span
  | [] => []
  | s :: rest =>
    let stop := pos + Text.byteLength s.text
    ⟨s.kind, pos, stop⟩ :: place stop rest

/-- The segments of a text from the byte `start` on, which is taken to be code. The bytes left of a
character that `start` cuts belong to the first segment. -/
def spans (s : String) (start : Nat) : List Span :=
  match Text.after start s.toList with
  | (0, cs) => place start (ofChars cs)
  | (left, cs) =>
    let n := Lexeme.code cs
    let stop := start + left + Text.byteLength (cs.take n)
    ⟨.code, start, stop⟩ :: place stop (ofChars (cs.drop n))

def findCode (p : Char → Bool) (pos : Nat) : List (Char × Kind) → Option Nat
  | [] => none
  | (c, kind) :: rest => if kind = .code ∧ p c then some pos else findCode p (pos + c.utf8Size) rest

def find? (s : String) (start : Nat) (first : UInt8) : Option Nat :=
  let (left, cs) := Text.after start s.toList
  let inCode := if left = 0 then marked cs else
    let n := Lexeme.code cs
    (cs.take n).map (·, .code) ++ marked (cs.drop n)
  findCode (fun c => (String.utf8EncodeChar c).head? = some first) (start + left) inCode

/-! ## Matching brackets -/

def closingIn (b : Bracket) : Nat → List (Char × Kind) → Option Nat
  | _, [] => none
  | level, (c, kind) :: rest =>
    if kind = .code ∧ c = b.closing then
      if level = 1 then some 0 else (closingIn b (level - 1) rest).map (· + 1)
    else if kind = .code ∧ c = b.opening then (closingIn b (level + 1) rest).map (· + 1)
    else (closingIn b level rest).map (· + 1)

def enclosed? (b : Bracket) (cs : List Char) : Option (List Char × List Char) :=
  (closingIn b 1 (marked cs)).map fun n => (cs.take n, cs.drop (n + 1))

def enclosed (s : String) (offset : Nat) : Except Error (List Char) :=
  match Text.byteAt? offset s.toList with
  | none => .error (.notABracket '\x00' offset)
  | some byte =>
    let c := Char.ofNat byte.toNat
    match Bracket.ofOpening? c with
    | none => .error (.notABracket c offset)
    | some b =>
      match enclosed? b (Text.after (offset + 1) s.toList).2 with
      | none => .error (.unbalanced b offset)
      | some (inside, _) => .ok inside

def closing (s : String) (offset : Nat) : Except Error Nat :=
  (enclosed s offset).map (offset + 1 + Text.byteLength ·)

end Segment

end DeviceForge
