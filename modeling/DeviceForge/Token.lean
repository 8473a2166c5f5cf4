import DeviceForge.Lexeme
import DeviceForge.Text.Offset
/-!
# Tokens

A text is a sequence of tokens, each behind the blanks that lead up to it, and a tail of blanks.
-/

namespace DeviceForge

inductive Token.Kind where
  | identifier
  | number
  | str
  | char
  | comment
  | punct
  deriving DecidableEq, Repr

/-- A token with its lead: what stands between the token before it and this one. -/
structure Token where
  kind : Token.Kind
  lead : String
  text : String
  deriving DecidableEq, Repr

namespace Token

def isIdentifier (t : Token) : Bool :=
  t.kind = .identifier

def isComment (t : Token) : Bool :=
  t.kind = .comment

def spelling (t : Token) : String :=
  t.lead ++ t.text

def size (t : Token) : Nat :=
  t.lead.utf8ByteSize + t.text.utf8ByteSize

def reachesMember (t : Token) : Bool :=
  t.text = "->" || t.text = "."

def isOpening (t : Token) : Bool :=
  t.text = "(" || t.text = "[" || t.text = "\x7b"

def isClosing (t : Token) : Bool :=
  t.text = ")" || t.text = "]" || t.text = "\x7d"

/-! ## Scanning -/

def extent (c : Char) (cs : List Char) : Kind × Nat :=
  if c = '/' ∧ cs.head? = some '/' then (.comment, Lexeme.line cs)
  else if c = '/' ∧ cs.head? = some '*' then (.comment, 1 + Lexeme.block cs.tail)
  else if c = '"' then (.str, Lexeme.quoted '"' cs)
  else if c = '\'' then (.char, Lexeme.quoted '\'' cs)
  else if c.isDigit || (c = '.' && (cs.head?.any Char.isDigit)) then
    let hexadecimal := c = '0' && (cs.head? = some 'x' || cs.head? = some 'X')
    (.number, Lexeme.number hexadecimal (c :: cs) - 1)
  else if c.isAlpha || c = '_' then (.identifier, Lexeme.word cs)
  else (.punct, Lexeme.operator (c :: cs) - 1)

def scan (cs : List Char) : List Token × String :=
  match h : cs.dropWhile Text.isBlank with
  | [] => ([], String.ofList cs)
  | c :: rest =>
    let (kind, n) := extent c rest
    have : rest.length < cs.length := Text.length_lt_of_dropWhile_eq_cons h
    let (tokens, tail) := scan (rest.drop n)
    (⟨kind, String.ofList (cs.takeWhile Text.isBlank), String.ofList (c :: rest.take n)⟩ :: tokens, tail)
termination_by cs.length
decreasing_by
  simp only [List.length_drop]
  omega

theorem flatMap_spelling_scan (cs : List Char) :
    ((scan cs).1.flatMap fun t => t.spelling.toList) ++ (scan cs).2.toList = cs := by
  fun_induction scan cs with
  | case1 cs h => simp
  | case2 cs c rest h kind n he hlt tokens tail hs ih =>
    rw [hs] at ih
    have hcs : cs.takeWhile Text.isBlank ++ c :: rest = cs := by
      rw [← h, List.takeWhile_append_dropWhile]
    simp only [List.flatMap_cons, spelling, String.toList_append, String.toList_ofList,
      List.append_assoc, List.cons_append] at ih ⊢
    rw [ih, List.take_append_drop]
    exact hcs

def ofString (s : String) : List Token :=
  (scan s.toList).1

def isIdentifierText (s : String) : Bool :=
  match s.toList with
  | [] => false
  | c :: cs => (c.isAlpha || c = '_') && cs.all Text.isWordChar

/-! ## Positions -/

/-- A token with the bytes it takes and the line it starts on. -/
structure Located where
  token : Token
  start : Nat
  stop : Nat
  line : Nat
  deriving DecidableEq, Repr

def lineFeeds (s : String) : Nat :=
  s.toList.count '\n'

def locate (pos line : Nat) : List Token → List Located
  | [] => []
  | t :: ts =>
    let start := pos + t.lead.utf8ByteSize
    let stop := start + t.text.utf8ByteSize
    let row := line + lineFeeds t.lead
    ⟨t, start, stop, row⟩ :: locate stop (row + lineFeeds t.text) ts

def located (s : String) : List Located :=
  locate 0 1 (ofString s)

end Token

end DeviceForge
