import DeviceForge.Text.Blank
/-!
# Extents of lexical elements

Each function counts the characters that belong to an element, given what follows its opening: the
rest of a literal or comment, of a number or of a word.
-/

namespace DeviceForge.Lexeme

def quoted (quote : Char) : List Char → Nat
  | [] => 0
  | '\\' :: _ :: cs => 2 + quoted quote cs
  | c :: cs => if c = quote then 1 else 1 + quoted quote cs

def isLineBreak (c : Char) : Bool :=
  c = '\n' || c = '\r'

def line (cs : List Char) : Nat :=
  (cs.takeWhile (!isLineBreak ·)).length

def block : List Char → Nat
  | [] => 0
  | '*' :: '/' :: _ => 2
  | _ :: cs => 1 + block cs

def code : List Char → Nat
  | [] => 0
  | '/' :: '/' :: _ => 0
  | '/' :: '*' :: _ => 0
  | c :: cs => if c = '"' || c = '\'' then 0 else 1 + code cs

def word (cs : List Char) : Nat :=
  (cs.takeWhile Text.isWordChar).length

def number (hexadecimal : Bool) : List Char → Nat
  | [] => 0
  | [c] => if Text.isWordChar c || c = '.' then 1 else 0
  | c :: d :: cs =>
    if Text.isWordChar c || c = '.' then
      if !hexadecimal && (c = 'e' || c = 'E') && (d = '+' || d = '-') then 2 + number hexadecimal cs
      else 1 + number hexadecimal (d :: cs)
    else 0

def operators : List String :=
  ["<<=", ">>=", "...", "->", "++", "--", "<<", ">>", "<=", ">=", "==", "!=", "&&", "||", "+=", "-=",
    "*=", "/=", "%=", "&=", "|=", "^=", "##"]

def operator (cs : List Char) : Nat :=
  match operators.find? (·.toList.isPrefixOf cs) with
  | some op => op.length
  | none => 1

end DeviceForge.Lexeme
