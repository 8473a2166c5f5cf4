import DeviceForge.Segment
/-!
# Directives

The preprocessor lines of a source text.
-/

namespace DeviceForge

inductive Directive.Kind where
  | ifDefined (symbol : String)
  | ifUndefined (symbol : String)
  | ifHolds
  | elseIf
  | otherwise
  | endIf
  | define
  | inclusion
  | other
  deriving DecidableEq, Repr

/-- A directive and the bytes of its head. -/
structure Directive where
  kind : Directive.Kind
  start : Nat
  stop : Nat
  deriving DecidableEq, Repr

namespace Directive

/-! ## Reading -/

def isTab (c : Char) : Bool :=
  c = ' ' || c = '\t'

/-- The rest of a definition. A line break behind a backslash, with only spaces and tabs between them, does
not end it; `escaped` tells that the text starts behind such a backslash. -/
def definition (escaped : Bool) : List Char → Nat
  | [] => 0
  | '\r' :: '\n' :: cs => if escaped then 2 + definition false cs else 0
  | c :: cs =>
    if Lexeme.isLineBreak c then if escaped then 1 + definition false cs else 0
    else 1 + definition (c = '\\' || (escaped && isTab c)) cs

def read (cs : List Char) : Kind × Nat :=
  let indent := (cs.takeWhile isTab).length
  let word := (cs.drop indent).takeWhile Char.isAlphanum
  let headLength := indent + word.length
  let rest := cs.drop headLength
  let gap := (rest.takeWhile Text.isBlank).length
  let symbol := (rest.drop gap).takeWhile Text.isWordChar
  match String.ofList word with
  | "ifdef" => (.ifDefined (String.ofList symbol), headLength + gap + symbol.length)
  | "ifndef" => (.ifUndefined (String.ofList symbol), headLength + gap + symbol.length)
  | "if" => (.ifHolds, headLength + Lexeme.line rest)
  | "elif" => (.elseIf, headLength + Lexeme.line rest)
  | "else" => (.otherwise, headLength)
  | "endif" => (.endIf, headLength)
  | "define" => (.define, headLength + definition false rest)
  | "include" => (.inclusion, headLength + Lexeme.line rest)
  | _ => (.other, headLength + Lexeme.line rest)

/-- The directives of characters of these kinds from the byte `pos` on, of which the next `skip` belong to a
directive as far as they are code. A literal or a comment ends the reach of a directive. -/
def scan (pos skip : Nat) : List Char → List Segment.Kind → List Directive
  | c :: cs, kind :: kinds =>
    let next := pos + c.utf8Size
    if kind ≠ .code then scan next 0 cs kinds
    else
      match skip with
      | skip + 1 => scan next skip cs kinds
      | 0 =>
        if c = '#' ∧ cs.head? ≠ some '#' then
          let (kind, n) := read cs
          ⟨kind, pos, next + Text.byteLength (cs.take n)⟩ :: scan next n cs kinds
        else scan next 0 cs kinds
  | _, _ => []

def ofChars (cs : List Char) : List Directive :=
  scan 0 0 cs (Segment.kinds cs)

/-! ## Definitions and inclusions -/

def dropped? (cs : List Char) (d : Directive) : Option (Nat × Nat) :=
  match d.kind with
  | .define => some (d.start, d.stop)
  | .inclusion =>
    some (d.start, d.stop + ((Text.after d.stop cs).2.takeWhile Lexeme.isLineBreak).length)
  | _ => none

def dropDefinitions (cs : List Char) : List Char :=
  (ofChars cs).foldr (fun d text =>
    match d.dropped? cs with
    | some (start, stop) => Text.cut start stop text
    | none => text) cs

/-! ## Conditional blocks -/

/-- A block that is not closed yet. -/
structure OpenBlock where
  head : Directive
  otherwise : Option Directive
  branches : Bool
  deriving DecidableEq, Repr

def OpenBlock.taken? (defined : List String) (b : OpenBlock) : Option Bool :=
  if b.branches then none
  else
    match b.head.kind with
    | .ifDefined symbol => some (defined.contains symbol)
    | .ifUndefined symbol => some (!defined.contains symbol)
    | _ => none

def OpenBlock.resolve (cs : List Char) (b : OpenBlock) (close : Directive) (first : Bool) : List Char :=
  let branch :=
    match b.otherwise, first with
    | some d, true => Text.slice b.head.stop d.start cs
    | none, true => Text.slice b.head.stop close.start cs
    | some d, false => Text.slice d.stop close.start cs
    | none, false => []
  Text.slice 0 b.head.start cs ++ branch ++ (Text.after close.stop cs).2

def resolveBlock? (defined : List String) (cs : List Char) (blocks : List OpenBlock) :
    List Directive → Option (List Char)
  | [] => none
  | d :: ds =>
    match d.kind, blocks with
    | .ifDefined _, _ | .ifUndefined _, _ | .ifHolds, _ =>
      resolveBlock? defined cs (⟨d, none, false⟩ :: blocks) ds
    | .elseIf, b :: blocks => resolveBlock? defined cs (⟨b.head, b.otherwise, true⟩ :: blocks) ds
    | .otherwise, b :: blocks => resolveBlock? defined cs (⟨b.head, some d, b.branches⟩ :: blocks) ds
    | .endIf, b :: blocks =>
      match b.taken? defined with
      | some first => some (b.resolve cs d first)
      | none => resolveBlock? defined cs blocks ds
    | _, _ => resolveBlock? defined cs blocks ds

def resolveBlocks (defined : List String) (cs : List Char) : List Char :=
  match resolveBlock? defined cs [] (ofChars cs) with
  | none => cs
  | some next => if next.length < cs.length then resolveBlocks defined next else next
termination_by cs.length

def resolve (defined : List String) (s : String) : String :=
  String.ofList (resolveBlocks defined (dropDefinitions s.toList))

end Directive

end DeviceForge
