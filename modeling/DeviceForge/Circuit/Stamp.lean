import DeviceForge.Pattern
/-!
# Complex stamps

The sources add to the real and to the imaginary part of a matrix element in separate statements.
-/

namespace DeviceForge.Circuit

inductive Stamp.Sign where
  | plus
  | minus
  deriving DecidableEq, Repr

def Stamp.Sign.operator : Stamp.Sign → String
  | .plus => "+="
  | .minus => "-="

/-- A statement that adds to a matrix element or subtracts from it, in a block of the code. -/
structure Stamp where
  block : Nat
  row : String
  column : String
  imaginary : Bool
  sign : Stamp.Sign
  value : String
  deriving DecidableEq, Repr

namespace Stamp

def place (s : Stamp) : Nat × String × String :=
  (s.block, s.row, s.column)

/-! ## Reading -/

/-- How many tokens stand before the semicolon that ends a value; nothing if a brace or a bracket that the
value did not open comes first. -/
def valueLength? (depth : Nat) : List Token → Option Nat
  | [] => none
  | t :: ts =>
    if t.text = "(" || t.text = "[" then (valueLength? (depth + 1) ts).map (· + 1)
    else if t.text = ")" || t.text = "]" then
      if depth = 0 then none else (valueLength? (depth - 1) ts).map (· + 1)
    else if t.text = "\x7b" || t.text = "\x7d" then none
    else if t.text = ";" && depth = 0 then some 0
    else (valueLength? depth ts).map (· + 1)

def signOf? (t : Token) : Option Sign :=
  if t.text = "+=" then some .plus else if t.text = "-=" then some .minus else none

def splitPart : List Token → Bool × List Token
  | point :: part :: ts =>
    if point.text = "." && part.text = "Imag" then (true, ts) else (false, point :: part :: ts)
  | ts => (false, ts)

def cellPattern (target : String) : Pattern :=
  .ofString s!"{target} . Matrix [ ...row , ...column ]"

def read? (cell : Pattern) (block : Nat) (ts : List Token) : Option (Stamp × Nat) := do
  let m ← cell.matchAt? [] ts
  let (imaginary, rest) := splitPart m.after
  match rest with
  | [] => none
  | op :: behind => do
    let sign ← signOf? op
    let n ← valueLength? 0 behind
    if n = 0 then none
    else
      let value := Code.span (behind.take n)
      some (⟨block, m.text "row", m.text "column", imaginary, sign, value⟩, ts.length - behind.length + n + 1)

/-- A piece of code: a stamp with its lead, or another token. -/
inductive Piece where
  | token (t : Token)
  | stamp (lead : String) (s : Stamp)
  deriving DecidableEq, Repr

def startsStatement : Option Token → Bool
  | none => true
  | some t => t.text = ";" || t.text = "\x7b" || t.text = "\x7d"

/-- The pieces of tokens in the innermost of the open blocks; `fresh` is the number of the next block, and
the next `skip` tokens belong to a stamp. -/
def pieces (cell : Pattern) (fresh : Nat) (blocks : List Nat) (skip : Nat) (previous : Option Token) :
    List Token → List Piece
  | [] => []
  | t :: ts =>
    match skip with
    | skip + 1 => pieces cell fresh blocks skip (some t) ts
    | 0 =>
      if t.text = "\x7b" then .token t :: pieces cell (fresh + 1) (fresh :: blocks) 0 (some t) ts
      else if t.text = "\x7d" then .token t :: pieces cell fresh blocks.tail 0 (some t) ts
      else
        match if startsStatement previous then read? cell (blocks.headD 0) (t :: ts) else none with
        | some (s, n) => .stamp t.lead s :: pieces cell fresh blocks (n - 1) (some t) ts
        | none => .token t :: pieces cell fresh blocks 0 (some t) ts

/-! ## Merging -/

/-- The sum of the values as far as they are added or subtracted under `sign`. A value that is subtracted
stands in parentheses if it has a sign in it. -/
def sum (sign : Sign) (stamps : List Stamp) : String :=
  stamps.foldl (fun total s =>
    if s.sign = sign then (if total.isEmpty then "" else total ++ " + ") ++ s.value
    else
      let value := s.value
      let head := if total.isEmpty then "-" else total ++ " - "
      head ++ if value.toList.any (fun c => c = '+' || c = '-') then s!"({value})" else value) ""

/-- A sum whose real and imaginary parts multiply one factor with the parts of the Laplace variable, as a
product with the variable. -/
def laplaceProduct? (real imaginary target : String) : Option String := do
  let m ← (Pattern.ofString s!"...factor * {target} . Laplace . Imaginary").matchAll?
    (Code.ofString imaginary).tokens
  let factor := m.text "factor"
  let product := s!"{factor} * {target}.Laplace"
  let tail := (Code.ofString s!"{factor} * {target}.Laplace.Real").tokens.map (·.text)
  let tokens := (Code.ofString real).tokens
  let texts := tokens.map (·.text)
  if texts = tail then some product
  else
    let n := texts.length - (tail.length + 1)
    if 0 < n && texts.drop (n + 1) = tail && texts[n]? = some "+" then
      let rest := Code.span (tokens.take n)
      some s!"{rest} + {product}"
    else none

def total (target : String) (laplace : Bool) (sign : Sign) (stamps : List Stamp) : String :=
  let real := sum sign (stamps.filter (!·.imaginary))
  let imaginary := sum sign (stamps.filter (·.imaginary))
  if imaginary.isEmpty then real
  else
    match if laplace then laplaceProduct? real imaginary target else none with
    | some product => product
    | none =>
      let real := if real.isEmpty then "0.0" else real
      s!"new Complex({real}, {imaginary})"

def mergedSign (first : Stamp) (stamps : List Stamp) : Sign :=
  ((stamps.find? (!·.imaginary)).getD first).sign

def statement (target : String) (laplace : Bool) (first : Stamp) (stamps : List Stamp) : String :=
  let sign := mergedSign first stamps
  let value := total target laplace sign stamps
  let op := sign.operator
  let row := first.row
  let column := first.column
  s!"{target}.Matrix[{row}, {column}] {op} {value};"

/-- The texts of pieces. The first stamp of an element stands for all of them; `done` lists the elements
that have been written, and `all` holds all stamps. -/
def texts (target : String) (laplace : Bool) (all : List Stamp) (done : List (Nat × String × String)) :
    List Piece → List String
  | [] => []
  | .token t :: rest => t.spelling :: texts target laplace all done rest
  | .stamp lead s :: rest =>
    if done.contains s.place then lead :: texts target laplace all done rest
    else
      let own := all.filter (·.place = s.place)
      lead :: statement target laplace s own :: texts target laplace all (s.place :: done) rest

def ofPieces : List Piece → List Stamp
  | [] => []
  | .token _ :: rest => ofPieces rest
  | .stamp _ s :: rest => s :: ofPieces rest

/-- Merges the stamps of each element within a block into one statement. Where `laplace` is set, factors
of both parts of the Laplace variable become factors of the variable. -/
def merge (target : String) (laplace : Bool) (code : String) : String :=
  let c := Code.ofString code
  let found := pieces (cellPattern target) 1 [0] 0 none c.tokens
  String.join (texts target laplace (ofPieces found) [] found) ++ c.tail

end Stamp

end DeviceForge.Circuit
