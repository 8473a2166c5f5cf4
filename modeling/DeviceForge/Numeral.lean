import DeviceForge.Binary64
import DeviceForge.Text.Blank
/-!
# Numerals

The numerals of the source language and the numbers they denote.
-/

namespace DeviceForge.Numeral

def splitSign : List Char → Bool × List Char
  | '+' :: cs => (false, cs)
  | '-' :: cs => (true, cs)
  | cs => (false, cs)

/-! ## Hexadecimal integers -/

def hexDigit? (c : Char) : Option Nat :=
  if c.isDigit then some (c.toNat - '0'.toNat)
  else if 'a' ≤ c ∧ c ≤ 'f' then some (c.toNat - 'a'.toNat + 10)
  else if 'A' ≤ c ∧ c ≤ 'F' then some (c.toNat - 'A'.toNat + 10)
  else none

def hexMagnitude? : Nat → List Char → Option Nat
  | n, [] => some n
  | n, c :: cs => do hexMagnitude? (16 * n + (← hexDigit? c)) cs

def hexadecimal? (cs : List Char) : Option Binary64 := do
  let (negative, digits) := splitSign cs
  if digits.isEmpty then none
  else
    let n ← hexMagnitude? 0 digits
    if n < Binary64.signBit ∨ (negative ∧ n = Binary64.signBit) then
      some ⟨negative && n ≠ 0, Binary64.ofQuotient n 1⟩
    else none

/-! ## Decimal numbers -/

def digitsValue (cs : List Char) : Nat :=
  cs.foldl (fun n c => 10 * n + (c.toNat - '0'.toNat)) 0

def exponentValue (cs : List Char) : Nat :=
  cs.foldl (fun n c => if n < 65536 then 10 * n + (c.toNat - '0'.toNat) else n) 0

def exponent? : List Char → Option Int
  | [] => some 0
  | mark :: cs =>
    let (negative, digits) := splitSign cs
    if (mark = 'e' ∨ mark = 'E') ∧ !digits.isEmpty ∧ digits.all Char.isDigit then
      some (if negative then -(exponentValue digits : Int) else exponentValue digits)
    else none

def decimal? (cs : List Char) : Option Nat := do
  let whole := cs.takeWhile Char.isDigit
  let rest := cs.dropWhile Char.isDigit
  let (fraction, rest) :=
    match rest with
    | '.' :: rest => (rest.takeWhile Char.isDigit, rest.dropWhile Char.isDigit)
    | _ => ([], rest)
  let digits := whole ++ fraction
  if digits.isEmpty then none
  else
    let e ← exponent? rest
    some (Binary64.ofScientific (digitsValue digits) (e - fraction.length))

def named? (cs : List Char) : Option Nat :=
  let name := String.ofList (cs.map Char.toLower)
  if name = "inf" ∨ name = "infinity" then some Binary64.infinity
  else if name = "nan" then some Binary64.quiet
  else none

def number? (cs : List Char) : Option Binary64 :=
  let (negative, cs) := splitSign cs
  ((named? cs).or (decimal? cs)).map (⟨negative, ·⟩)

/-! ## Literals -/

def isIntegerSuffix (c : Char) : Bool :=
  c = 'u' || c = 'U' || c = 'l' || c = 'L'

def isSuffix (c : Char) : Bool :=
  isIntegerSuffix c || c = 'f' || c = 'F'

def value? (s : String) : Option Binary64 :=
  match (Text.trim s).toList with
  | [] => none
  | '0' :: 'x' :: cs | '0' :: 'X' :: cs => hexadecimal? (Text.dropWhileEnd isIntegerSuffix cs)
  | cs => number? (Text.dropWhileEnd isSuffix cs)

end DeviceForge.Numeral
