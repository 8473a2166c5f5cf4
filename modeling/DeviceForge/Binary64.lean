/-!
# Binary64 numbers

The numbers of the format binary64 by their bits.
-/

namespace DeviceForge

/-- A number by its sign and by the 63 bits behind the sign. Larger bits mean a larger number. -/
structure Binary64 where
  negative : Bool
  magnitude : Nat
  deriving DecidableEq, Repr

namespace Binary64

def signBit : Nat := Nat.pow 2 63

def bits (x : Binary64) : Nat :=
  if x.negative then signBit + x.magnitude else x.magnitude

def infinity : Nat := 2047 * Nat.pow 2 52

def quiet : Nat := infinity + Nat.pow 2 51

def isZero (x : Binary64) : Bool :=
  x.magnitude = 0

def isNaN (x : Binary64) : Bool :=
  infinity < x.magnitude

/-! ## Rounding -/

def divide (num den : Nat) : Nat :=
  let q := num / den
  let r := num % den
  if 2 * r < den then q
  else if den < 2 * r then q + 1
  else q + q % 2

def leastExponent : Int := -1074

def unitExponent (num den : Nat) : Int :=
  let e : Int := (Nat.log2 num : Int) - (Nat.log2 den : Int)
  let reaches := if 0 ≤ e then den * Nat.pow 2 e.toNat ≤ num else den ≤ num * Nat.pow 2 (-e).toNat
  max leastExponent (if reaches then e - 52 else e - 53)

def ofQuotient (num den : Nat) : Nat :=
  if num = 0 then 0
  else
    let k := unitExponent num den
    let q := if 0 ≤ k then divide num (den * Nat.pow 2 k.toNat) else divide (num * Nat.pow 2 (-k).toNat) den
    let exponent := (k - leastExponent).toNat
    if q < Nat.pow 2 52 then q
    else min infinity (exponent * Nat.pow 2 52 + q)

def ofScientific (m : Nat) (e : Int) : Nat :=
  let size : Int := (Nat.log2 m : Int) * 30103 / 100000 + e
  if m = 0 then 0
  else if 400 < size then infinity
  else if size < -400 then 0
  else if 0 ≤ e then ofQuotient (m * Nat.pow 10 e.toNat) 1
  else ofQuotient m (Nat.pow 10 (-e).toNat)

end Binary64

end DeviceForge
