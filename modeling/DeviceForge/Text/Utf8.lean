/-!
# Texts from bytes

Bytes are read as UTF-8.
-/

namespace DeviceForge.Text

def replacement : Char := '�'

def continues (b : UInt8) : Bool :=
  0x80 ≤ b && b ≤ 0xBF

/-- The bytes that may stand second behind the first byte of a character of several bytes, and how many
bytes follow the first; nothing for a byte that starts no such character. -/
def leading? (b : UInt8) : Option (UInt8 × UInt8 × Nat) :=
  if 0xC2 ≤ b && b ≤ 0xDF then some (0x80, 0xBF, 1)
  else if b = 0xE0 then some (0xA0, 0xBF, 2)
  else if b = 0xED then some (0x80, 0x9F, 2)
  else if 0xE1 ≤ b && b ≤ 0xEF then some (0x80, 0xBF, 2)
  else if b = 0xF0 then some (0x90, 0xBF, 3)
  else if 0xF1 ≤ b && b ≤ 0xF3 then some (0x80, 0xBF, 3)
  else if b = 0xF4 then some (0x80, 0x8F, 3)
  else none

/-- How many of the bytes after the first belong to the character, the one at hand being allowed from `low`
to `high` and at most `wanted` of them. -/
def following (low high : UInt8) : Nat → List UInt8 → Nat
  | 0, _ => 0
  | _, [] => 0
  | wanted + 1, b :: bs => if low ≤ b && b ≤ high then 1 + following 0x80 0xBF wanted bs else 0

def codePoint (first : UInt8) (n : Nat) (rest : List UInt8) : Nat :=
  rest.foldl (fun code b => code * 64 + b.toNat % 64) (first.toNat % Nat.pow 2 (6 - n))

def decodeFrom (skip : Nat) : List UInt8 → List Char
  | [] => []
  | b :: bs =>
    match skip with
    | skip + 1 => decodeFrom skip bs
    | 0 =>
      if b < 0x80 then Char.ofNat b.toNat :: decodeFrom 0 bs
      else
        match leading? b with
        | none => replacement :: decodeFrom 0 bs
        | some (low, high, n) =>
          let found := following low high n bs
          let c := if found = n then Char.ofNat (codePoint b n (bs.take n)) else replacement
          c :: decodeFrom found bs

def decode (bytes : List UInt8) : String :=
  String.ofList (decodeFrom 0 bytes)

end DeviceForge.Text
