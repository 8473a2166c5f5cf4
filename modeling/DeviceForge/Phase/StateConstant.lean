import DeviceForge.Pattern
import DeviceForge.Table
/-!
# State constants

A header names the states of a device relative to its first one.
-/

namespace DeviceForge.StateConstant

def definition? (line : String) : Option String := do
  let rest ← Text.after? "#" (Text.trim line)
  Text.after? "define" (Text.trimStart rest)

def patterns : List Pattern :=
  [.ofString "$name $base", .ofString "$name $base + #offset", .ofString "$name ( $base + #offset )"]

def bound : Nat := Nat.pow 2 64

def offset? (s : String) : Option Nat :=
  let digits := s.toList
  if digits.isEmpty || !digits.all Char.isDigit then none
  else
    let n := digits.foldl (fun n c => 10 * n + (c.toNat - '0'.toNat)) 0
    if n < bound then some n else none

def ofDefinition? (base definition : String) : Option (String × Nat) := do
  let tokens := (Code.ofString definition).tokens
  let m ← patterns.findSome? (·.matchAll? tokens)
  if m.text "base" ≠ base then none
  else
    match m.capture? "offset" with
    | none => some (m.text "name", 0)
    | some c => (offset? c.text).map (m.text "name", ·)

def ofText (text base : String) : Table Nat :=
  (Text.lines text).foldl (fun constants line =>
    match (definition? line).bind (ofDefinition? base) with
    | some (name, offset) => constants.put name offset
    | none => constants) []

end DeviceForge.StateConstant
