import DeviceForge.Code
import DeviceForge.Segment
/-!
# Conditions on one line

The line breaks inside the condition of an `if` become single spaces.
-/

namespace DeviceForge.Layout

def flattenSpaces (pending : List Char) : List Char → List Char
  | [] => []
  | c :: cs =>
    if Text.isSpace c then flattenSpaces (pending ++ [c]) cs
    else (if pending.contains '\n' then [' '] else pending) ++ c :: flattenSpaces [] cs

def hasLineComment (cs : List Char) : Bool :=
  (Segment.ofChars cs).any fun s => s.kind = .comment && s.text.take 2 = ['/', '/']

def flattenCondition (cs : List Char) : List Char :=
  match Segment.enclosed? .round cs with
  | none => '(' :: cs
  | some (inside, rest) =>
    if inside.contains '\n' && !hasLineComment inside then
      '(' :: flattenSpaces [] (inside ++ [')']) ++ rest
    else '(' :: cs

def flattenTokens (tail : String) (afterIf : Bool) : List Token → List Char
  | [] => tail.toList
  | t :: ts =>
    let rest := flattenTokens tail (t.text = "if") ts
    t.lead.toList ++
      if afterIf && t.text = "(" then flattenCondition rest else t.text.toList ++ rest

def flattenConditions (cs : List Char) : List Char :=
  let c := Code.ofString (String.ofList cs)
  flattenTokens c.tail false c.tokens

end DeviceForge.Layout
