import DeviceForge.Layout.Assignment
import DeviceForge.Layout.Brace
import DeviceForge.Layout.Condition
import DeviceForge.Layout.Spacing
/-!
# Layout of code

The normal layout of a piece of code: conditions on one line, braces on lines of their own, assignments on
one line, spaced operators, and at most one empty line in a row.
-/

namespace DeviceForge.Layout

def unifyBreaks : List Char → List Char
  | [] => []
  | '\r' :: '\n' :: cs => '\n' :: unifyBreaks cs
  | c :: cs => (if c = '\r' then '\n' else c) :: unifyBreaks cs

def collapseLines (afterEmpty : Bool) : List (List Char) → List (List Char)
  | [] => []
  | line :: lines =>
    if line.all Text.isSpace then
      if afterEmpty then collapseLines true lines else [] :: collapseLines true lines
    else line :: collapseLines false lines

def collapseEmptyLines (cs : List Char) : List Char :=
  ['\n'].intercalate (collapseLines false (Text.splitAtChars (· == '\n') cs))

def format (s : String) : String :=
  let cs := unifyBreaks s.toList
  let cs := spaceOperators (joinAssignments (placeInBuffer (flattenConditions cs)))
  Text.trim (String.ofList (collapseEmptyLines cs))

end DeviceForge.Layout
