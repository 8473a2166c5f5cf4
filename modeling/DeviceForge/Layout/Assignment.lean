import DeviceForge.Segment
import DeviceForge.Token
/-!
# Assignments on one line

An assignment that is wrapped over several lines is joined into one.
-/

namespace DeviceForge.Layout

def assignmentOperators : List String :=
  ["=", "+=", "-=", "*=", "/="]

def statementWords : List String :=
  ["if", "for", "while", "else", "return", "switch", "case", "do"]

def hasAssignment (tokens : List Token) : Bool :=
  tokens.any fun t => assignmentOperators.contains t.text

def hasStructure (line : String) : Bool :=
  line.toList.any fun c => c = '\x7b' || c = '\x7d' || c = '#'

def endsStatement (line : String) : Bool :=
  line.toList.getLast? = some ';'

def startsAssignment (line : String) : Bool :=
  let line := Text.trim line
  if line.isEmpty || endsStatement line || hasStructure line then false
  else
    let tokens := Token.ofString line
    match tokens with
    | [] => false
    | t :: _ =>
      (t.isIdentifier || t.text = "*") && !statementWords.contains t.text && hasAssignment tokens

def continuation? : List (String × Bool) → Option (List String)
  | [] => none
  | (line, joinable) :: rest =>
    let line := Text.trim line
    if !joinable || line.isEmpty || hasStructure line || hasAssignment (Token.ofString line) then none
    else if endsStatement line then some [line]
    else (continuation? rest).map (line :: ·)

def joinLines (skip : Nat) : List (String × Bool) → List String
  | [] => []
  | (line, joinable) :: rest =>
    match skip with
    | skip + 1 => joinLines skip rest
    | 0 =>
      match if joinable && startsAssignment line then continuation? rest else none with
      | some parts => " ".intercalate (Text.trimEnd line :: parts) :: joinLines parts.length rest
      | none => line :: joinLines 0 rest

def keepsLines (s : Segment) : Bool :=
  s.kind = .comment || (s.kind = .quoted && s.text.dropLast.contains '\n')

/-- Whether each line may be joined, given for each character whether it keeps its line; a line feed
belongs to the line it ends. -/
def lineFlags (kept : Bool) : List (Char × Bool) → List Bool
  | [] => [!kept]
  | (c, keeps) :: rest =>
    if c = '\n' then (!(kept || keeps)) :: lineFlags false rest else lineFlags (kept || keeps) rest

def joinableLines (cs : List Char) : List Bool :=
  lineFlags false ((Segment.ofChars cs).flatMap fun s => s.text.map (·, keepsLines s))

def joinAssignments (cs : List Char) : List Char :=
  let lines := (Text.splitAtChars (· == '\n') cs).map String.ofList
  ("\n".intercalate (joinLines 0 (lines.zip (joinableLines cs)))).toList

end DeviceForge.Layout
