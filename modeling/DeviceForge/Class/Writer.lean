import DeviceForge.Text.Blank
import DeviceForge.Text.Offset
/-!
# Writing lines

A writer indents lines by the depth of their braces, whatever indentation they come with, and breaks
long lines at a comma or before an operator.
-/

namespace DeviceForge

/-- The lines written so far, and where the writer stands. -/
structure Writer where
  /-- A line that reaches this column is broken if it can be. -/
  column : Nat
  level : Nat
  lines : List String
  deriving DecidableEq, Repr

namespace Writer

def defaultColumn : Nat := 120

def ofColumn (column : Nat) : Writer :=
  ⟨column, 0, []⟩

def indent (level : Nat) : List Char :=
  List.replicate (4 * level) ' '

/-! ## Braces -/

/-- How many braces a line opens and closes, and how many of those it closes stand before all else. -/
structure Braces where
  opens : Nat
  closes : Nat
  leading : Nat
  deriving DecidableEq, Repr

/-- Where a scan of a line stands: in plain text or in a literal, perhaps behind a backslash. -/
inductive Place where
  | plain
  | literal (quote : Char) (escaped : Bool)
  deriving DecidableEq, Repr

def Place.next (c : Char) : Place → Place
  | .plain => if c = '"' || c = '\'' then .literal c false else .plain
  | .literal quote escaped =>
    if escaped then .literal quote false
    else if c = '\\' then .literal quote true
    else if c = quote then .plain
    else .literal quote false

/-- Counts braces outside literals, up to a line comment; `leading` tells that only closing braces and
spaces have come so far. -/
def countBraces (place : Place) (leading : Bool) (found : Braces) : List Char → Braces
  | [] => found
  | c :: cs =>
    match place with
    | .literal .. => countBraces (place.next c) leading found cs
    | .plain =>
      if c = '/' && cs.head? = some '/' then found
      else
        let found :=
          if c = '\x7b' then { found with opens := found.opens + 1 }
          else if c = '\x7d' then
            { found with
              closes := found.closes + 1
              leading := if leading then found.leading + 1 else found.leading }
          else found
        countBraces (place.next c) (leading && (c = '\x7d' || Text.isSpace c)) found cs

def bracesOf (line : List Char) : Braces :=
  countBraces .plain true ⟨0, 0, 0⟩ line

/-! ## Breaking lines -/

def separators : List (List Char × Nat) :=
  [(", ".toList, 1), (" + ".toList, 0), (" - ".toList, 0), (" * ".toList, 0), (" / ".toList, 0),
    (" && ".toList, 0), (" || ".toList, 0), (" ? ".toList, 0), (" : ".toList, 0)]

/-- The places of a separator in a line, counted in characters from `pos` on; the next `skip` characters
belong to the last one found. -/
def occurrences (separator : List Char) (pos skip : Nat) : List Char → List Nat
  | [] => []
  | c :: cs =>
    match skip with
    | skip + 1 => occurrences separator (pos + 1) skip cs
    | 0 =>
      if separator.isPrefixOf (c :: cs) then pos :: occurrences separator (pos + 1) (separator.length - 1) cs
      else occurrences separator (pos + 1) 0 cs

/-- The literals of a line that are closed, each by the places of its two quotes; `opened` is where the
literal that the scan is in starts. -/
def literals (place : Place) (opened pos : Nat) : List Char → List (Nat × Nat)
  | [] => []
  | c :: cs =>
    let next := place.next c
    match place, next with
    | .plain, .literal .. => literals next pos (pos + 1) cs
    | .literal .., .plain => (opened, pos) :: literals next opened (pos + 1) cs
    | _, _ => literals next opened (pos + 1) cs

def breaks (line : List Char) (room : Nat) : List Nat :=
  let closed := literals .plain 0 0 line
  let candidates := separators.flatMap fun (separator, place) =>
    (occurrences separator 0 0 line).map (· + place)
  candidates.filter fun n =>
    0 < n && Text.byteLength (line.take n) < room && n + 1 < line.length &&
      !closed.any fun (first, last) => first < n && n < last

def breakPoint? (line : List Char) (room : Nat) : Option Nat :=
  (breaks line room).max?

theorem lt_length_of_breakPoint?_eq_some {line : List Char} {room n : Nat}
    (h : breakPoint? line room = some n) : n + 1 < line.length := by
  have hmem : n ∈ breaks line room := List.max?_mem h
  simp only [breaks, List.mem_filter, Bool.and_eq_true, decide_eq_true_eq] at hmem
  exact hmem.2.1.2

def wrap (column : Nat) (further head line : List Char) : List String :=
  let room := column - Text.byteLength head
  if Text.byteLength line < room then [String.ofList (head ++ line)]
  else
    match h : breakPoint? line room with
    | none => [String.ofList (head ++ line)]
    | some n =>
      let first := Text.dropWhileEnd Text.isSpace (line.take n)
      let rest := (line.drop (n + 1)).dropWhile Text.isSpace
      have : rest.length < line.length := by
        have hn : n + 1 < line.length := lt_length_of_breakPoint?_eq_some h
        have hle : rest.length ≤ (line.drop (n + 1)).length := (List.dropWhile_suffix _).length_le
        rw [List.length_drop] at hle
        omega
      String.ofList (head ++ first) :: wrap column further further rest
termination_by line.length

/-! ## Writing -/

def blank (w : Writer) : Writer :=
  { w with lines := w.lines ++ [""] }

def line (w : Writer) (text : String) : Writer :=
  let text := (Text.trim text).toList
  if text.isEmpty then w.blank
  else
    let braces := bracesOf text
    let level := w.level - braces.leading
    { w with
      level := level + braces.opens - (braces.closes - braces.leading)
      lines := w.lines ++ wrap w.column (indent (level + 1)) (indent level) text }

def writeLines (w : Writer) (texts : List String) : Writer :=
  texts.foldl line w

def write (w : Writer) (text : String) : Writer :=
  w.writeLines (Text.lines text)

def writeAll (w : Writer) (texts : List String) : Writer :=
  texts.foldl write w

def endLines (lines : List String) : String :=
  String.join (lines.map (· ++ "\n"))

def text (w : Writer) : String :=
  endLines w.lines

end Writer

end DeviceForge
