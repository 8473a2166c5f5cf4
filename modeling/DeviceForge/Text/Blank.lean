/-!
# Blanks, lines and words

Two classes of characters separate things.
-/

namespace DeviceForge.Text

/-! ## Character classes -/

def isBlank (c : Char) : Bool :=
  c = ' ' || c = '\t' || c = '\n' || c = '\x0c' || c = '\r'

def isSpace (c : Char) : Bool :=
  let n := c.toNat
  (9 ≤ n && n ≤ 13) || n = 0x20 || n = 0x85 || n = 0xA0 || n = 0x1680 || (0x2000 ≤ n && n ≤ 0x200A) ||
    n = 0x2028 || n = 0x2029 || n = 0x202F || n = 0x205F || n = 0x3000

theorem isSpace_of_isBlank {c : Char} (h : isBlank c = true) : isSpace c = true := by
  simp only [isBlank, Bool.or_eq_true, decide_eq_true_eq] at h
  rcases h with (((rfl | rfl) | rfl) | rfl) | rfl <;> decide

def isWordChar (c : Char) : Bool :=
  c.isAlphanum || c = '_'

/-! ## Trimming -/

def dropWhileEnd (p : Char → Bool) (cs : List Char) : List Char :=
  (cs.reverse.dropWhile p).reverse

def trim (s : String) : String :=
  String.ofList (dropWhileEnd isSpace (s.toList.dropWhile isSpace))

def trimStart (s : String) : String :=
  String.ofList (s.toList.dropWhile isSpace)

def trimEnd (s : String) : String :=
  String.ofList (dropWhileEnd isSpace s.toList)

def isEmptyLine (s : String) : Bool :=
  s.toList.all isSpace

/-! ## Splitting -/

def splitAtChars (p : Char → Bool) : List Char → List (List Char)
  | [] => [[]]
  | c :: cs =>
    if p c then [] :: splitAtChars p cs
    else
      match splitAtChars p cs with
      | [] => [[c]]
      | piece :: pieces => (c :: piece) :: pieces

def split (sep : Char) (s : String) : List String :=
  (splitAtChars (· == sep) s.toList).map String.ofList

/-- Lines that a line feed ends, each without a carriage return before its line feed, and after them an
unended line unless it is empty. -/
def endedLines : List (List Char) → List (List Char)
  | [] => []
  | [last] => if last.isEmpty then [] else [last]
  | line :: rest =>
    (if line.getLast? = some '\r' then line.dropLast else line) :: endedLines rest

def lines (s : String) : List String :=
  (endedLines (splitAtChars (· == '\n') s.toList)).map String.ofList

theorem length_lt_of_dropWhile_eq_cons {p : Char → Bool} {cs : List Char} {c : Char} {rest : List Char}
    (h : cs.dropWhile p = c :: rest) : rest.length < cs.length := by
  have hle : (cs.dropWhile p).length ≤ cs.length := (List.dropWhile_suffix p).length_le
  rw [h, List.length_cons] at hle
  exact hle

def charWords (cs : List Char) : List (List Char) :=
  match h : cs.dropWhile isSpace with
  | [] => []
  | c :: rest =>
    have : (rest.dropWhile (!isSpace ·)).length < cs.length :=
      Nat.lt_of_le_of_lt (List.dropWhile_suffix _).length_le (length_lt_of_dropWhile_eq_cons h)
    (c :: rest.takeWhile (!isSpace ·)) :: charWords (rest.dropWhile (!isSpace ·))
termination_by cs.length

def words (s : String) : List String :=
  (charWords s.toList).map String.ofList

def squash (s : String) : String :=
  " ".intercalate (words s)

def after? (start s : String) : Option String :=
  if start.toList.isPrefixOf s.toList then some (String.ofList (s.toList.drop start.length)) else none

end DeviceForge.Text
