import DeviceForge.Segment
import DeviceForge.Text.Utf8
/-!
# Braces on lines of their own

An opening brace stands alone on its line, and a closing brace is the first on its line; an `else`
behind it starts a line as well.
-/

namespace DeviceForge.Layout

def isTab (c : Char) : Bool :=
  c = ' ' || c = '\t'

def startsElse (cs : List Char) : Bool :=
  "else".toList.isPrefixOf cs && !((cs.drop 4).head?.any Text.isWordChar)

def openBrace (out rest : List Char) : List Char :=
  let out := out.dropWhile Text.isBlank
  let out := if out.isEmpty then out else '\n' :: out
  let out := '\x7b' :: out
  match rest.dropWhile isTab with
  | [] => out
  | c :: _ => if c = '\n' then out else '\n' :: out

def closeBrace (out rest : List Char) : List Char :=
  let out :=
    if (out.takeWhile (· ≠ '\n')).all Text.isBlank then out else '\n' :: out.dropWhile isTab
  let out := '\x7d' :: out
  if startsElse (rest.dropWhile Text.isBlank) then '\n' :: out else out

def skippedAfterClose (rest : List Char) : Nat :=
  if startsElse (rest.dropWhile Text.isBlank) then (rest.takeWhile Text.isBlank).length else 0

/-- Writes characters of these kinds behind `out`, which holds what has been written, last character first.
The next `skip` characters are passed over. -/
def writeBraces (skip : Nat) (out : List Char) : List Char → List Segment.Kind → List Char
  | c :: cs, kind :: kinds =>
    match skip with
    | skip + 1 => writeBraces skip out cs kinds
    | 0 =>
      if kind = .code ∧ c = '\x7b' then
        writeBraces (cs.takeWhile isTab).length (openBrace out cs) cs kinds
      else if kind = .code ∧ c = '\x7d' then
        writeBraces (skippedAfterClose cs) (closeBrace out cs) cs kinds
      else writeBraces 0 (c :: out) cs kinds
  | _, _ => out

def placeBraces (cs : List Char) : List Char :=
  (writeBraces 0 [] cs (Segment.kinds cs)).reverse

/-! ## The buffer -/

def ofByte (b : UInt8) : Char :=
  Char.ofNat b.toNat

def byteKinds (cs : List Char) : List Segment.Kind :=
  (Segment.marked cs).flatMap fun x => List.replicate x.1.utf8Size x.2

/-- The bytes of a text with its braces on lines of their own. What is looked for or written is a single byte
each time, so the bytes are taken one by one. -/
def braceBuffer (cs : List Char) : ByteArray :=
  let bytes := (String.ofList cs).toUTF8.data.toList
  let out := writeBraces 0 [] (bytes.map ofByte) (byteKinds cs)
  ⟨(out.reverse.map Char.toUInt8).toArray⟩

def placeInBuffer (cs : List Char) : List Char :=
  let buffer := braceBuffer cs
  ((String.fromUTF8? buffer).getD (Text.decode buffer.data.toList)).toList

end DeviceForge.Layout
