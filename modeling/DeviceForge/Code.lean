import DeviceForge.Token
import DeviceForge.Error
/-!
# Code

The tokens of a text without its comments: a comment is part of the lead of the token after it, or
of the tail.
-/

namespace DeviceForge

structure Code where
  tokens : List Token
  tail : String
  deriving DecidableEq, Repr

namespace Code

def foldComments (lead : String) : List Token → String → Code
  | [], tail => ⟨[], lead ++ tail⟩
  | t :: ts, tail =>
    if t.isComment then foldComments (lead ++ t.spelling) ts tail
    else
      let rest := foldComments "" ts tail
      ⟨⟨t.kind, lead ++ t.lead, t.text⟩ :: rest.tokens, rest.tail⟩

def ofString (s : String) : Code :=
  let (tokens, tail) := Token.scan s.toList
  foldComments "" tokens tail

def spell (ts : List Token) : String :=
  String.join (ts.map Token.spelling)

protected def toString (c : Code) : String :=
  spell c.tokens ++ c.tail

theorem toString_foldComments (lead : String) (ts : List Token) (tail : String) :
    (foldComments lead ts tail).toString = lead ++ spell ts ++ tail := by
  induction ts generalizing lead with
  | nil => simp [foldComments, Code.toString, spell]
  | cons t ts ih =>
    by_cases h : t.isComment
    · simp [foldComments, h, ih, spell, String.append_assoc]
    · have := ih ""
      simp only [Code.toString, spell] at this
      simp [foldComments, h, Code.toString, spell, Token.spelling, String.append_assoc] at this ⊢
      rw [this]

/-- Reading code and spelling it gives the text back, comments and blanks included. -/
@[simp]
theorem toString_ofString (s : String) : (ofString s).toString = s := by
  rw [ofString, toString_foldComments]
  apply String.toList_injective
  simpa [spell, List.flatMap_map] using Token.flatMap_spelling_scan s.toList

def span : List Token → String
  | [] => ""
  | t :: ts => t.text ++ spell ts

def width : List Token → Nat
  | [] => 0
  | t :: ts => t.size + width ts

def slice (c : Code) (first last : Nat) : String :=
  span ((c.tokens.drop first).take (last - first))

def countBefore (offset pos : Nat) : List Token → Nat
  | [] => 0
  | t :: ts => if pos + t.lead.utf8ByteSize < offset then 1 + countBefore offset (pos + t.size) ts else 0

def indexAt (c : Code) (offset : Nat) : Nat :=
  countBefore offset 0 c.tokens

/-! ## Matching brackets -/

def closingIn (b : Bracket) : Nat → List Token → Option Nat
  | _, [] => none
  | level, t :: ts =>
    if t.text = b.closing.toString then
      if level = 1 then some 0 else (closingIn b (level - 1) ts).map (· + 1)
    else if t.text = b.opening.toString then (closingIn b (level + 1) ts).map (· + 1)
    else (closingIn b level ts).map (· + 1)

/-- The tokens between an opened bracket and its match, the match and the tokens after it, given what
follows the opening bracket. -/
def enclosed? (b : Bracket) (ts : List Token) : Option (List Token × Token × List Token) := do
  let n ← closingIn b 1 ts
  let close ← ts[n]?
  return (ts.take n, close, ts.drop (n + 1))

def block? (b : Bracket) (ts : List Token) : Option (Code × List Token) :=
  (enclosed? b ts).map fun (inside, close, rest) => (⟨inside, close.lead⟩, rest)

end Code

def followsMember (before : List Token) : Bool :=
  before.head?.any Token.reachesMember

end DeviceForge
