import DeviceForge.Token
/-!
# Spaces around operators

A binary operator has one space on each side, and an operator in a unary place has none behind it.
-/

namespace DeviceForge.Layout

inductive Role where
  | plain
  | unary
  | binary
  deriving DecidableEq, Repr

def spacedOperators : List String :=
  ["=", "==", "!=", "<=", ">=", "<", ">", "+=", "-=", "*=", "/=", "&&", "||", "+", "-", "*", "/", "%"]

def operandWords : List String :=
  ["return", "case", "double", "int", "float", "long", "short", "char", "unsigned", "void", "register"]

def opensOperand : Option Token → Bool
  | none => true
  | some t =>
    if t.kind = .punct then !(t.text = ")" || t.text = "]" || t.text = "++" || t.text = "--")
    else operandWords.contains t.text

def roleOf (previous : Option Token) (t : Token) : Role :=
  if t.kind = .punct && spacedOperators.contains t.text then
    if (t.text = "-" || t.text = "+" || t.text = "*") && opensOperand previous then .unary else .binary
  else .plain

def stripGap (gap : String) : String :=
  let lines := Text.splitAtChars (· == '\n') gap.toList
  let stripped := lines.dropLast.map (Text.dropWhileEnd fun c => c = ' ' || c = '\t')
  "\n".intercalate ((stripped ++ lines.getLast?.toList).map String.ofList)

def spaced (left right : Role) (gap : String) : String :=
  if gap.toList.contains '\n' then stripGap gap
  else if left = .binary || right = .binary then " "
  else if left = .unary then ""
  else gap

/-- Spaces tokens; `left` is the role of the token before them, if there is one, and `previous` the last
token that is no comment. -/
def spaceTokens (left : Option Role) (previous : Option Token) : List Token → List String
  | [] => []
  | t :: ts =>
    let role := if t.isComment then .plain else roleOf previous t
    let gap :=
      match left with
      | none => t.lead
      | some left => spaced left role t.lead
    gap :: t.text :: spaceTokens (some role) (if t.isComment then previous else some t) ts

def spaceOperators (cs : List Char) : List Char :=
  let (tokens, tail) := Token.scan cs
  (String.join (spaceTokens none none tokens) ++ stripGap tail).toList

end DeviceForge.Layout
