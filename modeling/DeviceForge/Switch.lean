import DeviceForge.Code
/-!
# Switch statements

The cases of a switch statement, each with the text up to the next label.
-/

namespace DeviceForge.Switch

/-- The head of a switch, from its parenthesis to the brace that opens its block, and what follows it;
given what follows the word `switch`. -/
def head? : List Token → Option (List Token × List Token)
  | paren :: ts =>
    if paren.text = "(" then do
      let (inside, close, rest) ← Code.enclosed? .round ts
      match rest with
      | brace :: rest => if brace.text = "\x7b" then some (paren :: inside ++ [close, brace], rest) else none
      | [] => none
    else none
  | [] => none

def find? (before : List Token) : List Token → Option (List Token × List Token)
  | [] => none
  | t :: ts =>
    match if t.text = "switch" then head? ts else none with
    | some (head, rest) => some (head.reverse ++ t :: before, rest)
    | none => find? (t :: before) ts

def lastStart : List Token → Nat
  | [] => 0
  | t :: before => Code.width before + t.lead.utf8ByteSize

/-- What a block of cases is made of. -/
inductive Item where
  | label (lead id : String)
  | otherwise (token : Token)
  | plain (token : Token)
  deriving DecidableEq, Repr

/-- The label that the tokens start with, given what follows the word `case`: its id, without spaces, and
how many tokens it takes with its colon. -/
def label? (ts : List Token) : Option (String × Nat) :=
  (ts.findIdx? (·.text = ":")).map fun n =>
    (String.join (Text.words (Code.span (ts.take n))), n + 1)

def items (skip plain : Nat) (before : List Token) : List Token → Except Error (List Item)
  | [] => .ok []
  | t :: ts =>
    match skip, plain with
    | skip + 1, plain => items skip plain (t :: before) ts
    | 0, plain + 1 => (items 0 plain (t :: before) ts).map (.plain t :: ·)
    | 0, 0 =>
      if t.text = "switch" then
        match head? ts with
        | none => (items 0 0 (t :: before) ts).map (.plain t :: ·)
        | some (head, rest) =>
          match Code.enclosed? .curly rest with
          | none => .error (.unbalanced .curly (lastStart (head.reverse ++ t :: before)))
          | some (inside, _, _) =>
            (items 0 (head.length + inside.length + 1) (t :: before) ts).map (.plain t :: ·)
      else if t.text = "case" then
        match label? ts with
        | none => (items 0 0 (t :: before) ts).map (.plain t :: ·)
        | some (id, n) => (items n 0 (t :: before) ts).map (.label t.lead id :: ·)
      else if t.text = "default" && ts.head?.any (·.text = ":") then
        (items 0 0 (t :: before) ts).map (.otherwise t :: ·)
      else (items 0 0 (t :: before) ts).map (.plain t :: ·)

def Item.isLabel : Item → Bool
  | .label .. => true
  | _ => false

def Item.isOtherwise : Item → Bool
  | .otherwise _ => true
  | _ => false

def Item.lead : Item → String
  | .label lead _ => lead
  | .otherwise t => t.lead
  | .plain t => t.lead

def Item.spelling : Item → String
  | .label .. => ""
  | .otherwise t => t.spelling
  | .plain t => t.spelling

def spell (is : List Item) : String :=
  String.join (is.map Item.spelling)

/-- The body of a label: the items up to the next label, or, behind the last label, up to the last
`default`, or to the end of the block. -/
def body (tail : String) (is : List Item) : String :=
  let own := is.takeWhile (!·.isLabel)
  match is.dropWhile (!·.isLabel) with
  | next :: _ => Text.trim (spell own ++ next.lead)
  | [] =>
    match own.reverse.dropWhile (!·.isOtherwise) with
    | stop :: before => Text.trim (spell before.reverse ++ stop.lead)
    | [] => Text.trim (spell own ++ tail)

def bodies (tail : String) : List Item → List (String × String)
  | [] => []
  | .label _ id :: is => (id, body tail is) :: bodies tail is
  | _ :: is => bodies tail is

def firstOfEach (seen : List String) : List (String × String) → List (String × String)
  | [] => []
  | (id, text) :: rest =>
    if seen.contains id then firstOfEach seen rest else (id, text) :: firstOfEach (id :: seen) rest

def cases (s : String) (start : Nat) : Except Error (List (String × String)) :=
  let c := Code.ofString s
  let n := c.indexAt start
  match find? (c.tokens.take n).reverse (c.tokens.drop n) with
  | none => .error (.missingSwitch start)
  | some (before, rest) =>
    match Code.block? .curly rest with
    | none => .error (.unbalanced .curly (lastStart before))
    | some (block, _) => do
      let is ← items 0 0 [] block.tokens
      return firstOfEach [] (bodies block.tail is)

end DeviceForge.Switch
