import DeviceForge.Code
/-!
# Parameter lists

The names of a method's parameters, read off its definition or a call.
-/

namespace DeviceForge.Signature

/-- The names of the parameters in the tokens between the parentheses; `current` is the last word of the
parameter at hand. A single `void` stands for no parameters. -/
def names? (done : List String) (current : Option String) : List Token → Option (List String)
  | [] =>
    match current with
    | some name => if done.isEmpty && name = "void" then some [] else some (done ++ [name])
    | none => if done.isEmpty then some [] else none
  | t :: ts =>
    if t.text = "," then
      match current with
      | some name => names? (done ++ [name]) none ts
      | none => none
    else if t.isIdentifier then names? done (some t.text) ts
    else if t.text = "*" || t.text = "&" || t.text = "[" || t.text = "]" then names? done current ts
    else none

/-- The parameters of the first name in the tokens with a parameter list behind it; any name will do where
`method` is left open. -/
def find? (method : Option String) : List Token → Option (List String)
  | [] => none
  | t :: ts =>
    let named := t.isIdentifier && method.all (· = t.text)
    let found :=
      match ts with
      | paren :: rest =>
        if named && paren.text = "(" then
          (Code.enclosed? .round rest).bind fun (inside, _, _) => names? [] none inside
        else none
      | [] => none
    match found with
    | some names => some names
    | none => find? method ts

def parameters (s : String) (method : Option String) : List String :=
  (find? method (Code.ofString s).tokens).getD []

end DeviceForge.Signature
