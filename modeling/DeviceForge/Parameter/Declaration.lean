import DeviceForge.Parameter.Descriptor
/-!
# Declarations

The members of a class that stand for a parameter, and their text.
-/

namespace DeviceForge.Parameter

inductive Declaration.Kind where
  | flagged (field : String)
  | property (field : String) (readOnly : Bool)
  | custom (field getter setter : String) (flagged : Bool)
  | setMethod (name body : String)
  | getMethod (name body : String)
  deriving DecidableEq, Repr

structure Declaration where
  id : String
  names : Names
  description : String
  type : ValueType
  kind : Declaration.Kind
  initial : Option String
  deriving DecidableEq, Repr

namespace Declaration

def ofDescriptor (d : Descriptor) (kind : Kind) : Declaration :=
  ⟨d.id, d.names, d.description, d.type, kind, none⟩

def field? (d : Declaration) : Option String :=
  match d.kind with
  | .flagged field | .property field _ | .custom field _ _ _ => some field
  | .setMethod .. | .getMethod .. => none

def isFlagged (d : Declaration) : Bool :=
  match d.kind with
  | .flagged _ | .custom _ _ _ true => true
  | _ => false

/-! ## Text -/

/-- The expression of a body that is a single statement; the statement returns it where `returns` is set,
and returns nothing otherwise. -/
def expression? (body : String) (returns : Bool) : Option String :=
  let tokens := (Code.ofString body).tokens
  match tokens.getLast? with
  | none => none
  | some last =>
    let statement := tokens.dropLast
    if last.text ≠ ";" || statement.any fun t => t.text = ";" || t.text = "\x7b" || t.text = "\x7d" then none
    else
      match statement with
      | [] => none
      | t :: ts =>
        if ["if", "for", "while", "switch", "do", "else"].contains t.text then none
        else if t.text = "return" then if returns && !ts.isEmpty then some (Code.span ts) else none
        else if returns then none
        else some (Code.span statement)

def memberLines (head body : String) (returns : Bool) : List String :=
  match expression? body returns with
  | some expr => [s!"{head} => {expr};"]
  | none => [head, "\x7b"] ++ Text.lines body ++ ["\x7d"]

def wrapper (field : String) (type : ValueType) (initial : Option String) : String :=
  let value := initial.getD ""
  let name := type.className
  if type.isNumber then s!"public Parameter {field} \x7b get; \x7d = new Parameter({value});"
  else s!"public Parameter<{name}> {field} \x7b get; \x7d = new Parameter<{name}>({value});"

def attributes (d : Declaration) : String :=
  let names := d.names.map fun name => s!"SpiceName(\"{name}\")"
  let description := d.description
  let all := ", ".intercalate (names ++ [s!"SpiceInfo(\"{description}\")"])
  s!"[{all}]"

def memberText (d : Declaration) : List String :=
  let type := d.type.className
  let id := d.id
  match d.kind with
  | .flagged field => [wrapper field d.type d.initial]
  | .property field readOnly =>
    let setter := if readOnly then "private set;" else "set;"
    [s!"public {type} {field} \x7b get; {setter} \x7d"]
  | .custom field getter setter flagged =>
    [s!"public {type} {id}", "\x7b"] ++ memberLines "get" getter true ++ memberLines "set" setter false ++
      ["\x7d", if flagged then wrapper field d.type d.initial else s!"private {type} {field};"]
  | .setMethod name body => memberLines s!"public void {name}({type} value)" body false
  | .getMethod name body => memberLines s!"public {type} {name}(Circuit ckt)" body true

def render (d : Declaration) : String :=
  "\n".intercalate (d.attributes :: d.memberText)

end Declaration

end DeviceForge.Parameter
