import DeviceForge.Circuit.Matrix
import DeviceForge.Device
import DeviceForge.Iteration
/-!
# Setup

The entry point that prepares a device: initial values of parameters, matrix elements, nodes and
states.
-/

namespace DeviceForge

open Parameter Circuit

structure Setup where
  iteration : Iteration
  statesArgument : String
  modelDefaults : Table String
  deviceDefaults : Table String
  /-- The places of the matrix elements by their pointers. -/
  matrix : Table Cell
  nodes : Names
  createdNodes : Names
  statesVariable : Option String
  statesCount : Option String
  deriving DecidableEq, Repr

namespace Setup

/-! ## Nodes -/

def nodePattern : Pattern :=
  .ofString ("$err = CKTmkVolt ( $ckt , & $tmp , ...args ) ; if ( $err ) return ( $err ) ; " ++
    "...node = $tmp -> number ;")

def createNodes (method : String) : Names × String :=
  nodePattern.replaceWith (fun created m =>
    let node := m.text "node"
    match ((Code.ofString node).tokens.filter Token.isIdentifier).getLast? with
    | none => (created, none)
    | some field => (created.add field.text, some s!"{node} = CreateNode(ckt).Index;")) [] method

def statesPlace : Nat := 3

def ofMethod (method name : String) : Except Error (Setup × List Diagnostic) := do
  let some statesArgument := (Signature.parameters method (some name))[statesPlace]?
    | throw (.missingArgument name statesPlace)
  let (createdNodes, method) := createNodes method
  let (iteration, findings) ← Iteration.ofMethod method name
  return (⟨iteration, statesArgument, [], [], [], [], createdNodes, none, none⟩, findings)

def ofDevice (d : Device) : Except Error (Setup × List Diagnostic) := do
  let method ← d.definition .setup
  ofMethod method ((d.entryPoint? .setup).getD "")

def pins (s : Setup) : Names :=
  s.nodes.filter (!s.createdNodes.contains ·)

/-! ## Initial values -/

def defaultPatterns : List Pattern :=
  [.ofString "if ( ! $var . Given ) \x7b $var . Value = ...value ; \x7d",
    .ofString "if ( ! $var . Given ) $var . Value = ...value ;"]

def literal? (value : String) : Option String :=
  match (Code.ofString value).tokens with
  | [t] =>
    match t.kind with
    | .identifier =>
      let lower := Text.lower t.text
      if lower = "true" || lower = "false" then some lower else none
    | .number | .str => some t.text
    | _ => none
  | [sign, t] =>
    if (sign.text = "-" || sign.text = "+") && t.kind = .number then some (sign.text ++ t.text) else none
  | _ => none

/-- What has been found about initial values. -/
structure Defaults where
  values : Table String
  findings : List Diagnostic

/-- Takes one initial value out of the code. A value that its field has anyway is not kept, and one that is
no literal stays in the code. -/
def liftDefault (a : Accessors) (found : Defaults) (m : Match) : Defaults × Option String :=
  let field := m.text "var"
  let value := Text.trim (m.text "value")
  match literal? value with
  | none => ({ found with findings := found.findings ++ [.ignoredDefault field value] }, none)
  | some literal =>
    let type := ((a.declarations.get? field).map (·.type)).getD .real
    (if type.isZero literal then found else { found with values := found.values.put field literal }, some "")

def liftDefaults (a : Accessors) (values : Table String) (code : String) : Defaults × String :=
  defaultPatterns.foldl (fun (found, code) p => p.replaceWith (liftDefault a) found code) (⟨values, []⟩, code)

/-! ## Matrix elements and states -/

def elementPatterns : List Pattern :=
  [.ofString "TSTALLOC ( $ptr , $row , $column ) ;", .ofString "TSTALLOC ( $ptr , $row , $column )"]

def addElement (s : Setup) (m : Match) : Setup :=
  let cell : Cell := ⟨m.text "row", m.text "column"⟩
  { s with
    nodes := (s.nodes.add cell.row).add cell.column
    matrix := s.matrix.put (m.text "ptr") cell }

def liftElements (s : Setup) (code : String) : Setup × String :=
  elementPatterns.foldl (fun (s, code) p => p.replaceWith (fun s m => (addElement s m, some "")) s code)
    (s, code)

def liftStates (s : Setup) (code : String) : Setup × String :=
  let states := s.statesArgument
  (Pattern.ofString s!"$var = * {states} ; * {states} += @count ;").replaceWith (fun s m =>
    ({ s with statesVariable := some (m.text "var"), statesCount := some (m.text "count") }, some "")) s code

/-! ## Code of the classes -/

def finish (s : Setup) (code : String) : String :=
  Layout.format (pointMembers (temperatures s.iteration.circuit code))

def exportModel (s : Setup) (model : Accessors) : Setup × String × List Diagnostic :=
  let (iteration, code) := s.iteration.exportModel model
  let (found, code) := liftDefaults model s.modelDefaults code
  let s := { s with iteration, modelDefaults := found.values }
  (s, s.finish code, found.findings)

def exportDevice (s : Setup) (model device : Accessors) : Setup × String × List Diagnostic :=
  let (iteration, code) := s.iteration.exportDevice model device
  let (found, code) := liftDefaults device s.deviceDefaults code
  let s := { s with iteration, deviceDefaults := found.values }
  let (s, code) := s.liftElements code
  let (s, code) := s.liftStates code
  (s, s.finish code, found.findings)

end Setup

end DeviceForge
