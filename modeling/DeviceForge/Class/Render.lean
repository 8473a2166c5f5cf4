import DeviceForge.Class.Generator
/-!
# Text of the classes

The two classes of a device as text: members first, then the constructor and the methods of the phases.
-/

namespace DeviceForge

open Parameter

structure ClassTexts where
  name : String
  model : String
  device : String
  deriving DecidableEq, Repr

namespace Classes

/-! ## Parts of a class -/

def usings : List String :=
  ["using System;", "using SpiceSharp.Circuits;", "using SpiceSharp.Diagnostics;",
    "using SpiceSharp.Parameters;"]

def openClass (head : String) (w : Writer) : Writer :=
  ((w.writeAll usings).blank).writeLines ["namespace SpiceSharp.Components", "\x7b", head, "\x7b"]

def closeClass (w : Writer) : Writer :=
  w.writeLines ["\x7d", "\x7d"]

def summary (text : String) (parameters : List (String × String)) (w : Writer) : Writer :=
  (w.writeLines ["/// <summary>", s!"/// {text}", "/// </summary>"]).writeLines
    (parameters.map fun (name, description) => s!"/// <param name=\"{name}\">{description}</param>")

def group (title : String) (members : List String) (w : Writer) : Writer :=
  if members.isEmpty then w else (summary title [] w.blank).writeAll members

def parameterTexts (a : Accessors) : List String :=
  (a.declarations.map (·.2) ++ a.methods).map Declaration.render

def ownProperty (type name : String) : String :=
  s!"public {type} {name} \x7b get; private set; \x7d"

def uses (name : String) (before : List Token) : List Token → Bool
  | [] => false
  | t :: ts => (t.text = name && !followsMember before) || uses name (t :: before) ts

def aliases (code : String) : List String :=
  let tokens := (Code.ofString code).tokens
  let used (name : String) : Bool := uses name [] tokens
  let real := used "rstate"
  let complex := used "cstate"
  (if used "state" || real || complex then ["var state = ckt.State;"] else []) ++
    (if real then ["var rstate = state.Real;"] else []) ++
    (if complex then ["var cstate = state.Complex;"] else []) ++
    (if used "method" then ["var method = ckt.Method;"] else [])

def writeMethod (method : ClassMethod) (code : String) (locals : Table LocalType) (head : List String)
    (w : Writer) : Writer :=
  let w := summary method.summary method.parameters w.blank
  let w := w.writeLines [method.signature, "\x7b"]
  let w := w.writeLines (aliases code)
  let w := w.writeLines (locals.map fun (name, type) =>
    let type := type.className
    s!"{type} {name};")
  let w := if head.isEmpty then w else w.blank.writeLines head
  let w := if Text.isEmptyLine code then w else w.blank.write code
  w.line "\x7d"

def writeConstructor (className subject arguments : String) (w : Writer) : Writer :=
  let w := summary "Constructor" [("name", s!"The name of the {subject}")] w.blank
  w.writeLines [s!"public {className}(string name) : base({arguments})", "\x7b", "\x7d"]

/-! ## The classes -/

def modelText (c : Classes) (column : Nat) : String :=
  let name := c.name
  let w := openClass s!"public class {name}Model : CircuitModel" (Writer.ofColumn column)
  let w := group "Parameters" (parameterTexts c.model) w
  let w := group "Shared parameters" (c.shared.map fun (name, type) => ownProperty type.className name) w
  let w := group "Extra variables" (c.modelExtra.map (ownProperty "double")) w
  let w := writeConstructor s!"{name}Model" "model" "name" w
  let w := c.methods.foldl (fun w method =>
    match method.model with
    | some code => if Text.isEmptyLine code then w else writeMethod method code method.modelLocals [] w
    | none => w) w
  (closeClass w).text

def integers (c : Classes) : List String :=
  (c.nodes ++ c.statesVariable.toList).filter fun name =>
    !c.device.owned.contains name && !c.deviceExtra.contains name

def deviceText (c : Classes) (column : Nat) : String :=
  let name := c.name
  let pins := c.pins.length
  let w := openClass s!"public class {name} : CircuitComponent" (Writer.ofColumn column)
  let w := summary "Gets or sets the device model" [] w
  let w := w.line s!"public {name}Model Model \x7b get; set; \x7d"
  let w := group "Parameters" (parameterTexts c.device) w
  let w := group "Extra variables" (c.deviceExtra.map (ownProperty "double")) w
  let w := group "Nodes and states" (c.integers.map (ownProperty "int")) w
  let w := group "Constants" (c.constants.map fun (name, offset) =>
    s!"private const int {name} = {offset};") w
  let w := writeConstructor name "device" s!"name, {pins}" w
  let w := summary "Get the model" [] w.blank
  let w := w.line "public override CircuitModel GetModel() => Model;"
  let w := c.methods.foldl (fun w method =>
    writeMethod method method.device method.deviceLocals method.deviceHead w) w
  (closeClass w).text

def texts (c : Classes) (column : Nat) : ClassTexts :=
  ⟨c.name, c.modelText column, c.deviceText column⟩

end Classes

/-! ## Files -/

namespace ClassTexts

def ofSources (sources : Device.Sources) (o : Options) : Recording ClassTexts := do
  let d ← Recording.ofResult.liftExcept (Device.ofSources sources)
  let c ← Classes.ofDevice d o
  return c.texts o.wrapColumn

def files (t : ClassTexts) : List (String × String) :=
  let name := t.name
  [(s!"{name}Model.cs", t.model), (s!"{name}.cs", t.device)]

/-- The paths and texts of the files in an empty folder; a file in the place of the folder, or a name that no
file can be written under, is an error. -/
def place (t : ClassTexts) (folder : String) (blocked : Bool) : Except Error (List (String × String)) :=
  if blocked then .error (.unwritable folder .exists)
  else
    let target : Folder := ⟨folder, true, [], []⟩
    t.files.mapM fun (file, text) =>
      match target.writeFault? file with
      | some fault => .error (.unwritable (target.join file) fault)
      | none => .ok (target.join file, text)

end ClassTexts

end DeviceForge
