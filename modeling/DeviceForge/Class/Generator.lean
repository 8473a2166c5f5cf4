import DeviceForge.Class.Options
import DeviceForge.Phase.Analysis
import DeviceForge.Phase.StateConstant
/-!
# Classes of a device

What the two classes of a device are made of: the accessors of its parameters and the methods that
its phases give, run in a fixed order.
-/

namespace DeviceForge

open Parameter

/-- A method of the two classes. -/
structure ClassMethod where
  summary : String
  signature : String
  parameters : List (String × String)
  /-- The body in the model class, if the method is there. -/
  model : Option String
  device : String
  modelLocals : Table LocalType
  deviceLocals : Table LocalType
  deviceHead : List String
  deriving DecidableEq, Repr

/-- All that is known about the classes of a device. -/
structure Classes where
  name : String
  model : Accessors
  device : Accessors
  /-- Variables that the model computes and its devices read. -/
  shared : Table LocalType
  modelExtra : Names
  deviceExtra : Names
  /-- The nodes bound to the pins, in the order of the pins. -/
  pins : Names
  nodes : Names
  statesVariable : Option String
  constants : Table Nat
  methods : List ClassMethod
  deriving DecidableEq, Repr

namespace ClassMethod

def ofIteration (summary name : String) (it : Iteration) : ClassMethod :=
  ⟨summary, s!"public override void {name}(Circuit ckt)", [("ckt", "The circuit")], none, "",
    it.locals.model, it.locals.device, []⟩

end ClassMethod

def Recording.ofResult {α : Type} (result : Except Error (α × List Diagnostic)) : Recording α := do
  let (value, findings) ← liftExcept result
  record findings
  return value
where
  liftExcept {β : Type} (result : Except Error β) : Recording β :=
    match result with
    | .ok value => pure value
    | .error e => throw e

namespace Classes

def ofAccessors (name : String) (model device : Accessors) : Classes :=
  ⟨name, model, device, [], [], [], [], [], none, [], []⟩

/-! ## Merging phases -/

def addShared (shared : Table LocalType) (entry : String × LocalType) : Except Error (Table LocalType) :=
  match shared.get? entry.1 with
  | none => .ok (shared ++ [entry])
  | some type =>
    if type = entry.2 then .ok shared
    else .error (.sharedConflict entry.1 type.className entry.2.className)

def absorb (c : Classes) (it : Iteration) : Except Error Classes := do
  let shared ← it.locals.shared.foldlM addShared c.shared
  return { c with
    shared
    modelExtra := c.modelExtra.addAll it.modelExtra
    deviceExtra := c.deviceExtra.addAll it.deviceExtra }

def addMethod (c : Classes) (it : Iteration) (method : ClassMethod) : Except Error Classes := do
  let c ← c.absorb it
  return { c with methods := c.methods ++ [method] }

/-! ## Setup -/

def setupHead (s : Setup) : List String :=
  let pins := s.pins
  let nodes :=
    if pins.isEmpty then []
    else
      ["// Allocate nodes", "var nodes = BindNodes(ckt);"] ++
        pins.mapIdx fun i pin => s!"{pin} = nodes[{i}].Index;"
  match s.statesVariable with
  | none => nodes
  | some states =>
    let count := s.statesCount.getD "1"
    nodes ++ (if nodes.isEmpty then [] else [""]) ++
      ["// Allocate states", s!"{states} = ckt.State.GetState({count});"]

def runSetup (c : Classes) (d : Device) (shown : Bool) : Recording (Classes × Setup) := do
  let s ← Recording.ofResult (Setup.ofDevice d)
  let (s, modelCode, findings) := s.exportModel c.model
  record findings
  let (s, deviceCode, findings) := s.exportDevice c.model c.device
  record findings
  let c ← Recording.ofResult.liftExcept (c.absorb s.iteration)
  let c := { c with pins := s.pins, nodes := s.nodes, statesVariable := s.statesVariable }
  let method := { ClassMethod.ofIteration "Setup the device" "Setup" s.iteration with
    deviceHead := setupHead s
    model := some modelCode
    device := deviceCode }
  return (if shown then { c with methods := c.methods ++ [method] } else c, s)

/-! ## Analyses -/

def methodTitle : Analysis.Kind → String × String
  | .temperature => ("Do temperature-dependent calculations", "Temperature")
  | .load => ("Load the device", "Load")
  | .acLoad | .pzLoad _ => ("Load the device for AC analysis", "AcLoad")
  | .truncate _ => ("Truncate the timestep", "Truncate")

/-- The method of an analysis with its code. The truncation has the time step as a second parameter, and
is a method of the device only. -/
def methodOf (a : Analysis) (model device : String) : ClassMethod :=
  let (summary, name) := methodTitle a.kind
  let method := { ClassMethod.ofIteration summary name a.iteration with model := some model, device }
  match a.kind with
  | .truncate timeStep =>
    { method with
      signature := s!"public override void Truncate(Circuit ckt, ref double {timeStep})"
      parameters := method.parameters ++ [(timeStep, "The timestep")]
      model := none }
  | _ => method

def runAnalysis (c : Classes) (result : Except Error (Analysis × List Diagnostic)) : Recording Classes := do
  let a ← Recording.ofResult result
  let (a, modelCode) :=
    match a.kind with
    | .truncate _ => (a, "")
    | _ => a.exportModel c.model
  let (a, deviceCode) := a.exportDevice c.model c.device
  Recording.ofResult.liftExcept (c.addMethod a.iteration (methodOf a modelCode deviceCode))

/-! ## Finishing -/

def setInitials (a : Accessors) (values : Table String) : Accessors :=
  values.foldl (fun a (field, value) => (a.setInitial field value).1) a

def applyDefaults (c : Classes) (s : Setup) : Classes :=
  { c with model := setInitials c.model s.modelDefaults, device := setInitials c.device s.deviceDefaults }

def settleExtras (c : Classes) (setup : Option Setup) : Classes × List Diagnostic :=
  let deviceExtra := c.deviceExtra.filter fun name =>
    !c.device.owned.contains name && !c.nodes.contains name && !c.constants.has name &&
      c.statesVariable ≠ some name && !setup.any (·.matrix.has name)
  let modelExtra := c.modelExtra.filter fun name =>
    !c.model.owned.contains name && !c.shared.has name
  ({ c with deviceExtra, modelExtra },
    modelExtra.map (.unresolvedMember .model) ++ deviceExtra.map (.unresolvedMember .device))

/-! ## Running the phases -/

def accessors (d : Device) (table : Table Descriptor) (setter getter : EntryPoint) : Recording Accessors := do
  let read (e : EntryPoint) (f : String → String → Except Error Accessor) : Except Error (Option Accessor) :=
    match d.entryPoint? e with
    | none => .ok none
    | some name => do return some (← f (← d.definition e) name)
  let set ← Recording.ofResult.liftExcept (read setter Accessor.setter)
  let get ← Recording.ofResult.liftExcept (read getter Accessor.getter)
  Recording.ofResult (Accessors.ofAccessors set get table)

def complexSource? (choice : ComplexSource) (ac pz : Bool) : Option ComplexSource :=
  match ac, pz with
  | true, true => some choice
  | true, false => some .acLoad
  | false, true => some .pzLoad
  | false, false => none

def readConstants (c : Classes) (d : Device) (setup : Option Setup) : Except Error Classes :=
  match setup.bind (·.statesVariable) with
  | none => .ok c
  | some states => do
    let constants := StateConstant.ofText (← d.definitions) states
    let owned := c.device.owned.addAll constants.keys
    return { c with constants, device := { c.device with owned } }

/-- Runs the selected phases that a device provides. The loads and the truncation need the setup, so it is
run for them as well. -/
def runPhases (c : Classes) (d : Device) (o : Options) : Recording (Classes × Option Setup) := do
  let runs (p : Phase) : Bool := o.phases.has p && (d.entryPoint? p.entryPoint).isSome
  let complex := complexSource? o.complexSource (runs .acLoad) (runs .pzLoad)
  let shown := o.phases.has .setup
  let (c, setup) ←
    if shown || runs .load || complex.isSome || runs .truncate then do
      let (c, s) ← c.runSetup d shown
      pure (c, some s)
    else pure (c, none)
  let c ← Recording.ofResult.liftExcept (c.readConstants d setup)
  let c ← if runs .temperature then
      c.runAnalysis (Analysis.ofDevice d .temperature (Analysis.temperature .empty))
    else pure c
  match setup with
  | none => return (c, none)
  | some s => do
    let context := s.context
    let c ← if runs .load then c.runAnalysis (Analysis.ofDevice d .load (Analysis.load context)) else pure c
    let c ← match complex with
      | some .acLoad => c.runAnalysis (Analysis.ofDevice d .acLoad (Analysis.acLoad context))
      | some .pzLoad => c.runAnalysis (Analysis.ofDevice d .pzLoad (Analysis.pzLoad context))
      | none => pure c
    let c ← if runs .truncate then
        c.runAnalysis (Analysis.ofDevice d .trunc (Analysis.truncate context))
      else pure c
    return (c.applyDefaults s, some s)

def ofDevice (d : Device) (o : Options) : Recording Classes := do
  let lift {β : Type} (result : Except Error β) : Recording β := Recording.ofResult.liftExcept result
  let deviceText ← lift (d.declaration "IFparm" (some d.info.parameterTable))
  let modelText ← lift (d.declaration "IFparm" (some d.info.modelParameterTable))
  let deviceTable ← Recording.ofResult (readTable deviceText)
  let modelTable ← Recording.ofResult (readTable modelText)
  let model ← accessors d modelTable .modelParam .modelAsk
  let device ← accessors d deviceTable .param .ask
  let (c, setup) ← (ofAccessors (Text.upper d.info.name) model device).runPhases d o
  let c := { c with
    model := c.model.finishMethods d.info.name c.statesVariable
    device := c.device.finishMethods d.info.name c.statesVariable }
  let (c, findings) := c.settleExtras setup
  record findings
  return c

end Classes

end DeviceForge
