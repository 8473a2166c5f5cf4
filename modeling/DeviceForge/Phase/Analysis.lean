import DeviceForge.Circuit.Mode
import DeviceForge.Circuit.Stamp
import DeviceForge.Phase.Setup
/-!
# Analyses

The entry points that work on a circuit that has been set up: temperature, the loads of the analyses
and the truncation of time steps.
-/

namespace DeviceForge

open Parameter Circuit

inductive Analysis.Kind where
  | temperature
  | load
  | acLoad
  /-- The load for poles and zeros, with the argument that is the Laplace variable. -/
  | pzLoad (laplace : String)
  /-- The truncation, with the argument that is the time step. -/
  | truncate (timeStep : String)
  deriving DecidableEq, Repr

/-- What an analysis takes over from the setup: the matrix elements and the first state. -/
structure Analysis.Context where
  matrix : Table Cell
  states : String
  deriving DecidableEq, Repr

structure Analysis where
  kind : Analysis.Kind
  context : Analysis.Context
  iteration : Iteration
  deriving DecidableEq, Repr

def Setup.context (s : Setup) : Analysis.Context :=
  ⟨s.matrix, s.statesVariable.getD ""⟩

namespace Analysis

def Context.empty : Context :=
  ⟨[], ""⟩

def complexState : String := "cstate"

def realState : String := "rstate"

/-! ## Reading -/

def ofMethod (kind : Kind) (context : Context) (method name : String) :
    Except Error (Analysis × List Diagnostic) := do
  let (iteration, findings) ← Iteration.ofMethod method name
  return (⟨kind, context, iteration⟩, findings)

def temperature (context : Context) (method name : String) : Except Error (Analysis × List Diagnostic) :=
  ofMethod .temperature context method name

def load (context : Context) (method name : String) : Except Error (Analysis × List Diagnostic) :=
  ofMethod .load context method name

def acLoad (context : Context) (method name : String) : Except Error (Analysis × List Diagnostic) :=
  ofMethod .acLoad context method name

def pzLoad (context : Context) (method name : String) : Except Error (Analysis × List Diagnostic) :=
  ofMethod (.pzLoad ((argument? method "SPcomplex").getD "s")) context method name

def truncate (context : Context) (method name : String) : Except Error (Analysis × List Diagnostic) :=
  ofMethod (.truncate ((Signature.parameters method (some name))[2]?.getD "timeStep")) context method name

def ofDevice (d : Device) (e : EntryPoint)
    (read : String → String → Except Error (Analysis × List Diagnostic)) :
    Except Error (Analysis × List Diagnostic) := do
  let method ← d.definition e
  read method ((d.entryPoint? e).getD "")

/-! ## Code of the classes -/

def frequencies (circuit code : String) : String :=
  (Pattern.ofString s!"{circuit} -> CKTomega").replace
    (fun _ => some s!"{complexState}.Laplace.Imaginary") code

def laplaceParts (argument code : String) : String :=
  [("real", "Real"), ("imag", "Imaginary")].foldl (fun code (part, new) =>
    (Pattern.ofString s!"{argument} -> {part}").replace
      (fun _ => some s!"{complexState}.Laplace.{new}") code) code

def truncationErrors (states timeStep code : String) : String :=
  (Pattern.ofString "CKTterr ( ...slot , $ckt , ...timestep )").replace (fun m =>
    let slot := m.text "slot"
    let ckt := m.text "ckt"
    some s!"method.Terr({states} + {slot}, {ckt}, ref {timeStep})") code

def opensOperand (before : List Token) : Bool :=
  match before with
  | [] => true
  | t :: _ => !(t.isIdentifier || t.text = ")" || t.text = "]") && t.kind ≠ .number

def plainTimeStep (timeStep code : String) : String :=
  (Pattern.ofString s!"* {timeStep}").replace
    (fun m => if opensOperand m.before then some timeStep else none) code

def reachCircuit (a : Analysis) (code : String) : String :=
  let circuit := a.iteration.circuit
  let states (code : String) : String := Circuit.states circuit "state" a.context.states code
  match a.kind with
  | .temperature => temperatures circuit code
  | .load => modes circuit (temperatures circuit (solutions circuit realState (states code)))
  | .acLoad => modes circuit (temperatures circuit (frequencies circuit (states code)))
  | .pzLoad laplace => modes circuit (temperatures circuit (laplaceParts laplace (states code)))
  | .truncate timeStep =>
    temperatures circuit
      (plainTimeStep timeStep (truncationErrors a.context.states timeStep (states code)))

def finish (code : String) : String :=
  Layout.format (pointMembers code)

def exportModel (a : Analysis) (model : Accessors) : Analysis × String :=
  let (iteration, code) := a.iteration.exportModel model
  let a := { a with iteration }
  (a, finish (a.reachCircuit code))

def reachElements (a : Analysis) (target : String) (imaginary : Bool) (code : String) : Analysis × String :=
  let (extra, code) := elements a.context.matrix target imaginary a.iteration.deviceExtra code
  ({ a with iteration := { a.iteration with deviceExtra := extra } }, code)

def exportDevice (a : Analysis) (model device : Accessors) : Analysis × String :=
  let (iteration, code) := a.iteration.exportDevice model device
  let a := { a with iteration }
  let code := a.reachCircuit code
  let complex (laplace : Bool) : Analysis × String :=
    let (a, code) := a.reachElements complexState true code
    (a, Layout.format (Stamp.merge complexState laplace (finish code)))
  match a.kind with
  | .load =>
    let (a, code) := a.reachElements realState false code
    (a, finish code)
  | .acLoad => complex false
  | .pzLoad _ => complex true
  | .temperature | .truncate _ => (a, finish code)

end Analysis

end DeviceForge
