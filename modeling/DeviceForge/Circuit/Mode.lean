import DeviceForge.Pattern
import DeviceForge.Table
/-!
# Analysis modes

The sources test the running analysis with bits of a mode word; a class asks the state of the
simulator.
-/

namespace DeviceForge.Circuit

inductive Mode where
  | transient
  | transientPoint
  | startTransient
  | operatingPoint
  | smallSignal
  | transferCurve
  | initialConditions
  | frequency
  | startJunctions
  | startFloating
  | startFixed
  /-- Any analysis over time: the first two modes together. -/
  | time
  deriving DecidableEq, Repr

namespace Mode

def ofName? (name : String) : Option Mode :=
  match name with
  | "MODETRAN" => some .transient
  | "MODETRANOP" => some .transientPoint
  | "MODEINITTRAN" => some .startTransient
  | "MODEDCOP" => some .operatingPoint
  | "MODEINITSMSIG" => some .smallSignal
  | "MODEDCTRANCURVE" => some .transferCurve
  | "MODEUIC" => some .initialConditions
  | "MODEAC" => some .frequency
  | "MODEINITJCT" => some .startJunctions
  | "MODEINITFLOAT" => some .startFloating
  | "MODEINITFIX" => some .startFixed
  | "TIMEDOMAIN" => some .time
  | _ => none

/-- The modes that a name stands for in a test of several. Some names stand for groups, and those that no
longer matter for none. -/
def group? (name : String) : Option (List Mode) :=
  match name with
  | "MODEDC" => some [.operatingPoint, .transientPoint, .transferCurve]
  | "INITF" => some [.startFloating, .startJunctions, .startFixed, .smallSignal, .startTransient]
  | "MODEAC" | "MODEINITPRED" => some []
  | "TIMEDOMAIN" => none
  | _ => (ofName? name).map ([·])

def condition : Mode → String
  | .transient => "method != null"
  | .transientPoint => "state.Domain == CircuitState.DomainTypes.Time && state.UseDC"
  | .startTransient => "method != null && method.SavedTime == 0.0"
  | .operatingPoint => "state.UseDC"
  | .smallSignal => "state.UseSmallSignal"
  | .transferCurve => "state.Domain == CircuitState.DomainTypes.None"
  | .initialConditions => "state.UseIC"
  | .frequency => "true"
  | .startJunctions => "state.Init == CircuitState.InitFlags.InitJct"
  | .startFloating => "state.Init == CircuitState.InitFlags.InitFloat"
  | .startFixed => "state.Init == CircuitState.InitFlags.InitFix"
  | .time => "state.Domain == CircuitState.DomainTypes.Time"

def isJoined : Mode → Bool
  | .transientPoint | .startTransient => true
  | _ => false

def addAll (modes more : List Mode) : List Mode :=
  more.foldl (fun modes m => if modes.contains m then modes else modes ++ [m]) modes

def simplify (modes : List Mode) : List Mode :=
  let modes :=
    if modes.contains .transient && modes.contains .transientPoint then
      modes.filter (fun m => m ≠ .transient ∧ m ≠ .transientPoint) ++ [.time]
    else modes
  let modes := if modes.contains .startTransient then modes.filter (· ≠ .transient) else modes
  if modes.contains .initialConditions then
    modes.filter fun m => m ≠ .transientPoint ∧ m ≠ .transient
  else modes

def anyOf (modes : List Mode) : String :=
  match modes with
  | [] => "false"
  | [m] => m.condition
  | _ =>
    " || ".intercalate (modes.map fun m =>
      let c := m.condition
      if m.isJoined then s!"({c})" else c)

def barredNames? : List Token → Option (List String)
  | [] => some []
  | [t] => if t.isIdentifier then some [t.text] else none
  | t :: bar :: ts =>
    if t.isIdentifier && bar.text = "|" then (barredNames? ts).map (t.text :: ·) else none

def ofNames? (text : String) : Option (List Mode) := do
  let names ← barredNames? (Code.ofString text).tokens
  let groups ← names.mapM group?
  return groups.foldl addAll []

end Mode

def modes (circuit code : String) : String :=
  let code := (Pattern.ofString s!"( {circuit} -> CKTmode & $flag )").replace (fun m =>
    (Mode.ofName? (m.text "flag")).map fun mode =>
      let c := mode.condition
      s!"({c})") code
  (Pattern.ofString s!"( {circuit} -> CKTmode & ( ...flags ) )").replace (fun m =>
    (Mode.ofNames? (m.text "flags")).map fun modes =>
      let c := Mode.anyOf (Mode.simplify modes)
      s!"({c})") code

end DeviceForge.Circuit
