import DeviceForge.Class.Writer
import DeviceForge.Device
/-!
# Options

Which phases of a device become part of its classes, where the load of the complex analysis comes from, and
how wide lines may be.
-/

namespace DeviceForge

inductive Phase where
  | setup
  | temperature
  | load
  | acLoad
  | pzLoad
  | truncate
  deriving DecidableEq, Repr

namespace Phase

def all : List Phase :=
  [.setup, .temperature, .load, .acLoad, .pzLoad, .truncate]

def entryPoint : Phase → EntryPoint
  | .setup => .setup
  | .temperature => .temperature
  | .load => .load
  | .acLoad => .acLoad
  | .pzLoad => .pzLoad
  | .truncate => .trunc

def plainName (name : String) : String :=
  String.ofList ((Text.lower name).toList.filter fun c => c ≠ '-' ∧ c ≠ '_')

def ofName? (name : String) : Option (List Phase) :=
  match plainName name with
  | "setup" => some [.setup]
  | "temperature" | "temp" => some [.temperature]
  | "load" => some [.load]
  | "acload" | "ac" => some [.acLoad]
  | "pzload" | "pz" => some [.pzLoad]
  | "truncate" | "trunc" => some [.truncate]
  | "all" => some all
  | _ => none

end Phase

structure PhaseSet where
  phases : List Phase
  deriving DecidableEq, Repr

namespace PhaseSet

def has (s : PhaseSet) (p : Phase) : Bool :=
  s.phases.contains p

def default : PhaseSet :=
  ⟨[.setup, .temperature, .load, .acLoad]⟩

def ofString (s : String) : Except Error PhaseSet := do
  let names := ((Text.split ',' s).map Text.trim).filter (!·.isEmpty)
  let selected ← names.mapM fun name =>
    match Phase.ofName? name with
    | some phases => .ok phases
    | none => .error (.invalidOptions (.unknownPhase name))
  if selected.flatten.isEmpty then .error (.invalidOptions .noPhase) else .ok ⟨selected.flatten⟩

end PhaseSet

/-- Where the load of the complex analysis comes from if both sources are there. -/
inductive ComplexSource where
  | acLoad
  | pzLoad
  deriving DecidableEq, Repr

namespace ComplexSource

def name : ComplexSource → String
  | .acLoad => "acload"
  | .pzLoad => "pzload"

def ofString (s : String) : Except Error ComplexSource :=
  match Phase.plainName s with
  | "acload" | "ac" => .ok .acLoad
  | "pzload" | "pz" => .ok .pzLoad
  | _ => .error (.invalidOptions (.unknownSource s))

end ComplexSource

structure Options where
  phases : PhaseSet
  complexSource : ComplexSource
  wrapColumn : Nat
  deriving DecidableEq, Repr

def Options.default : Options :=
  ⟨.default, .acLoad, Writer.defaultColumn⟩

end DeviceForge
