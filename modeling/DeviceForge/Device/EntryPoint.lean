/-!
# Entry points

The functions that a device model offers to the simulator, in the order in which a device lists them.
-/

namespace DeviceForge

inductive EntryPoint where
  | param
  | modelParam
  | load
  | setup
  | unsetup
  | pzSetup
  | temperature
  | trunc
  | findBranch
  | acLoad
  | accept
  | destroy
  | modelDelete
  | delete
  | setIc
  | ask
  | modelAsk
  | pzLoad
  | convergence
  | senSetup
  | senLoad
  | senUpdate
  | senAcLoad
  | senPrint
  | senTrunc
  | distortion
  | noise
  deriving DecidableEq, Repr

namespace EntryPoint

def all : List EntryPoint :=
  [.param, .modelParam, .load, .setup, .unsetup, .pzSetup, .temperature, .trunc, .findBranch, .acLoad,
    .accept, .destroy, .modelDelete, .delete, .setIc, .ask, .modelAsk, .pzLoad, .convergence, .senSetup,
    .senLoad, .senUpdate, .senAcLoad, .senPrint, .senTrunc, .distortion, .noise]

theorem mem_all (e : EntryPoint) : e ∈ all := by
  cases e <;> decide

def index (e : EntryPoint) : Nat :=
  all.idxOf e

def name : EntryPoint → String
  | .param => "Param"
  | .modelParam => "ModelParam"
  | .load => "Load"
  | .setup => "Setup"
  | .unsetup => "Unsetup"
  | .pzSetup => "PzSetup"
  | .temperature => "Temperature"
  | .trunc => "Trunc"
  | .findBranch => "FindBranch"
  | .acLoad => "AcLoad"
  | .accept => "Accept"
  | .destroy => "Destroy"
  | .modelDelete => "ModelDelete"
  | .delete => "Delete"
  | .setIc => "SetIC"
  | .ask => "Ask"
  | .modelAsk => "ModelAsk"
  | .pzLoad => "PzLoad"
  | .convergence => "Convergence"
  | .senSetup => "SenSetup"
  | .senLoad => "SenLoad"
  | .senUpdate => "SenUpdate"
  | .senAcLoad => "SenAcLoad"
  | .senPrint => "SenPrint"
  | .senTrunc => "SenTrunc"
  | .distortion => "Distortion"
  | .noise => "Noise"

end EntryPoint

end DeviceForge
