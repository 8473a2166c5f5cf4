import DeviceForge.Iteration.Reference
import DeviceForge.Iteration.Variables
/-!
# Iterations

A function over all models and instances with its local variables, and the code for the two classes.
-/

namespace DeviceForge

open Parameter

structure Iteration where
  loops : Loops
  locals : Variables
  modelExtra : Names
  deviceExtra : Names
  deriving DecidableEq, Repr

namespace Iteration

def modelQualifier : String := "Model"

def ofMethod (method name : String) : Except Error (Iteration × List Diagnostic) := do
  let loops ← Loops.ofMethod method name
  let (locals, findings) := Variables.ofLoops loops
  return (⟨loops, locals, [], []⟩, findings)

def circuit (it : Iteration) : String :=
  it.loops.circuit

def exportModel (it : Iteration) (model : Accessors) : Iteration × String :=
  let code := Reference.general it.circuit (Text.trim it.loops.modelCode)
  let (extra, code) := Reference.fields it.loops.modelVariable model "" it.modelExtra code
  ({ it with modelExtra := extra }, code)

def exportDevice (it : Iteration) (model device : Accessors) : Iteration × String :=
  let code := Reference.general it.circuit (Text.trim it.loops.deviceCode)
  let (deviceExtra, code) := Reference.fields it.loops.instanceVariable device "" it.deviceExtra code
  let (modelExtra, code) :=
    Reference.fields it.loops.modelVariable model (modelQualifier ++ ".") it.modelExtra code
  ({ it with modelExtra, deviceExtra }, Reference.shared it.locals.shared.keys modelQualifier code)

end Iteration

end DeviceForge
