import DeviceForge.Error
/-!
# Diagnostics

Findings that do not stop the work: what was skipped, guessed or left in the code.
-/

namespace DeviceForge

inductive Scope where
  | model
  | device
  deriving DecidableEq, Repr

def Scope.name : Scope → String
  | .model => "model"
  | .device => "device"

inductive Diagnostic where
  | unresolvedId (id : String)
  /-- Setter and getter of an id have no field in common. -/
  | unprocessedId (id : String)
  /-- A local variable without declaration is taken to be real. -/
  | untypedVariable (name : String)
  /-- A member that no parameter declares gets a field of its own. -/
  | unresolvedMember (scope : Scope) (name : String)
  | unknownTypeFlag (flag name : String)
  | ignoredDefault (field value : String)
  deriving DecidableEq, Repr

def Diagnostic.message : Diagnostic → String
  | .unresolvedId id => s!"Could not find definition for ID '{id}'"
  | .unprocessedId id => s!"Could not process ID '{id}'"
  | .untypedVariable name => s!"Could not find type of local variable {name}"
  | .unresolvedMember scope name =>
    let owner := scope.name
    s!"Unresolved {owner} variable '{name}' (declared as extra field)"
  | .unknownTypeFlag flag name => s!"Unsupported type flag '{flag}' for parameter '{name}'"
  | .ignoredDefault field value => s!"Default value '{value}' for '{field}' is not a literal and stays in code"

abbrev Recording (α : Type) : Type :=
  ExceptT Error (StateM (List Diagnostic)) α

def record (findings : List Diagnostic) : Recording Unit :=
  modify (· ++ findings)

end DeviceForge
