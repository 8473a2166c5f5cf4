import DeviceForge.Pattern
import DeviceForge.Signature
/-!
# Model and instance loops

Most entry points run over all models of a device and, for each of them, over all its instances.
-/

namespace DeviceForge

/-- A function cut at its two loops. -/
structure Loops where
  /-- What stands between the brace of the function and the loop over the models. -/
  definition : String
  /-- The loop over the models without the loop over the instances. -/
  modelCode : String
  deviceCode : String
  modelVariable : String
  instanceVariable : String
  circuit : String
  arguments : List String
  deriving DecidableEq, Repr

namespace Loops

def circuitOf (method : String) : String :=
  match (Pattern.ofString "CKTcircuit * $ckt").find? [] (Code.ofString method).tokens with
  | some m => m.text "ckt"
  | none => "ckt"

def modelPattern : Pattern :=
  .ofString "for ( ; $var != NULL ; $var = $var -> $next ) \x7b"

def instancePattern (model : String) : Pattern :=
  .ofString s!"for ( $var = {model} -> $first ; $var != NULL ; $var = $var -> $next ) \x7b"

def textBefore (m : Match) : String :=
  Code.spell m.before.reverse ++ (m.window.head?.elim "" (·.lead))

def definitionBefore (m : Match) : String :=
  match m.before.reverse.dropWhile (·.text ≠ "\x7b") with
  | [] => ""
  | _ :: ts => Text.trim (Code.spell ts ++ (m.window.head?.elim "" (·.lead)))

def blockBehind (m : Match) : Except Error (Code × List Token) :=
  match Code.block? .curly m.after with
  | some found => .ok found
  | none => .error (.unbalanced .curly (m.stop - 1))

def ofMethod (method name : String) : Except Error Loops := do
  let some outer := modelPattern.find? [] (Code.ofString method).tokens | throw (.missingModelLoop name)
  let model := outer.text "var"
  let (content, _) ← blockBehind outer
  let some inner := (instancePattern model).find? [] content.tokens | throw (.missingInstanceLoop name)
  let (body, rest) ← blockBehind inner
  let parts := [Text.trim (textBefore inner), Text.trim (Code.toString ⟨rest, content.tail⟩)]
  return {
    definition := definitionBefore outer
    modelCode := "\n".intercalate (parts.filter (!·.isEmpty))
    deviceCode := Text.trim body.toString
    modelVariable := model
    instanceVariable := inner.text "var"
    circuit := circuitOf method
    arguments := Signature.parameters method (some name) }

end Loops

end DeviceForge
