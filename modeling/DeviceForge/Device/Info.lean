import DeviceForge.Device.EntryPoint
import DeviceForge.Pattern
import DeviceForge.Segment
import DeviceForge.Text.Case
/-!
# Device descriptions

The literal in a device's interface file that says what the device is called, which tables list its
parameters and which functions are its entry points.
-/

namespace DeviceForge.Device

structure Info where
  name : String
  description : String
  parameterTable : String
  modelParameterTable : String
  entryPoints : List (EntryPoint × String)
  deriving DecidableEq, Repr

namespace Info

def trimChar (c : Char) (s : String) : String :=
  String.ofList (Text.dropWhileEnd (· = c) (s.toList.dropWhile (· = c)))

def trimCharStart (c : Char) (s : String) : String :=
  String.ofList (s.toList.dropWhile (· = c))

def splitItems (cs : List Char) : List String :=
  ((Text.split ',' (Segment.removeComments (String.ofList cs))).map Text.trim).filter (!·.isEmpty)

def find (text file : String) : Except Error (List Char) :=
  let tokens := (Code.ofString text).tokens
  match (Pattern.ofString "SPICEdev $name = \x7b").findAll tokens with
  | [m] => Segment.enclosed text (m.stop - 1)
  | found => .error (.missingInfo file found.length)

def splitBlocks (cs : List Char) : Except Error (List String × List String) :=
  match cs.dropWhile (· ≠ '\x7b') with
  | [] => .error (.malformedInfo "no device description block")
  | _ :: behind =>
    match Segment.enclosed? .curly behind with
    | none => .error (.unbalanced .curly (Text.byteLength (cs.takeWhile (· ≠ '\x7b'))))
    | some (inside, rest) =>
      .ok (splitItems inside, splitItems ((rest.dropWhile Text.isSpace).dropWhile (· = ',')))

def field (fields : List String) (index : Nat) : Except Error String :=
  match fields[index]? with
  | some text => .ok (trimChar '"' text)
  | none => .error (.malformedInfo s!"missing field {index} in the device description")

def entryPointsOf (methods : List String) : List (EntryPoint × String) :=
  EntryPoint.all.filterMap fun e =>
    (methods[e.index]?).bind fun method =>
      if method.isEmpty || Text.lower method = "null" then none else some (e, method)

def ofText (text file : String) : Except Error Info := do
  let (fields, methods) ← splitBlocks (← find text file)
  let name ← field fields 0
  let description ← field fields 1
  let parameterTable ← field fields 6
  let modelParameterTable ← field fields 8
  return {
    name
    description
    parameterTable := trimCharStart '&' parameterTable
    modelParameterTable := trimCharStart '&' modelParameterTable
    entryPoints := entryPointsOf methods }

end Info

end DeviceForge.Device
