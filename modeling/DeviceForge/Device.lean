import DeviceForge.Device.Folder
import DeviceForge.Device.Info
import DeviceForge.Directive
/-!
# Devices

A device is a folder of source files together with its description.
-/

namespace DeviceForge

/-- Where the sources of a device are and how to read them. -/
structure Device.Sources where
  folder : Folder
  interfaceFile : String
  definitionsFile : String
  defined : List String
  deviceFile : Option String
  deriving DecidableEq, Repr

structure Device where
  sources : Device.Sources
  info : Device.Info
  deriving DecidableEq, Repr

namespace Device

def ofSources (sources : Sources) : Except Error Device := do
  let text ← sources.folder.read sources.interfaceFile
  let info ← Info.ofText (Directive.resolve sources.defined text) sources.interfaceFile
  return ⟨sources, info⟩

def resolve (d : Device) (text : String) : String :=
  Directive.resolve d.sources.defined text

def entryPoint? (d : Device) (e : EntryPoint) : Option String :=
  (d.info.entryPoints.find? (·.1 = e)).map (·.2)

/-! ## Functions -/

def returnType? : List Token → Option (List Token)
  | [] => none
  | t :: before =>
    let isType (t : Token) : Bool := t.isIdentifier && t.text ≠ "return" && t.text ≠ "else"
    match before with
    | u :: _ => if t.text = "*" then if isType u then some [u, t] else none else
        if isType t then some [t] else none
    | [] => if isType t then some [t] else none

/-- The tokens of a definition from the parenthesis behind its name to its closing brace. Declarations of
parameters may stand between the two blocks; a prototype or a call is no definition. -/
def definition? : List Token → Option (List Token)
  | [] => none
  | paren :: ts =>
    if paren.text = "(" then do
      let (inside, close, rest) ← Code.enclosed? .round ts
      if rest.isEmpty || rest.head?.any (fun t => t.text = ";" || t.text = ",") then none
      else
        let isMark (t : Token) : Bool := t.text = "\x7b" || t.text = "\x7d" || t.text = "="
        match rest.dropWhile (!isMark ·) with
        | [] => none
        | brace :: body =>
          if brace.text = "\x7b" then do
            let (block, stop, _) ← Code.enclosed? .curly body
            some (paren :: inside ++ close :: rest.takeWhile (!isMark ·) ++ brace :: block ++ [stop])
          else none
    else none

def findFunction? (name : String) (before : List Token) : List Token → Option (List Token)
  | [] => none
  | t :: ts =>
    let found :=
      if t.text = name then do
        let type ← returnType? before
        let rest ← definition? ts
        some (type ++ t :: rest)
      else none
    match found with
    | some definition => some definition
    | none => findFunction? name (t :: before) ts

def search (d : Device) (find : String → Option String) : List String → Except Error (Option String)
  | [] => .ok none
  | file :: files => do
    let text ← d.sources.folder.read file
    match find (d.resolve text) with
    | some found => return some found
    | none => d.search find files

def definition (d : Device) (e : EntryPoint) : Except Error String :=
  match d.entryPoint? e with
  | none => .error (.undefinedEntryPoint e.name)
  | some name => do
    let find (text : String) : Option String :=
      (findFunction? name [] (Code.ofString text).tokens).map Code.span
    match ← d.search find (d.sources.folder.searchOrder (Text.lower name ++ ".c")) with
    | some found => return d.resolve found
    | none => throw (.entryPointNotFound name d.sources.folder.path)

/-! ## Variables -/

def findAny? (patterns : List Pattern) (before : List Token) : List Token → Option Match
  | [] => none
  | t :: ts =>
    match patterns.findSome? (·.matchAt? before (t :: ts)) with
    | some m => some m
    | none => findAny? patterns (t :: before) ts

/-- The first declaration with an initial value of a variable of this type, array or not; any name will do
where it is left open. -/
def findDeclaration? (type : String) (name : Option String) (text : String) : Option String :=
  let name := name.getD "$name"
  let patterns :=
    [Pattern.ofString s!"{type} {name} [ ] = ...value ;", Pattern.ofString s!"{type} {name} = ...value ;"]
  (findAny? patterns [] (Code.ofString text).tokens).map fun m => Code.span m.window

def declaration (d : Device) (type : String) (name : Option String) : Except Error String := do
  let preferred := d.sources.deviceFile.getD (Text.lower d.info.name ++ ".c")
  match ← d.search (findDeclaration? type name) (d.sources.folder.searchOrder preferred) with
  | some found => return found
  | none => throw (.variableNotFound type (name.getD "*") d.sources.folder.path)

def definitions (d : Device) : Except Error String :=
  d.sources.folder.read d.sources.definitionsFile

end Device

end DeviceForge
