import DeviceForge.Class.Render
/-!
# Command line

Reads the folder of a device, and writes its two classes into an output folder.
-/

namespace DeviceForge.CommandLine

structure Arguments where
  folder : Option String
  interfaceFile : Option String
  definitionsFile : Option String
  defined : List String
  deviceFile : Option String
  phases : Option String
  complexSource : Option String
  outFolder : String
  wrapColumn : Nat

def Arguments.empty : Arguments :=
  ⟨none, none, none, [], none, none, none, ".", Writer.defaultColumn⟩

def usage : String :=
  "Usage: [-D SYMBOL]... [--device-file FILE] [--phases PHASES] [--ac-source SOURCE] [--out-dir FOLDER] " ++
    "[--wrap-column COLUMN] --itf FILE --def FILE DEVICE_FOLDER"

def Arguments.set? (a : Arguments) (option value : String) : Option Arguments :=
  match option with
  | "--itf" => some { a with interfaceFile := some value }
  | "--def" => some { a with definitionsFile := some value }
  | "-D" | "--define" => some { a with defined := a.defined ++ [value] }
  | "--device-file" => some { a with deviceFile := some value }
  | "-p" | "--phases" => some { a with phases := some value }
  | "--ac-source" => some { a with complexSource := some value }
  | "-o" | "--out-dir" => some { a with outFolder := value }
  | "--wrap-column" => value.toNat?.map fun column => { a with wrapColumn := column }
  | _ => none

def Arguments.read? (a : Arguments) : List String → Option Arguments
  | [] => some a
  | word :: rest =>
    if word.startsWith "-" then
      match rest with
      | value :: rest => (a.set? word value).bind (read? · rest)
      | [] => none
    else if a.folder.isNone then read? { a with folder := some word } rest
    else none

def Arguments.options (a : Arguments) : Except Error Options := do
  let phases ← match a.phases with
    | some names => PhaseSet.ofString names
    | none => .ok Options.default.phases
  let complexSource ← match a.complexSource with
    | some name => ComplexSource.ofString name
    | none => .ok Options.default.complexSource
  return ⟨phases, complexSource, a.wrapColumn⟩

def readFolder (head path : String) : Nat → IO (List (String × List UInt8) × List String)
  | 0 => return ([], [])
  | depth + 1 => do
    let mut files := []
    let mut folders := []
    for entry in ← (← IO.FS.realPath path).readDir do
      let name := head ++ entry.fileName
      if ← entry.path.isDir then
        let (inner, below) ← readFolder (name ++ "/") entry.path.toString depth
        files := files ++ inner
        folders := folders ++ name :: below
      else
        files := files ++ [(name, (← IO.FS.readBinFile entry.path).toList)]
    return (files, folders)

def folderAt (path : String) : IO Folder := do
  try
    let (files, folders) ← readFolder "" path 8
    return ⟨path, true, files, folders⟩
  catch _ =>
    return ⟨path, false, [], []⟩

def fail (message : String) : IO UInt32 := do
  IO.eprintln s!"Error: {message}"
  return 1

def run (a : Arguments) (folder interfaceFile definitionsFile : String) : IO UInt32 := do
  match a.options with
  | .error e => fail e.message
  | .ok options =>
    let sources : Device.Sources :=
      ⟨← folderAt folder, interfaceFile, definitionsFile, a.defined, a.deviceFile⟩
    match (ClassTexts.ofSources sources options).run.run [] with
    | (.error e, _) => fail e.message
    | (.ok texts, findings) =>
      IO.FS.createDirAll a.outFolder
      for (file, text) in texts.files do
        IO.FS.writeFile (Path.join a.outFolder file) text
      for finding in findings do
        let message := finding.message
        IO.eprintln s!"warning: {message}"
      return 0

end DeviceForge.CommandLine

open DeviceForge.CommandLine in
def main (arguments : List String) : IO UInt32 := do
  match Arguments.empty.read? arguments with
  | none => fail usage
  | some a =>
    match a.folder, a.interfaceFile, a.definitionsFile with
    | some folder, some interfaceFile, some definitionsFile => run a folder interfaceFile definitionsFile
    | _, _, _ => fail usage
