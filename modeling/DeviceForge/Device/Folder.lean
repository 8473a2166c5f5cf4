import DeviceForge.Path
import DeviceForge.Text.Utf8
/-!
# Device folders

The files of a device as plain data: what is read depends on the folder only, so reading is a function.
-/

namespace DeviceForge

/-- The files under a folder, by their paths from it, and the folders under it. -/
structure Folder where
  path : String
  present : Bool
  files : List (String × List UInt8)
  folders : List String
  deriving DecidableEq, Repr

namespace Folder

def join (f : Folder) (name : String) : String :=
  Path.join f.path name

def name (f : Folder) : String :=
  (Path.plainParts f.path).getLast?.getD ""

/-! ## Following paths -/

/-- Where a path has led so far. -/
inductive Place where
  | inside (parts : List String)
  | around
  | outside
  deriving DecidableEq, Repr

def Place.up : Place → Place
  | .inside [] => .around
  | .inside parts => .inside parts.dropLast
  | .around => .outside
  | .outside => .outside

/-- What a path leads to. -/
inductive Entry where
  | file (bytes : List UInt8)
  | folder (place : Place)
  deriving DecidableEq, Repr

def file? (f : Folder) (parts : List String) : Option (List UInt8) :=
  (f.files.find? fun (path, _) => Path.plainParts path = parts).map (·.2)

def isFolder (f : Folder) (parts : List String) : Bool :=
  f.folders.any (fun path => parts.isPrefixOf (Path.plainParts path)) ||
    f.files.any fun (path, _) => parts.isPrefixOf (Path.plainParts path).dropLast

def step (f : Folder) (place : Place) (part : String) : Except FileFault Entry :=
  if Path.stays part then .ok (.folder place)
  else if part = ".." then .ok (.folder place.up)
  else if Path.partLimit < part.utf8ByteSize then .error .tooLong
  else
    match place with
    | .inside parts =>
      match f.file? (parts ++ [part]) with
      | some bytes => .ok (.file bytes)
      | none =>
        if f.isFolder (parts ++ [part]) then .ok (.folder (.inside (parts ++ [part]))) else .error .missing
    | .around => if part = f.name then .ok (.folder (.inside [])) else .error .missing
    | .outside => .error .missing

def walk (f : Folder) (place : Place) : List String → Except FileFault Entry
  | [] => .ok (.folder place)
  | part :: rest =>
    match f.step place part with
    | .error fault => .error fault
    | .ok (.folder next) => f.walk next rest
    | .ok (.file bytes) => if rest.isEmpty then .ok (.file bytes) else .error .notAFolder

def origin (name : String) : Place :=
  if Path.isAbsolute name then .outside else .inside []

def find (f : Folder) (name : String) : Except FileFault Entry :=
  match Path.fault? (f.join name) with
  | some fault => .error fault
  | none =>
    if f.present || Path.isAbsolute name then f.walk (origin name) (Path.parts name) else .error .missing

def writeFault? (f : Folder) (name : String) : Option FileFault :=
  match Path.fault? (f.join name) with
  | some fault => some fault
  | none =>
    match f.walk (origin name) (Path.parts name).dropLast with
    | .error fault => some fault
    | .ok (.file _) => some .notAFolder
    | .ok (.folder place) =>
      match f.step place ((Path.parts name).getLast?.getD "") with
      | .ok (.folder _) => some .isFolder
      | .ok (.file _) | .error .missing => none
      | .error fault => some fault

def read (f : Folder) (name : String) : Except Error String :=
  match f.find name with
  | .ok (.file bytes) => .ok (Text.decode bytes)
  | .ok (.folder _) => .error (.unreadable (f.join name) .isFolder)
  | .error fault => .error (.unreadable (f.join name) fault)

/-! ## Searching -/

def ownFiles (f : Folder) : List String :=
  (f.files.filterMap fun (path, _) =>
    match Path.plainParts path with
    | [file] => some file
    | _ => none).mergeSort (· ≤ ·)

def searchOrder (f : Folder) (preferred : String) : List String :=
  let isPreferred (file : String) : Bool :=
    !Path.isAbsolute preferred && Path.plainParts preferred = [file]
  (if f.ownFiles.any isPreferred then [preferred] else []) ++ f.ownFiles.filter (!isPreferred ·)

end Folder

end DeviceForge
