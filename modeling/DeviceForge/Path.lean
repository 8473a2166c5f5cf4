import DeviceForge.Error
import DeviceForge.Text.Blank
/-!
# Paths

Paths as text: how a name is put behind a folder, and which paths no file can have.
-/

namespace DeviceForge.Path

def isAbsolute (path : String) : Bool :=
  path.toList.head? = some '/'

def join (folder name : String) : String :=
  if isAbsolute name then name
  else if folder.isEmpty || folder.toList.getLast? = some '/' then folder ++ name
  else folder ++ "/" ++ name

def parts (path : String) : List String :=
  Text.split '/' path

def stays (part : String) : Bool :=
  part = "" || part = "."

def plainParts (path : String) : List String :=
  (parts path).filter (!stays ·)

def partLimit : Nat := 255

def limit : Nat := 4096

def fault? (path : String) : Option FileFault :=
  if path.toList.contains '\x00' then some .zeroByte
  else if limit ≤ path.utf8ByteSize then some .tooLong
  else none

theorem fault?_eq_none_iff {path : String} :
    fault? path = none ↔ '\x00' ∉ path.toList ∧ path.utf8ByteSize < limit := by
  by_cases h : '\x00' ∈ path.toList
  · simp [fault?, h]
  · simp [fault?, h]

end DeviceForge.Path
