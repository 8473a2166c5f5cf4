import DeviceForge.Diagnostic
import DeviceForge.Pattern
import DeviceForge.Segment
import DeviceForge.Table
import DeviceForge.ValueType
/-!
# Parameter tables

A table in the sources of a device lists its parameters, one row for each name.
-/

namespace DeviceForge.Parameter

structure Descriptor where
  id : String
  /-- The macro of the row, which tells who may set or ask for the parameter. -/
  access : String
  names : Names
  type : ValueType
  description : String
  deriving DecidableEq, Repr

def unquote (s : String) : String :=
  let s := Text.trim s
  match s.toList with
  | '"' :: cs => if cs.getLast? = some '"' then String.ofList cs.dropLast else s
  | _ => s

structure Row where
  access : String
  name : String
  id : String
  flags : String
  description : String
  deriving DecidableEq, Repr

def rowPattern : Pattern :=
  .ofString "$access ( ...name , @id , ...ty , ...desc )"

def Row.ofMatch (m : Match) : Row :=
  ⟨m.text "access", unquote (m.text "name"), m.text "id", m.text "ty", unquote (m.text "desc")⟩

def Row.type? (r : Row) : Option ValueType :=
  (Text.split '|' r.flags).findSome? fun flag => ValueType.ofFlag? (Text.trim flag)

def addRow (table : Table Descriptor) (r : Row) (type : ValueType) : Table Descriptor :=
  let table := table.putNew r.id ⟨r.id, r.access, [], type, r.description⟩
  table.adjust r.id fun d => { d with names := d.names.add r.name }

def ofRows (rows : List Row) : Table Descriptor × List Diagnostic :=
  rows.foldl (fun (table, findings) r =>
    match r.type? with
    | some type => (addRow table r type, findings)
    | none => (table, findings ++ [.unknownTypeFlag r.flags r.name])) ([], [])

def readTable (declaration : String) : Except Error (Table Descriptor × List Diagnostic) :=
  let text := Segment.removeComments declaration
  match Segment.find? text 0 '\x7b'.toNat.toUInt8 with
  | none => .ok ([], [])
  | some offset => do
    let block ← Segment.enclosed text offset
    let tokens := (Code.ofString (String.ofList block)).tokens
    return ofRows ((rowPattern.findAll tokens).map Row.ofMatch)

end DeviceForge.Parameter
