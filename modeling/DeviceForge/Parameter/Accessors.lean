import DeviceForge.Circuit.Access
import DeviceForge.Parameter.Declaration
import DeviceForge.Parameter.Shape
import DeviceForge.Text.Case
/-!
# Accessors of a class

The declarations for all parameters of a device or of its model.
-/

namespace DeviceForge.Parameter

structure Accessors where
  declarations : Table Declaration
  methods : List Declaration
  owned : Names
  given : Table String
  circuit : Option String
  deriving DecidableEq, Repr

namespace Accessors

def empty : Accessors :=
  ⟨[], [], [], [], none⟩

instance : Inhabited Accessors := ⟨empty⟩

def isFlagged (a : Accessors) (field : String) : Bool :=
  (a.declarations.get? field).any Declaration.isFlagged

/-! ## Synthesis -/

def noteGivens (a : Accessors) (givens : Table String) : Accessors :=
  { a with given := givens.foldl (fun known (given, field) => known.putNew given field) a.given }

def commonField? (stores : Option Accessor.Stores) (read : Names) : Option (Accessor.Stores × String) :=
  stores.bind fun s => (s.fields.find? (read.contains ·)).map (s, ·)

/-- What an id is declared as, given the bodies of its two sides with their accessors; a finding if the
two sides have no field in common. -/
def resolve (a : Accessors) (d : Descriptor) (set get : Option (Accessor × String)) :
    Except Error (Accessors × (Diagnostic ⊕ Declaration.Kind)) :=
  let id := d.id
  match set, get with
  | some (setter, setBody), some (getter, getBody) =>
    let common : Accessors × (Diagnostic ⊕ Declaration.Kind) :=
      match commonField? (setter.stores? setBody a.given) (getter.readFields getBody) with
      | none => (a, .inl (.unprocessedId id))
      | some (stores, field) =>
        let a := a.noteGivens stores.givens
        let flagged := a.given.any (·.2 = field)
        (a, .inr (.custom field (Accessor.returning (getter.memberBody getBody))
          (setter.memberBody stores.body) flagged))
    match setter.setterShape setBody a.given, getter.getterShape getBody with
    | .withGiven field given, .plain read =>
      if field = read then
        .ok ({ a with given := a.given.put given field }, .inr (.flagged field))
      else .ok common
    | .plain field, .plain read =>
      if field = read then .ok (a, .inr (.property field false)) else .ok common
    | _, _ => .ok common
  | some (setter, body), none =>
    match setter.setterShape body a.given with
    | .withGiven field given =>
      .ok ({ a with given := a.given.put given field }, .inr (.flagged field))
    | .plain field => .ok (a, .inr (.property field false))
    | .other stores =>
      .ok (a.noteGivens stores.givens, .inr (.setMethod s!"Set{id}" (setter.memberBody stores.body)))
    | .unrecognized => .ok (a, .inr (.setMethod s!"Set{id}" (setter.memberBody body)))
  | none, some (getter, body) =>
    match getter.getterShape body with
    | .plain field => .ok (a, .inr (.property field true))
    | _ => .ok (a, .inr (.getMethod s!"Get{id}" (Accessor.returning (getter.memberBody body))))
  | none, none => .error (.noAccessor id)

def insert (a : Accessors) (d : Declaration) : Accessors :=
  match d.field? with
  | none => { a with methods := a.methods ++ [d] }
  | some field =>
    let declarations :=
      if a.declarations.has field then
        a.declarations.adjust field fun old => { old with names := old.names.addAll d.names }
      else a.declarations ++ [(field, d)]
    { a with owned := a.owned.add field, declarations }

def addId (set get : Option Accessor) (table : Table Descriptor) (a : Accessors)
    (findings : List Diagnostic) (id : String) : Except Error (Accessors × List Diagnostic) :=
  let setBody := set.bind fun s => (s.body? id).map (s, ·)
  let getBody := get.bind fun g => (g.body? id).map (g, ·)
  if setBody.isNone && getBody.isNone then .ok (a, findings)
  else
    match table.get? id with
    | none => .ok (a, findings ++ [.unresolvedId id])
    | some d => do
      match ← a.resolve d setBody getBody with
      | (a, .inl finding) => return (a, findings ++ [finding])
      | (a, .inr kind) => return (a.insert (.ofDescriptor d kind), findings)

def caseIds (set get : Option Accessor) : Names :=
  let keys (a : Option Accessor) : List String := (a.map (·.cases.keys)).getD []
  Names.addAll [] (keys set ++ keys get)

def ofAccessors (set get : Option Accessor) (table : Table Descriptor) :
    Except Error (Accessors × List Diagnostic) :=
  let start : Accessors := { empty with circuit := get.bind (·.circuit) }
  (caseIds set get).foldlM (fun (a, findings) id => addId set get table a findings id) (start, [])

/-! ## Defaults -/

def setInitial (a : Accessors) (field value : String) : Accessors × Bool :=
  if a.isFlagged field then
    ({ a with declarations := a.declarations.adjust field fun d => { d with initial := some value } }, true)
  else (a, false)

/-! ## Methods -/

def stripWord (start : String) (word : String) : String :=
  let starts (s : String) : Bool := start.toList.isPrefixOf (Text.lower s).toList
  let size := start.utf8ByteSize
  let (verb, rest) :=
    match (Text.after? "Get" word).or (Text.after? "Set" word) with
    | some rest => if starts rest then (String.ofList (word.toList.take 3), rest) else ("", word)
    | none => ("", word)
  if size < rest.utf8ByteSize && starts rest then verb ++ String.ofList (rest.toList.drop size) else word

def stripHead (name code : String) : String :=
  let start := Text.lower name
  let c := Code.ofString code
  let tokens := c.tokens.map fun t => if t.isIdentifier then { t with text := stripWord start t.text } else t
  Code.toString ⟨tokens, c.tail⟩

def methodBody (circuit : String) (states : Option String) (body : String) : String :=
  let base :=
    match states with
    | some s => s!"{s} + "
    | none => ""
  let body := (Pattern.ofString s!"* ( {circuit} -> $slot + $node )").replace (fun m =>
    (Circuit.stateNumber? (m.text "slot")).map fun slot =>
      let node := m.text "node"
      s!"ckt.State.States[{slot}][{base}{node}]") body
  (Pattern.ofString s!"* ( {circuit} -> CKTrhsOld + $node )").replace (fun m =>
    let node := m.text "node"
    some s!"ckt.State.Real.Solution[{node}]") body

def finishMethods (a : Accessors) (device : String) (states : Option String) : Accessors :=
  let circuit := a.circuit.getD "ckt"
  let strip := stripHead (device ++ "_")
  let finish (d : Declaration) : Declaration :=
    match d.kind with
    | .setMethod name body =>
      { d with kind := .setMethod (strip name) (strip (methodBody circuit states body)) }
    | .getMethod name body =>
      { d with kind := .getMethod (strip name) (strip (methodBody circuit states body)) }
    | _ => d
  { a with methods := a.methods.map finish }

end Accessors

end DeviceForge.Parameter
