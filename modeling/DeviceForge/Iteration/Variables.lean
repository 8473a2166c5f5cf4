import DeviceForge.Diagnostic
import DeviceForge.Iteration.Loops
import DeviceForge.Table
import DeviceForge.ValueType
/-!
# Local variables

The local variables of a function with a loop over models and one over instances.
-/

namespace DeviceForge

/-! ## Declarations of locals -/

structure Declarator where
  name : String
  type : LocalType
  deriving DecidableEq, Repr

namespace Declarator

def qualifiers : List String :=
  ["register", "static", "const", "volatile", "signed", "auto"]

def extent (depth : Nat) : List Token → Nat
  | [] => 0
  | t :: ts =>
    if t.isOpening then 1 + extent (depth + 1) ts
    else if t.isClosing then if depth = 0 then 0 else 1 + extent (depth - 1) ts
    else if depth = 0 && (t.text = "," || t.text = ";") then 0
    else 1 + extent depth ts

def names (ts : List Token) : List String × List Token :=
  match h : ts.dropWhile (·.text = "*") with
  | [] => ([], [])
  | t :: rest =>
    if t.isIdentifier then
      match h' : rest.drop (extent 0 rest) with
      | [] => ([t.text], [])
      | comma :: more =>
        if comma.text = "," then
          have : more.length < ts.length := by
            have h₁ : (ts.dropWhile (·.text = "*")).length ≤ ts.length := (List.dropWhile_suffix _).length_le
            have h₂ : (rest.drop (extent 0 rest)).length ≤ rest.length := (List.drop_suffix _ _).length_le
            rw [h] at h₁
            rw [h'] at h₂
            simp only [List.length_cons] at h₁ h₂
            omega
          let (found, behind) := names more
          (t.text :: found, behind)
        else ([t.text], comma :: more)
    else ([], t :: rest)
termination_by ts.length

def statement? (ts : List Token) : Option (List Declarator × Nat) :=
  match ts.dropWhile fun t => qualifiers.contains t.text with
  | [] => none
  | t :: rest => do
    let type ← LocalType.ofWord? t.text
    let (found, behind) := names (rest.dropWhile fun t => (LocalType.ofWord? t.text).isSome)
    return (found.map (⟨·, type⟩), ts.length - behind.length)

def startsBehind : Option Token → Bool
  | none => true
  | some t => t.text = ";" || t.text = "\x7b" || t.text = "\x7d"

def scan (skip : Nat) (previous : Option Token) : List Token → List Declarator
  | [] => []
  | t :: ts =>
    match skip with
    | skip + 1 => scan skip (some t) ts
    | 0 =>
      match if startsBehind previous then statement? (t :: ts) else none with
      | some (found, n) => found ++ scan (n - 1) (some t) ts
      | none => scan 0 (some t) ts

def all (code : String) : List Declarator :=
  scan 0 none (Code.ofString code).tokens

end Declarator

def Loops.typeOf? (loops : Loops) (name : String) : Option LocalType :=
  [loops.definition, loops.modelCode, loops.deviceCode].findSome? fun code =>
    ((Declarator.all code).find? (·.name = name)).map (·.type)

/-! ## Types -/

/-- Types that have been looked up, and the findings on the way. -/
structure Typing where
  /-- The declared types, before the loops, in the model code and in the device code. -/
  scopes : List (Table LocalType)
  resolved : Table LocalType
  findings : List Diagnostic
  deriving DecidableEq, Repr

namespace Typing

def scope (code : String) : Table LocalType :=
  (Declarator.all code).foldl (fun types d => types.putNew d.name d.type) []

def ofLoops (loops : Loops) : Typing :=
  ⟨[loops.definition, loops.modelCode, loops.deviceCode].map scope, [], []⟩

def infer (t : Typing) (name : String) : LocalType × Typing :=
  match t.resolved.get? name with
  | some type => (type, t)
  | none =>
    match t.scopes.findSome? (·.get? name) with
    | some type => (type, { t with resolved := t.resolved.put name type })
    | none =>
      (.real, { t with
        resolved := t.resolved.put name .real
        findings := t.findings ++ [.untypedVariable name] })

end Typing

/-! ## Roles -/

/-- The places where tokens assign a variable, members apart, each with the variable; `before` are the tokens
passed, nearest first. -/
def assignments (before : List Token) : List Token → List (Nat × String)
  | [] => []
  | t :: ts =>
    let rest := assignments (t :: before) ts
    if t.isIdentifier && ts.head?.any (·.text = "=") && !followsMember before then
      (before.length, t.text) :: rest
    else rest

def firstUse? (name : String) (before : List Token) : List Token → Option Nat
  | [] => none
  | t :: ts =>
    if t.isIdentifier && t.text = name && !followsMember before then some before.length
    else firstUse? name (t :: before) ts

def readsFirst (name : String) (ts : List Token) : Bool :=
  match firstUse? name [] ts with
  | none => false
  | some use => ((assignments [] ts).find? (·.2 = name)).map (·.1) ≠ some use

/-- The local variables by their place in the classes, with their types. -/
structure Variables where
  model : Table LocalType
  device : Table LocalType
  shared : Table LocalType
  deriving DecidableEq, Repr

namespace Variables

def declares (code name : String) : Bool :=
  (Declarator.all code).any (·.name = name)

def assignedIn (code : String) : List String :=
  (assignments [] (Code.ofString code).tokens).map (·.2)

def isShared (deviceCode : String) (name : String) : Bool :=
  !declares deviceCode name && readsFirst name (Code.ofString deviceCode).tokens

def addModel (loops : Loops) (sorted : Variables × Typing) (name : String) : Variables × Typing :=
  let (v, typing) := sorted
  if v.model.has name || v.shared.has name || loops.arguments.contains name || declares loops.modelCode name then
    (v, typing)
  else
    let (type, typing) := typing.infer name
    if isShared loops.deviceCode name then ({ v with shared := v.shared.put name type }, typing)
    else ({ v with model := v.model.put name type }, typing)

def addDevice (loops : Loops) (sorted : Variables × Typing) (name : String) : Variables × Typing :=
  let (v, typing) := sorted
  if v.device.has name || v.shared.has name || loops.arguments.contains name || declares loops.deviceCode name then
    (v, typing)
  else
    let (type, typing) := typing.infer name
    ({ v with device := v.device.put name type }, typing)

def ofLoops (loops : Loops) : Variables × List Diagnostic :=
  let start : Variables × Typing := (⟨[], [], []⟩, .ofLoops loops)
  let sorted := (assignedIn loops.modelCode).foldl (addModel loops) start
  let (v, typing) := (assignedIn loops.deviceCode).foldl (addDevice loops) sorted
  (v, typing.findings)

end Variables

end DeviceForge
