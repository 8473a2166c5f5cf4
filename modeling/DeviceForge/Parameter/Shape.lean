import DeviceForge.Diagnostic
import DeviceForge.Layout
import DeviceForge.Pattern
import DeviceForge.Signature
import DeviceForge.Switch
import DeviceForge.Table
/-!
# Shapes of accessors

A device sets and asks for its parameters in two large switch statements.
-/

namespace DeviceForge.Parameter

/-- One of the two functions: its cases by parameter id and the names that it uses. -/
structure Accessor where
  method : String
  cases : Table String
  here : String
  /-- The value to store, or the place for the value read. -/
  value : String
  circuit : Option String
  deriving DecidableEq, Repr

namespace Accessor

def scalarMembers : List String :=
  ["rValue", "iValue", "sValue"]

def read (code method : String) (objectIndex valueIndex : Nat) : Except Error Accessor := do
  let parameters := Signature.parameters code (some method)
  let some object := parameters[objectIndex]? | throw (.missingArgument method objectIndex)
  let some value := parameters[valueIndex]? | throw (.missingArgument method valueIndex)
  let binding := Pattern.ofString s!"$ty * $here = ( $ty * ) {object}"
  let some m := binding.find? [] (Code.ofString code).tokens | throw (.missingBinding method)
  let cases ← Switch.cases code 0
  return ⟨method, cases, m.text "here", value, none⟩

def setter (code method : String) : Except Error Accessor :=
  read code method 2 1

def getter (code method : String) : Except Error Accessor := do
  let a ← read code method 1 3
  return { a with circuit := (Signature.parameters code (some method)).head? }

def body? (a : Accessor) (id : String) : Option String :=
  ((a.cases.get? id).map fun body => Text.trim (Segment.removeComments body)).filter (!·.isEmpty)

def terminators : List String :=
  ["return ( OK ) ;", "break ;"]

def exactly? (pattern body : String) : Option Match :=
  let tokens := (Code.ofString body).tokens
  terminators.findSome? fun terminator =>
    ((Pattern.ofString s!"{pattern} {terminator}").matchAll? tokens).filter fun m =>
      scalarMembers.contains (m.text "tag")

/-! ## Setters -/

/-- The fields that a setter stores into, the flags that it raises with the field that each belongs to,
and the body with each such pair of statements written as one. -/
structure Stores where
  fields : Names
  givens : Table String
  body : String
  deriving DecidableEq, Repr

inductive SetterShape where
  /-- Stores the value in a field and raises the flag that the field was given. -/
  | withGiven (field given : String)
  | plain (field : String)
  | other (stores : Stores)
  | unrecognized
  deriving DecidableEq, Repr

def isGivenFlag (name : String) : Bool :=
  name.endsWith "Given"

def storePair (m : Match) : Option (String × String × String) :=
  let given := m.text "given"
  if m.isMember || !isGivenFlag given then none
  else
    let field := m.text "var"
    let value := m.text "value"
    some (given, field, s!"{field}.Set({value});")

def stores? (a : Accessor) (body : String) (known : Table String) : Option Stores :=
  let here := a.here
  let pair := Pattern.ofString s!"{here} -> $var = ...value ; {here} -> $given = TRUE ;"
  let rule : Names × Table String → Match → (Names × Table String) × Option String :=
    fun (fields, givens) m =>
      match storePair m with
      | none => ((fields, givens), none)
      | some (given, field, statement) => ((fields.add field, givens.putNew given field), some statement)
  let ((fields, givens), written) := pair.replaceWith rule ([], []) body
  let single := Pattern.ofString s!"{here} -> $var = ...value ;"
  let found := (single.findAll (Code.ofString written).tokens).filterMap fun m =>
    let field := m.text "var"
    if m.isMember || known.has field || givens.has field then none else some field
  let fields := fields.addAll found
  if fields.isEmpty then none else some ⟨fields, givens, written⟩

def setterShape (a : Accessor) (body : String) (known : Table String) : SetterShape :=
  let here := a.here
  let value := a.value
  let paired := exactly? s!"{here} -> $field = {value} -> $tag ; {here} -> $given = TRUE ;" body
  match paired.filter fun m => isGivenFlag (m.text "given") with
  | some m => .withGiven (m.text "field") (m.text "given")
  | none =>
    match exactly? s!"{here} -> $field = {value} -> $tag ;" body with
    | some m => .plain (m.text "field")
    | none =>
      match a.stores? body known with
      | some stores => .other stores
      | none => .unrecognized

/-! ## Getters -/

inductive GetterShape where
  | plain (field : String)
  | other (fields : Names)
  | unrecognized
  deriving DecidableEq, Repr

def readField? : List Token → Option String
  | arrow :: field :: rest =>
    if arrow.text = "->" && field.isIdentifier && rest.any (·.text = ";") then some field.text else none
  | _ => none

def reads (here : String) (assigned : Bool) (before : List Token) : List Token → List String
  | [] => []
  | t :: ts =>
    let assigned :=
      if t.text = ";" || t.text = "\x7b" || t.text = "\x7d" then false else assigned || t.text = "="
    let rest := reads here assigned (t :: before) ts
    if assigned && t.text = here && !followsMember before then
      match readField? ts with
      | some field => field :: rest
      | none => rest
    else rest

def readFields (a : Accessor) (body : String) : Names :=
  Names.addAll [] (reads a.here false [] (Code.ofString body).tokens)

def getterShape (a : Accessor) (body : String) : GetterShape :=
  let here := a.here
  let value := a.value
  match exactly? s!"{value} -> $tag = {here} -> $field ;" body with
  | some m => .plain (m.text "field")
  | none =>
    let fields := a.readFields body
    if fields.isEmpty then .unrecognized else .other fields

/-! ## Bodies in a class -/

def isWord (word : String) (t : Token) : Bool :=
  t.text.toList.map Char.toLower = word.toList

def dropTerminators : List Token → List Token
  | s :: t :: ts =>
    if isWord ";" s && isWord "break" t then dropTerminators ts
    else
      match ts with
      | u :: v :: w :: rest =>
        if isWord ";" s && isWord ")" t && isWord "ok" u && isWord "(" v && isWord "return" w then
          dropTerminators rest
        else s :: t :: ts
      | _ => s :: t :: ts
  | ts => ts

def withoutTerminators (body : String) : String :=
  let c := Code.ofString body
  let kept := (dropTerminators c.tokens.reverse).reverse
  match c.tokens.drop kept.length with
  | t :: _ => Text.trimEnd (Code.spell kept ++ t.lead)
  | [] => Text.trimEnd body

def memberBody (a : Accessor) (body : String) : String :=
  let here := a.here
  let value := a.value
  let body := (Pattern.ofString s!"{here} ->").replace (fun m => if m.isMember then none else some "") body
  let body := (Pattern.ofString s!"{value} -> $tag").replace
    (fun m => if scalarMembers.contains (m.text "tag") then some "value" else none) body
  Layout.format (withoutTerminators body)

def returning (body : String) : String :=
  (Pattern.ofString "value = ...expr ;").replace (fun m =>
    let expr := m.text "expr"
    if m.isMember then none else some s!"return {expr};") body

end Accessor

end DeviceForge.Parameter
