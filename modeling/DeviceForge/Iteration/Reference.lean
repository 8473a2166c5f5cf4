import DeviceForge.Parameter.Accessors
/-!
# References in loop code

How the code of a loop refers to things once it is part of a class: mathematical functions, physical
constants, parameters of the model and the device, and variables that the two share.
-/

namespace DeviceForge.Reference

open Parameter

def mathFunctions : List (String × String) :=
  [("log", "Math.Log"), ("exp", "Math.Exp"), ("FABS", "Math.Abs"), ("MAX", "Math.Max"), ("MIN", "Math.Min"),
    ("sqrt", "Math.Sqrt"), ("pow", "Math.Pow"), ("sin", "Math.Sin"), ("cos", "Math.Cos"),
    ("tan", "Math.Tan"), ("atan", "Math.Atan"), ("atan2", "Math.Atan2")]

def constants : List (String × String) :=
  [("REFTEMP", "CONSTRefTemp"), ("CHARGE", "CHARGE"), ("CONSTCtoK", "CONSTCtoK"),
    ("CONSTboltz", "CONSTBoltz"), ("CONSTroot2", "CONSTroot2"), ("CONSTvt0", "CONSTvt0"),
    ("CONSTKoverQ", "CONSTKoverQ"), ("CONSTE", "CONSTE"), ("CONSTPI", "CONSTPI")]

def literals : List (String × String) :=
  [("TRUE", "true"), ("FALSE", "false")]

def general (circuit code : String) : String :=
  let code := mathFunctions.foldl (fun code (function, new) =>
    (Pattern.ofString s!"{function} (").replace
      (fun m => if m.isMember then none else some s!"{new}(") code) code
  let code := constants.foldl (fun code (constant, new) =>
    renameWord constant s!"Circuit.{new}" true code) code
  let code := literals.foldl (fun code (literal, new) => renameWord literal new true code) code
  (Pattern.ofString s!"{circuit} -> CKTgmin").replace (fun _ => some "state.Gmin") code

def field (a : Accessors) (qualifier name : String) : String :=
  match a.given.get? name with
  | some target => s!"{qualifier}{target}.Given"
  | none => if a.isFlagged name then s!"{qualifier}{name}.Value" else s!"{qualifier}{name}"

def isExtra (a : Accessors) (name : String) : Bool :=
  !a.given.has name && !a.isFlagged name && !a.owned.contains name

def fields (object : String) (a : Accessors) (qualifier : String) (extra : Names) (code : String) :
    Names × String :=
  (Pattern.ofString s!"{object} -> $field").replaceWith (fun extra m =>
    if m.isMember then (extra, none)
    else
      let name := m.text "field"
      (if isExtra a name then extra.add name else extra, some (field a qualifier name))) extra code

def shared (names : List String) (qualifier code : String) : String :=
  names.foldl (fun code name => renameWord name s!"{qualifier}.{name}" true code) code

end DeviceForge.Reference
