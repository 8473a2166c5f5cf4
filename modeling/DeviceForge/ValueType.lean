import DeviceForge.Numeral
/-!
# Value types

The types of parameters and of local variables, how sources name them and how generated classes do.
-/

namespace DeviceForge

inductive ValueType where
  | real
  | flag
  | complex
  | string
  | realVector
  | integer
  deriving DecidableEq, Repr

namespace ValueType

def ofFlag? (flag : String) : Option ValueType :=
  match flag with
  | "IF_REAL" => some .real
  | "IF_FLAG" => some .flag
  | "IF_COMPLEX" => some .complex
  | "IF_STRING" => some .string
  | "IF_REALVEC" | "IF_VECTOR" => some .realVector
  | "IF_INTEGER" => some .integer
  | _ => none

def className : ValueType → String
  | .real => "double"
  | .flag => "bool"
  | .complex => "Complex"
  | .string => "string"
  | .realVector => "double[]"
  | .integer => "int"

def isNumber : ValueType → Bool
  | .real | .integer => true
  | _ => false

def isZero (type : ValueType) (literal : String) : Bool :=
  let literal := Text.trim literal
  match type with
  | .flag => literal = "false" || literal = "FALSE" || literal = "0"
  | .string => literal = "\"\""
  | _ =>
    let unsigned := String.ofList (literal.toList.dropWhile fun c => c = '+' || c = '-')
    (Numeral.value? unsigned).any Binary64.isZero

end ValueType

inductive LocalType where
  | real
  | integer
  deriving DecidableEq, Repr

namespace LocalType

def ofWord? (word : String) : Option LocalType :=
  match word with
  | "double" | "float" => some .real
  | "int" | "long" | "short" | "unsigned" => some .integer
  | _ => none

def className : LocalType → String
  | .real => "double"
  | .integer => "int"

end LocalType

end DeviceForge
