import DeviceForge.Pattern
import DeviceForge.Table
/-!
# Matrix elements

A device keeps pointers to its elements of the circuit matrix.
-/

namespace DeviceForge.Circuit

/-- The place of a matrix element by the nodes of its row and column. -/
structure Cell where
  row : String
  column : String
  deriving DecidableEq, Repr

/-- A pointer behind these tokens, nearest first, is taken at its value: it starts a statement or an
expression in parentheses. -/
def startsOperand (before : List Token) : Bool :=
  match before with
  | [] => true
  | t :: _ => t.text = ";" || t.text = "\x7b" || t.text = "\x7d" || t.text = "("

def element (target : String) (imaginary : Bool) (pointer : String) (cell : Cell) (code : String) :
    String :=
  let row := cell.row
  let column := cell.column
  let place := s!"{target}.Matrix[{row}, {column}]"
  let code :=
    if imaginary then
      (Pattern.ofString s!"* ( {pointer} + 1 )").replace (fun _ => some s!"{place}.Imag") code
    else code
  let code := (Pattern.ofString s!"* ( {pointer} )").replace (fun _ => some place) code
  (Pattern.ofString s!"* {pointer}").replace
    (fun m => if startsOperand m.before then some place else none) code

def elements (matrix : Table Cell) (target : String) (imaginary : Bool) (extra : Names) (code : String) :
    Names × String :=
  matrix.foldl (fun (extra, code) (pointer, cell) =>
    (extra.remove pointer, element target imaginary pointer cell code)) (extra, code)

end DeviceForge.Circuit
