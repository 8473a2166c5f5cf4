import DeviceForge.Pattern
/-!
# Accesses through the circuit

How the code of a device reads the circuit: temperatures, states, the last solution and the
right-hand side.
-/

namespace DeviceForge.Circuit

def temperatures (circuit code : String) : String :=
  let code := (Pattern.ofString s!"{circuit} -> CKTtemp").replace (fun _ => some "ckt.State.Temperature") code
  (Pattern.ofString s!"{circuit} -> CKTnomTemp").replace (fun _ => some "ckt.State.NominalTemperature") code

def stateNumber? (slot : String) : Option String :=
  (Text.after? "CKTstate" slot).filter fun digits => !digits.isEmpty && digits.toList.all Char.isDigit

def states (circuit state states code : String) : String :=
  (Pattern.ofString s!"* ( {circuit} -> $slot + ...offset )").replace (fun m =>
    (stateNumber? (m.text "slot")).map fun slot =>
      let offset := m.text "offset"
      s!"{state}.States[{slot}][{states} + {offset}]") code

def solutions (circuit real code : String) : String :=
  let code := (Pattern.ofString s!"* ( {circuit} -> CKTrhsOld + ...node )").replace (fun m =>
    let node := m.text "node"
    some s!"{real}.OldSolution[{node}]") code
  (Pattern.ofString s!"* ( {circuit} -> CKTrhs + ...node )").replace (fun m =>
    let node := m.text "node"
    some s!"{real}.Rhs[{node}]") code

def argument? (method type : String) : Option String :=
  ((Pattern.ofString s!"{type} * $name").find? [] (Code.ofString method).tokens).map (·.text "name")

/-! ## Members -/

def isArrow (t : Token) : Bool :=
  t.text = "->"

/-- The pieces of tokens behind `previous` with points in place of arrows, and nothing between an arrow and
the tokens beside it. -/
def pointPieces (previous : Option Token) : List Token → List String
  | [] => []
  | t :: ts =>
    let joined := previous.any fun p => isArrow p || isArrow t
    let text := if isArrow t then "." else t.text
    (if joined then text else t.lead ++ text) :: pointPieces (some t) ts

def pointMembers (code : String) : String :=
  let c := Code.ofString code
  String.join (pointPieces none c.tokens) ++ c.tail

end DeviceForge.Circuit
