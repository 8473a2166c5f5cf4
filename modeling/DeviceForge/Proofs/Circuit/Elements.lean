import DeviceForge.Circuit.Matrix
import DeviceForge.Proofs.Pattern.Fixed
import DeviceForge.Proofs.Pattern.Sweep
/-!
# Pointers to matrix elements

Elements of the matrix are reached through pointers in three forms, and each form of each pointer is replaced in a pass of
its own.
-/

namespace DeviceForge.Circuit

open List Code Text Pattern

/-- The forms in which an element is reached through its pointer. -/
inductive Form where
  | imaginary
  | enclosed
  | bare
  deriving DecidableEq

namespace Form

def texts (pointer : String) : Form → List String
  | imaginary => ["*", "(", pointer, "+", "1", ")"]
  | enclosed => ["*", "(", pointer, ")"]
  | bare => ["*", pointer]

def accepts : Form → List Token → Bool
  | bare, before => startsOperand before
  | _, _ => true

def place (target : String) (cell : Cell) (f : Form) : String :=
  s!"{target}.Matrix[{cell.row}, {cell.column}]" ++ if f = imaginary then ".Imag" else ""

def pattern (f : Form) (pointer : String) : Pattern :=
  ⟨(f.texts pointer).map .literal⟩

end Form

def pass (target : String) (cell : Cell) (f : Form) (pointer code : String) : String :=
  (f.pattern pointer).replace (fun m => if f.accepts m.before then some (f.place target cell) else none) code

variable {f : Form} {p target code : String} {cell : Cell} {t : Token}

lemma fits_literals (xs : List String) (ts : List Token) :
    fits (xs.map .literal) ts ↔ xs <+: ts.map (·.text) := by
  induction xs generalizing ts with
  | nil => simp [fits, agrees]
  | cons x xs ih =>
    cases ts with
    | nil => simp [fits]
    | cons t ts =>
      rw [map_cons, fits_cons, ih, map_cons, cons_prefix_cons, Pattern.Element.takes, decide_eq_true_eq, eq_comm]

lemma isFixed_pattern (f : Form) (p : String) : Pattern.IsFixed (f.pattern p).elements := by
  cases f <;> exact ⟨rfl, by simp [Form.pattern, Form.texts, names]⟩

/-- The form of a pointer stands among tokens where it is looked for, behind the tokens `before`, nearest first. -/
def Form.standsIn (f : Form) (pointer : String) (before : List Token) : List Token → Bool
  | [] => false
  | t :: ts => (f.texts pointer).isPrefixOf (t.text :: ts.map (·.text)) && f.accepts before || f.standsIn pointer (t :: before) ts

/-- What matches is left where the form is not looked for. -/
lemma rejects_match {before ts : List Token} {m : Match} (h : f.standsIn p before (t :: ts) = false)
    (hm : (f.pattern p).matchAt? before (t :: ts) = some m) : f.accepts m.before = false := by
  have hfits : fits (f.pattern p).elements (t :: ts) := by
    by_contra hfits
    simp [matchAt?_not_fits (isFixed_pattern f p) (Bool.eq_false_iff.2 hfits)] at hm
  have hstands : (f.texts p).isPrefixOf (t.text :: ts.map (·.text)) := isPrefixOf_iff_prefix.2 ((fits_literals _ _).1 hfits)
  rw [Form.standsIn, hstands, Bool.true_and, Bool.or_eq_false_iff] at h
  rw [(of_matchAt? hm).1]
  exact h.1

lemma pass_absent (h : f.standsIn p [] (Code.ofString code).tokens = false) : pass target cell f p code = code := by
  have hpieces (before ts : List Token) (h : f.standsIn p before ts = false) :
      String.join ((f.pattern p).replacePieces
        (fun _ m => ((), if f.accepts m.before then some (f.place target cell) else none)) () 0 before ts).2 = spell ts := by
    induction ts generalizing before with
    | nil => rfl
    | cons t ts ih =>
      have hrest := ih (t :: before) (Bool.or_eq_false_iff.1 h).2
      rw [replacePieces, spell_cons, ← hrest]
      cases hm : (f.pattern p).matchAt? before (t :: ts) with
      | none => simp
      | some m => simp [rejects_match h hm]
  rw [pass, Pattern.replace, Pattern.replaceWith]
  dsimp only
  rw [hpieces [] _ h]
  exact toString_ofString code

lemma element_eq (hp : Token.isIdentifierText p) (imaginary : Bool) (code : String) :
    element target imaginary p cell code = pass target cell .bare p (pass target cell .enclosed p
      (if imaginary then pass target cell .imaginary p code else code)) := by
  have hpattern {s : String} (ws : List String) (hs : s = " ".intercalate ws) (hws : ∀ w ∈ ws, Text.words w = [w]) :
      Pattern.ofString s = ⟨ws.map Pattern.Element.ofWord⟩ := congrArg Pattern.mk (Pattern.elements_words ws hs hws)
  have hword := Pattern.words_identifier hp
  have hforms : Pattern.ofString s!"* ( {p} + 1 )" = Form.pattern .imaginary p ∧
      Pattern.ofString s!"* ( {p} )" = Form.pattern .enclosed p ∧ Pattern.ofString s!"* {p}" = Form.pattern .bare p := by
    refine ⟨(hpattern ["*", "(", p, "+", "1", ")"] ?_ ?_).trans ?_, (hpattern ["*", "(", p, ")"] ?_ ?_).trans ?_,
      (hpattern ["*", p] ?_ ?_).trans ?_⟩
    iterate 3
      · exact String.toList_injective (by simp [toString])
      · simp [hword]; decide +kernel
      · simp only [map_cons, Pattern.ofWord_identifier hp]
        rfl
  obtain ⟨himaginary, henclosed, hbare⟩ := hforms
  rw [element]
  simp only [himaginary, henclosed, hbare, pass, Form.accepts, Form.place]
  simp [toString]

lemma mem_elements (matrix : Table Cell) (imaginary : Bool) (extra : Names) (code name : String) :
    name ∈ (elements matrix target imaginary extra code).1 ↔ name ∈ extra ∧ name ∉ matrix.keys := by
  induction matrix generalizing extra code with
  | nil => simp [elements, Table.keys]
  | cons x matrix ih =>
    rw [elements, foldl_cons, ← elements, ih]
    simp [Names.remove, Table.keys, and_assoc]

end DeviceForge.Circuit
