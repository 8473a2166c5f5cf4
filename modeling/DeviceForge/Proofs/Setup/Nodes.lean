import DeviceForge.Class.Generator
import DeviceForge.Proofs.Iteration.Idioms
/-!
# Allocations of matrix elements

An allocation is eight tokens, wherever they stand, and it is ended if a semicolon follows (`Allocation.at?`).
-/

namespace DeviceForge.Setup

open List Code

open Pattern

/-- An allocation of a matrix element, between two nodes. -/
structure Allocation where
  row : String
  column : String
  /-- A semicolon follows. -/
  ended : Bool
  deriving DecidableEq

namespace Allocation

variable {ts us : List Token} {t : Token}

def form : List Element :=
  [.literal "TSTALLOC", .literal "(", .single .identifier "ptr", .literal ",", .single .identifier "row", .literal ",",
    .single .identifier "column", .literal ")"]

def endedForm : List Element :=
  form ++ [.literal ";"]

def at? (ts : List Token) : Option Allocation :=
  if fits form ts then
    some ⟨(ts[4]?).elim "" (·.text), (ts[6]?).elim "" (·.text), (ts[8]?).any (·.text = ";")⟩
  else none

/-- The allocations among tokens, in their order. -/
def all : List Token → List Allocation
  | [] => []
  | t :: ts => (at? (t :: ts)).toList ++ all ts

/-- The nodes of an allocation, the row first. -/
def nodes (a : Allocation) : List String :=
  [a.row, a.column]

/-- The number of tokens of the ended allocation that tokens start with. -/
def endedWidth (ts : List Token) : Nat :=
  Pattern.width ⟨endedForm⟩ ts

/-- What could be the start of an allocation is never followed by an ended one. -/
def Uninterrupted : List Token → Prop
  | [] => True
  | t :: ts => (∀ n < 7, agrees form (t :: ts.take n) = true → endedWidth (ts.drop n) = 0) ∧ Uninterrupted ts

instance decidableUninterrupted : (ts : List Token) → Decidable (Uninterrupted ts)
  | [] => inferInstanceAs (Decidable True)
  | _ :: ts =>
    have := decidableUninterrupted ts
    inferInstanceAs (Decidable (_ ∧ _))

lemma at?_eq_none_iff : at? ts = none ↔ fits form ts = false := by
  simp [at?]

lemma nodes_of_at? {a : Allocation} (h : at? ts = some a) :
    a.nodes = [(ts[4]?).elim "" (·.text), (ts[6]?).elim "" (·.text)] := by
  obtain ⟨-, h⟩ := Option.ite_none_right_eq_some.1 h
  rw [← Option.some.inj h]
  rfl

lemma nodes_at?_congr (h : ts.take 8 = us.take 8) :
    (at? ts).toList.flatMap nodes = (at? us).toList.flatMap nodes := by
  have hfits : fits form ts = fits form us := by
    rw [← fits_take, ← fits_take form us]
    exact congrArg (fits form) h
  have hplace {i : Nat} (hi : i < 8) : ts[i]? = us[i]? := by rw [← getElem?_take_of_lt hi, h, getElem?_take_of_lt hi]
  cases hts : at? ts with
  | none => rw [at?_eq_none_iff.2 (hfits ▸ at?_eq_none_iff.1 hts)]
  | some a =>
    cases hus : at? us with
    | none =>
      simp [at?_eq_none_iff.2 (hfits ▸ at?_eq_none_iff.1 hus)] at hts
    | some b => simp [nodes_of_at? hts, nodes_of_at? hus, hplace]

lemma fits_endedForm (ts : List Token) : fits endedForm ts = (at? ts).any (·.ended) := by
  have hlast : fits [.literal ";"] (ts.drop 8) = (ts[8]?).any (·.text = ";") := by
    rw [← head?_drop]
    cases ts.drop 8 <;> simp [fits, agrees, Element.takes]
  rw [endedForm, fits_append, show form.length = 8 from rfl, hlast]
  cases h : fits form ts <;> simp [at?, h]

lemma endedWidth_eq_zero_iff : endedWidth ts = 0 ↔ (at? ts).any (·.ended) = false := by
  rw [endedWidth, Pattern.width, fits_endedForm]
  cases (at? ts).any (·.ended) <;> simp [endedForm]

lemma all_drop {n : Nat} (h : ∀ k < n, at? (ts.drop k) = none) : all ts = all (ts.drop n) := by
  induction n generalizing ts with
  | zero => rfl
  | succ n ih =>
    cases ts with
    | nil => rfl
    | cons t ts =>
      have hfirst : at? (t :: ts) = none := h 0 (Nat.succ_pos n)
      rw [all, hfirst, Option.toList_none, nil_append, drop_succ_cons]
      exact ih fun k hk => h (k + 1) (Nat.succ_lt_succ hk)

lemma apart_form : Apart form form := by
  decide

lemma apart_endedForm : Apart endedForm form := by
  decide

lemma all_behind {es : List Element} (hapart : Apart es form) (h : fits es (t :: ts)) :
    all ts = all (ts.drop (es.length - 1)) := by
  refine all_drop fun k hk => at?_eq_none_iff.2 ?_
  exact not_fits_drop hapart (k := k + 1) h (Nat.succ_pos k) (by omega)

structure Finds (p : Pattern) (q : Allocation → Bool) : Prop where
  fixed : IsFixed p.elements
  apart : Apart p.elements form
  row : p.elements[4]? = some (.single .identifier "row")
  column : p.elements[6]? = some (.single .identifier "column")
  fits_eq : ∀ ts, fits p.elements ts = (at? ts).any q

lemma finds_ended : Finds ⟨endedForm⟩ (·.ended) :=
  ⟨by decide, apart_endedForm, rfl, rfl, fits_endedForm⟩

lemma finds_form : Finds ⟨form⟩ fun _ => true :=
  ⟨by decide, apart_form, rfl, rfl, fun ts => by cases h : fits form ts <;> simp [at?, h]⟩

lemma nodes_findAllFrom {p : Pattern} {q : Allocation → Bool} (hp : Finds p q) (n : Nat) (before ts : List Token) :
    (p.findAllFrom n before ts).flatMap (fun m => [m.text "row", m.text "column"]) = ((all (ts.drop n)).filter q).flatMap nodes := by
  have hne : p.elements ≠ [] := by
    intro hnil
    have hrow := hp.row
    simp [hnil] at hrow
  induction ts generalizing n before with
  | nil => cases n <;> simp [findAllFrom, all]
  | cons t ts ih =>
    cases n with
    | succ n => exact ih n (t :: before)
    | zero =>
      have hfits := hp.fits_eq (t :: ts)
      rw [findAllFrom, drop_zero, all, filter_append, flatMap_append]
      cases h : fits p.elements (t :: ts) with
      | false =>
        rw [matchAt?_not_fits hp.fixed h]
        have hother : (at? (t :: ts)).toList.filter q = [] := by
          rw [h] at hfits
          cases ha : at? (t :: ts) <;> simp_all
        rw [hother]
        exact ih 0 (t :: before)
      | true =>
        obtain ⟨m, hm, hlen, htext⟩ := matchAt?_fits hp.fixed hne h before
        obtain ⟨row, hrow, -⟩ := takes_of_fits h hp.row
        obtain ⟨column, hcolumn, -⟩ := takes_of_fits h hp.column
        obtain ⟨a, ha, hq⟩ : ∃ a, at? (t :: ts) = some a ∧ q a := by
          rw [h] at hfits
          simpa [Option.any_eq_true] using hfits.symm
        have hnodes : [m.text "row", m.text "column"] = nodes a := by
          rw [htext 4 _ _ _ hp.row hrow, htext 6 _ _ _ hp.column hcolumn, nodes_of_at? ha, hrow, hcolumn]
          rfl
        rw [hm, ha]
        have hrest := ih (p.elements.length - 1) (t :: before)
        rw [← all_behind hp.apart h] at hrest
        simp [hlen, hrest, hnodes, hq]

lemma at?_lead (lead : String) (t : Token) (ts : List Token) : at? (⟨t.kind, lead, t.text⟩ :: ts) = at? (t :: ts) :=
  rfl

lemma all_behind_lead (lead : String) (c : Code) : all (c.behind lead).tokens = all c.tokens := by
  obtain ⟨ts, tail⟩ := c
  cases ts with
  | nil => rfl
  | cons t ts => rw [Code.behind, all, at?_lead, all]

lemma Uninterrupted.drop (h : Uninterrupted ts) (n : Nat) : Uninterrupted (ts.drop n) := by
  induction n generalizing ts with
  | zero => exact h
  | succ n ih =>
    cases ts with
    | nil => trivial
    | cons t ts => exact ih h.2

lemma remove_start (tail : String) (n : Nat) (ts : List Token) :
    (remove endedWidth tail ts).tokens.take n = ts.take n ∨
      ∃ k < n, endedWidth (ts.drop k) ≠ 0 ∧ ∃ rest, (remove endedWidth tail ts).tokens = ts.take k ++ rest := by
  induction n generalizing ts with
  | zero => exact .inl rfl
  | succ n ih =>
    cases ts with
    | nil => exact .inl rfl
    | cons t ts =>
      by_cases hw : endedWidth (t :: ts) = 0
      · rw [remove_keep hw]
        rcases ih ts with htake | ⟨k, hk, hended, rest, hrest⟩
        · exact .inl (by simp [htake])
        · exact .inr ⟨k + 1, by omega, hended, rest, by simp [hrest]⟩
      · exact .inr ⟨0, by omega, hw, _, rfl⟩

lemma nodes_keep (h : Uninterrupted (t :: ts)) (tail : String) :
    (at? (t :: (remove endedWidth tail ts).tokens)).toList.flatMap nodes = (at? (t :: ts)).toList.flatMap nodes := by
  rcases remove_start tail 7 ts with htake | ⟨k, hk, hended, rest, hrest⟩
  · exact nodes_at?_congr (by simp [htake])
  · -- an ended allocation comes before the eighth token, so there is none before, and none with what follows it
    have hbefore : at? (t :: ts) = none := by
      refine at?_eq_none_iff.2 (Bool.eq_false_iff.2 fun hfits => hended (endedWidth_eq_zero_iff.2 ?_))
      have hinside : fits form (ts.drop k) = false := not_fits_drop (k := k + 1) apart_form hfits (Nat.succ_pos k) (Nat.succ_lt_succ hk)
      rw [at?_eq_none_iff.2 hinside]
      rfl
    have hafter : at? (t :: (remove endedWidth tail ts).tokens) = none := by
      refine at?_eq_none_iff.2 (Bool.eq_false_iff.2 fun hfits => hended (h.1 k hk ?_))
      rw [hrest, ← cons_append, fits, Bool.and_eq_true] at hfits
      exact agrees_append_left hfits.2
    rw [hbefore, hafter]

lemma nodes_remove (h : Uninterrupted ts) (tail : String) :
    (all (remove endedWidth tail ts).tokens).flatMap nodes = ((all ts).filter (!·.ended)).flatMap nodes := by
  induction ts using window_induction endedWidth with
  | nil => rfl
  | keep t ts hw ih =>
    have hopen : (at? (t :: ts)).toList.filter (!·.ended) = (at? (t :: ts)).toList := by
      rw [endedWidth_eq_zero_iff] at hw
      cases ha : at? (t :: ts) <;> simp_all
    rw [remove_keep hw, all, all, filter_append, flatMap_append, flatMap_append, ih h.2, hopen, nodes_keep h]
  | window t ts n hw ih =>
    obtain ⟨hfits, hlen⟩ : fits endedForm (t :: ts) ∧ endedForm.length = n + 1 := by
      rw [endedWidth, Pattern.width] at hw
      split at hw
      · exact ⟨‹_›, hw⟩
      · cases hw
    obtain ⟨a, ha, hended⟩ : ∃ a, at? (t :: ts) = some a ∧ a.ended := by
      simpa [Option.any_eq_true] using (fits_endedForm _).symm.trans hfits
    -- the window is one allocation, and the next one starts behind it
    rw [remove_window hw, all_behind_lead, ih (h.2.drop n), all, all_behind apart_endedForm hfits, hlen, ha]
    simp [hended]

end Allocation

end DeviceForge.Setup

/-! # The nodes of a device -/

namespace DeviceForge

lemma Classes.setupHead_pin {s : Setup} {i : Nat} {pin : String} (h : s.pins[i]? = some pin) :
    (setupHead s)[i + 2]? = some s!"{pin} = nodes[{i}].Index;" := by
  have hne : s.pins.isEmpty = false := by cases hpins : s.pins <;> simp_all
  obtain ⟨more, hmore⟩ : ∃ more, setupHead s =
      "// Allocate nodes" :: "var nodes = BindNodes(ckt);" :: ((s.pins.mapIdx fun i pin => s!"{pin} = nodes[{i}].Index;") ++ more) := by
    rw [setupHead, hne]
    cases s.statesVariable with
    | none => exact ⟨[], by simp⟩
    | some states =>
      generalize s.statesCount.getD "1" = count
      exact ⟨["", "// Allocate states", s!"{states} = ckt.State.GetState({count});"], by simp⟩
  obtain ⟨hi, -⟩ := List.getElem?_eq_some_iff.1 h
  rw [hmore, List.getElem?_cons_succ, List.getElem?_cons_succ, List.getElem?_append_left (by simpa using hi), List.getElem?_mapIdx, h]
  rfl

namespace Setup

open Pattern Parameter Allocation

/-- The code of the device in which allocations are looked for: references are resolved in it, and initial values are taken
out. -/
def deviceCode (s : Setup) (model device : Accessors) : String :=
  (liftDefaults device s.deviceDefaults (s.iteration.exportDevice model device).2).2

/-- The code without its ended allocations. -/
def withoutEnded (code : String) : String :=
  Pattern.replace ⟨endedForm⟩ (fun _ => some "") code

/-- The nodes of allocations, each of them once and where it comes first. -/
def nodesOf (as : List Allocation) : Names :=
  (as.flatMap Allocation.nodes).eraseDups

/-- Every ended allocation is a statement of its own: no tokens grow together where it is taken out, and it does not stand
inside another allocation. -/
structure Separate (ts : List Token) : Prop where
  loose : Code.Loose endedWidth none ts
  uninterrupted : Uninterrupted ts

instance (ts : List Token) : Decidable (Separate ts) :=
  decidable_of_iff (Code.Loose endedWidth none ts ∧ Uninterrupted ts) ⟨fun h => ⟨h.1, h.2⟩, fun h => ⟨h.loose, h.uninterrupted⟩⟩

/-- No allocation stands before an ended one, unless it is ended itself. -/
def EndedFirst (as : List Allocation) : Prop :=
  as.Pairwise fun a b => b.ended = true → a.ended = true

instance (as : List Allocation) : Decidable (EndedFirst as) :=
  inferInstanceAs (Decidable (as.Pairwise _))

lemma elementPatterns_eq : elementPatterns = [⟨endedForm⟩, ⟨form⟩] := by
  decide +kernel

lemma nodes_foldl_addElement (s : Setup) (ms : List Match) :
    (ms.foldl addElement s).nodes = s.nodes.addAll (ms.flatMap fun m => [m.text "row", m.text "column"]) := by
  induction ms generalizing s with
  | nil => rfl
  | cons m ms ih => exact ih (addElement s m)

lemma nodes_replaceWith {p : Pattern} {q : Allocation → Bool} (hp : Finds p q) (s : Setup) (code : String) :
    (p.replaceWith (fun s m => (addElement s m, some "")) s code).1.nodes =
      s.nodes.addAll (((all (Code.ofString code).tokens).filter q).flatMap Allocation.nodes) := by
  rw [replaceWith_state addElement, nodes_foldl_addElement, findAll, nodes_findAllFrom hp, List.drop_zero]

lemma replaceWith_ended (s : Setup) (code : String) :
    (replaceWith ⟨endedForm⟩ (fun s m => (addElement s m, some "")) s code).2 = withoutEnded code := by
  have hne : endedForm ≠ [] := List.cons_ne_nil _ _
  rw [replaceWith_text addElement finds_ended.fixed hne]
  exact (replaceWith_text (fun _ _ => ()) finds_ended.fixed hne () code).symm

lemma nodes_liftElements (s : Setup) (code : String) : (s.liftElements code).1.nodes =
      s.nodes.addAll (((all (Code.ofString code).tokens).filter (·.ended) ++ all (Code.ofString (withoutEnded code)).tokens).flatMap
        Allocation.nodes) := by
  rw [liftElements, elementPatterns_eq]
  simp only [List.foldl_cons, List.foldl_nil]
  rw [nodes_replaceWith finds_form, nodes_replaceWith finds_ended, replaceWith_ended, List.filter_true, List.flatMap_append,
    Names.addAll_append]

lemma nodes_withoutEnded {code : String} (h : Separate (Code.ofString code).tokens) :
    (all (Code.ofString (withoutEnded code)).tokens).flatMap Allocation.nodes =
      ((all (Code.ofString code).tokens).filter (!·.ended)).flatMap Allocation.nodes := by
  have htext : withoutEnded code = (Code.remove endedWidth (Code.ofString code).tail (Code.ofString code).tokens).toString :=
    replaceWith_text (fun _ _ => ()) finds_ended.fixed (List.cons_ne_nil _ _) () code
  have hlegible := Code.legible_remove (Code.opens_ofString code) (Code.ofString_tail code) h.loose
  rw [htext, hlegible.ofString_toString, nodes_remove h.uninterrupted]

lemma EndedFirst.filter_append {as : List Allocation} (h : EndedFirst as) :
    as.filter (·.ended) ++ as.filter (!·.ended) = as := by
  induction as with
  | nil => rfl
  | cons a as ih =>
    obtain ⟨hfirst, hrest⟩ := List.pairwise_cons.1 h
    cases hended : a.ended with
    | true => simpa [hended] using ih hrest
    | false =>
      have hothers : ∀ b ∈ as, b.ended = false := fun b hb =>
        Bool.eq_false_iff.2 fun htrue => by simp [hfirst b hb htrue] at hended
      have hnone : as.filter (·.ended) = [] := List.filter_eq_nil_iff.2 fun b hb => by simp [hothers b hb]
      have hall : as.filter (!·.ended) = as := List.filter_eq_self.2 fun b hb => by simp [hothers b hb]
      simp [hended, hnone, hall]

lemma createdNodes_liftElements (s : Setup) (code : String) : (s.liftElements code).1.createdNodes = s.createdNodes := by
  have hpass (p : Pattern) (s : Setup) (code : String) :
      (p.replaceWith (fun s m => (addElement s m, some "")) s code).1.createdNodes = s.createdNodes :=
    replaceWith_unchanged addElement (g := Setup.createdNodes) (fun _ _ => rfl) s code
  rw [liftElements, elementPatterns_eq]
  simp only [List.foldl_cons, List.foldl_nil, hpass]

lemma liftStates_unchanged (s : Setup) (code : String) :
    (s.liftStates code).1.nodes = s.nodes ∧ (s.liftStates code).1.createdNodes = s.createdNodes :=
  let found (s : Setup) (m : Match) : Setup := { s with statesVariable := some (m.text "var"), statesCount := some (m.text "count") }
  ⟨replaceWith_unchanged found (g := Setup.nodes) (fun _ _ => rfl) s code,
    replaceWith_unchanged found (g := Setup.createdNodes) (fun _ _ => rfl) s code⟩

lemma exportDevice_nodes {s : Setup} (hnil : s.nodes = []) (model device : Accessors) :
    (s.exportDevice model device).1.nodes =
      nodesOf ((all (Code.ofString (s.deviceCode model device)).tokens).filter (·.ended) ++
        all (Code.ofString (withoutEnded (s.deviceCode model device))).tokens) := by
  rw [nodesOf, ← Names.addAll_nil_eq_eraseDups, ← hnil]
  exact (liftStates_unchanged _ _).1.trans (nodes_liftElements _ _)

lemma exportDevice_createdNodes (s : Setup) (model device : Accessors) :
    (s.exportDevice model device).1.createdNodes = s.createdNodes :=
  (liftStates_unchanged _ _).2.trans (createdNodes_liftElements _ _)

lemma of_ofMethod {method name : String} {s : Setup} {findings : List Diagnostic} (h : ofMethod method name = .ok (s, findings)) :
    s.nodes = [] ∧ s.createdNodes = (createNodes method).1 := by
  cases hargument : (Signature.parameters method (some name))[statesPlace]? with
  | none =>
    simp [ofMethod, hargument] at h
  | some argument =>
    cases hiteration : Iteration.ofMethod (createNodes method).2 name with
    | error e =>
      rw [ofMethod, hargument] at h
      simp [hiteration, Bind.bind, Except.bind] at h
    | ok found =>
      rw [ofMethod, hargument] at h
      simp only [hiteration, Bind.bind, Except.bind, pure, Except.pure, Except.ok.injEq, Prod.mk.injEq] at h
      rw [← h.1]
      exact ⟨rfl, rfl⟩

/-- A setup method with this code for each instance. -/
def allocating (code : String) : String :=
  "f(a,b,c,n)\x7bfor(;m!=NULL;m=m->k)\x7bfor(h=m->i;h!=NULL;h=h->j)\x7b" ++ code ++ "\x7d\x7d\x7d"

/-- What is read from such a method. -/
def allocatingSetup (code : String) : Setup :=
  ⟨⟨⟨"", "", code, "m", "h", "ckt", ["a", "b", "c", "n"]⟩, ⟨[], [], []⟩, [], []⟩, "n", [], [], [], [], [], none, none⟩

/-- An allocation with a semicolon before one without it. -/
def endedBefore : String :=
  "TSTALLOC(p,a,b);TSTALLOC(q,b,c)"

/-- An allocation with a semicolon behind one without it. -/
def endedBehind : String :=
  "TSTALLOC(p,a,b)TSTALLOC(q,c,d);"

lemma deviceCode_allocating {code : String} (h : (allocatingSetup code).iteration.Separate .empty .empty)
    (hpasses : Code.toString
      ⟨((allocatingSetup code).iteration.passRules .empty .empty).foldl (fun ts r => r.rewrite ts)
        (allocatingSetup code).iteration.deviceTokens, (Code.ofString (Text.trim code)).tail⟩ = code)
    (hdefaults : (liftDefaults .empty [] code).2 = code) : (allocatingSetup code).deviceCode .empty .empty = code := by
  have hexport : ((allocatingSetup code).iteration.exportDevice .empty .empty).2 = code := h.exportDevice_text.trans hpasses
  rw [deviceCode, hexport]
  exact hdefaults

lemma deviceCode_endedBefore : (allocatingSetup endedBefore).deviceCode .empty .empty = endedBefore :=
  deviceCode_allocating ⟨by decide, by decide, by decide, by decide, by decide, by decide +kernel, by decide +kernel⟩
    (by decide +kernel) (by decide +kernel)

lemma deviceCode_endedBehind : (allocatingSetup endedBehind).deviceCode .empty .empty = endedBehind :=
  deviceCode_allocating ⟨by decide, by decide, by decide, by decide, by decide, by decide +kernel, by decide +kernel⟩
    (by decide +kernel) (by decide +kernel)

lemma ofMethod_endedBefore : ofMethod (allocating endedBefore) "f" = .ok (allocatingSetup endedBefore, []) := by
  decide +kernel

/-! ## The order of nodes and pins -/

/-- The nodes after the setup of a device are those of the ended allocations in the order of the code, and then those of the
allocations in what is left of it. If the ended ones are separate, these are the other allocations in the order of the code; so if
the ended ones come first, the nodes are in the order of the code. The pins are the nodes that the device does not create, and the
pin with an index is bound to the node with this index. -/
theorem nodes_exportDevice {method name : String} {s : Setup} {findings : List Diagnostic}
    (h : ofMethod method name = .ok (s, findings)) (model device : Accessors) :
    let code := s.deviceCode model device
    let found := all (Code.ofString code).tokens
    let after := (s.exportDevice model device).1
    after.nodes = nodesOf (found.filter (·.ended) ++ all (Code.ofString (withoutEnded code)).tokens) ∧
      (Separate (Code.ofString code).tokens →
        after.nodes = nodesOf (found.filter (·.ended) ++ found.filter (!·.ended)) ∧
        (EndedFirst found → after.nodes = nodesOf found)) ∧
      after.pins = after.nodes.filter (!(createNodes method).1.contains ·) ∧
      ∀ i pin, after.pins[i]? = some pin → (Classes.setupHead after)[i + 2]? = some s!"{pin} = nodes[{i}].Index;" := by
  intro code found after
  obtain ⟨hnil, hcreated⟩ := of_ofMethod h
  have hnodes : after.nodes = nodesOf (found.filter (·.ended) ++ all (Code.ofString (withoutEnded code)).tokens) :=
    exportDevice_nodes hnil model device
  have hseparate (hsep : Separate (Code.ofString code).tokens) :
      after.nodes = nodesOf (found.filter (·.ended) ++ found.filter (!·.ended)) := by
    rw [hnodes, nodesOf, nodesOf, List.flatMap_append, List.flatMap_append, nodes_withoutEnded hsep]
  refine ⟨hnodes, fun hsep => ⟨hseparate hsep, fun hfirst => ?_⟩, ?_, fun i pin => Classes.setupHead_pin⟩
  · rw [hseparate hsep, hfirst.filter_append]
  · rw [pins, exportDevice_createdNodes, hcreated]

theorem nodes_exportDevice_endedBefore :
    ofMethod (allocating endedBefore) "f" = .ok (allocatingSetup endedBefore, []) ∧
      Separate (Code.ofString ((allocatingSetup endedBefore).deviceCode .empty .empty)).tokens ∧
      EndedFirst (all (Code.ofString ((allocatingSetup endedBefore).deviceCode .empty .empty)).tokens) ∧
      ((allocatingSetup endedBefore).exportDevice .empty .empty).1.nodes = ["a", "b", "c"] ∧
      ((allocatingSetup endedBefore).exportDevice .empty .empty).1.pins = ["a", "b", "c"] ∧
      (Classes.setupHead ((allocatingSetup endedBefore).exportDevice .empty .empty).1)[4]? = some "c = nodes[2].Index;" := by
  have hread := ofMethod_endedBefore
  have hseparate : Separate (Code.ofString ((allocatingSetup endedBefore).deviceCode .empty .empty)).tokens := by
    rw [deviceCode_endedBefore]
    decide +kernel
  have hfirst : EndedFirst (all (Code.ofString ((allocatingSetup endedBefore).deviceCode .empty .empty)).tokens) := by
    rw [deviceCode_endedBefore]
    decide +kernel
  have hfound : nodesOf (all (Code.ofString ((allocatingSetup endedBefore).deviceCode .empty .empty)).tokens) = ["a", "b", "c"] := by
    rw [deviceCode_endedBefore]
    decide +kernel
  obtain ⟨-, horder, hpins, hbound⟩ := nodes_exportDevice hread .empty .empty
  have hnodes := ((horder hseparate).2 hfirst).trans hfound
  have hcreated : (createNodes (allocating endedBefore)).1 = [] := (of_ofMethod hread).2.symm
  rw [hnodes, hcreated] at hpins
  exact ⟨hread, hseparate, hfirst, hnodes, hpins, (hbound 2 "c" (by rw [hpins]; rfl)).trans (by decide)⟩

/-- The nodes of an allocation without a semicolon come last, even if it stands before one with a semicolon. -/
theorem not_nodes_exportDevice_endedBehind :
    ofMethod (allocating endedBehind) "f" = .ok (allocatingSetup endedBehind, []) ∧
      nodesOf (all (Code.ofString ((allocatingSetup endedBehind).deviceCode .empty .empty)).tokens) = ["a", "b", "c", "d"] ∧
      ((allocatingSetup endedBehind).exportDevice .empty .empty).1.nodes = ["c", "d", "a", "b"] ∧
      ((allocatingSetup endedBehind).exportDevice .empty .empty).1.pins = ["c", "d", "a", "b"] := by
  have hnodes : ((allocatingSetup endedBehind).exportDevice .empty .empty).1.nodes = ["c", "d", "a", "b"] := by
    rw [exportDevice_nodes rfl, deviceCode_endedBehind]
    decide +kernel
  refine ⟨by decide +kernel, ?_, hnodes, ?_⟩
  · rw [deviceCode_endedBehind]
    decide +kernel
  · rw [pins, exportDevice_createdNodes, hnodes]
    rfl

end Setup

end DeviceForge
