import DeviceForge.Parameter.Accessors
import DeviceForge.Proofs.Table
/-!
# Given flags and the fields behind them

`Outcome` says what one parameter id can do to the accessors of a class.
-/

namespace DeviceForge.Parameter.Accessors

open Option

variable {a after : Accessors} {id field : String}

inductive Outcome (a : Accessors) (id : String) : Accessors → Diagnostic ⊕ Declaration.Kind → Prop where
  | flagged (given field : String) : Outcome a id { a with given := a.given.put given field } (.inr (.flagged field))
  | property (field : String) (readOnly : Bool) : Outcome a id a (.inr (.property field readOnly))
  | custom (givens : Table String) (field getter setter : String) :
    Outcome a id (a.noteGivens givens)
      (.inr (.custom field getter setter ((a.noteGivens givens).given.any (·.2 = field))))
  | unprocessed : Outcome a id a (.inl (.unprocessedId id))
  | setMethod (givens : Table String) (name body : String) : Outcome a id (a.noteGivens givens) (.inr (.setMethod name body))
  | getMethod (name body : String) : Outcome a id a (.inr (.getMethod name body))

lemma resolve_outcome (a : Accessors) (d : Descriptor) {set get : Option (Accessor × String)} (h : set ≠ none ∨ get ≠ none) :
    ∃ after out, a.resolve d set get = .ok (after, out) ∧ Outcome a d.id after out := by
  match set, get with
  | none, none => simp at h
  | some (setter, setBody), some (getter, getBody) =>
    rw [resolve]
    -- what the two sides give together does not depend on which of them has no default shape
    cases commonField? (setter.stores? setBody a.given) (getter.readFields getBody) with
    | none =>
      dsimp only
      split
      · split
        · exact ⟨_, _, rfl, .flagged _ _⟩
        · exact ⟨_, _, rfl, .unprocessed⟩
      · split
        · exact ⟨_, _, rfl, .property _ _⟩
        · exact ⟨_, _, rfl, .unprocessed⟩
      · exact ⟨_, _, rfl, .unprocessed⟩
    | some found =>
      dsimp only
      split
      · split
        · exact ⟨_, _, rfl, .flagged _ _⟩
        · exact ⟨_, _, rfl, .custom _ _ _ _⟩
      · split
        · exact ⟨_, _, rfl, .property _ _⟩
        · exact ⟨_, _, rfl, .custom _ _ _ _⟩
      · exact ⟨_, _, rfl, .custom _ _ _ _⟩
  | some (setter, body), none =>
    rw [resolve]
    split
    · exact ⟨_, _, rfl, .flagged _ _⟩
    · exact ⟨_, _, rfl, .property _ _⟩
    · exact ⟨_, _, rfl, .setMethod _ _ _⟩
    · exact ⟨_, _, rfl, .setMethod [] _ _⟩
  | none, some (getter, body) =>
    rw [resolve]
    split
    · exact ⟨_, _, rfl, .property _ _⟩
    · exact ⟨_, _, rfl, .getMethod _ _⟩

lemma Outcome.declarations_eq {out : Diagnostic ⊕ Declaration.Kind} (h : Outcome a id after out) :
    after.declarations = a.declarations := by
  cases h <;> rfl

lemma isFlagged_insert_of_isFlagged (h : a.isFlagged field) (d : Declaration) : (a.insert d).isFlagged field := by
  obtain ⟨old, hold, hflagged⟩ := (any_eq_true _ _).1 h
  rw [insert]
  split
  · exact h
  · rename_i other hother
    rw [isFlagged, any_eq_true]
    dsimp only
    split
    · rw [Table.get?_adjust, hold]
      refine ⟨_, rfl, ?_⟩
      split <;> exact hflagged
    · exact ⟨old, by rw [Table.get?_append, hold, some_or], hflagged⟩

lemma isFlagged_insert {d : Declaration} (hfield : d.field? = some field) (hflagged : d.isFlagged)
    (hold : ∀ old, a.declarations.get? field = some old → old.isFlagged) : (a.insert d).isFlagged field := by
  cases hget : a.declarations.get? field with
  | some old =>
    refine isFlagged_insert_of_isFlagged ?_ d
    rw [isFlagged, hget]
    exact hold old hget
  | none =>
    have hnew : a.declarations.has field = false := by
      rw [← Bool.not_eq_true, Table.has_iff]
      exact Table.get?_eq_none_iff.1 hget
    rw [insert, hfield, isFlagged]
    dsimp only
    rw [if_neg (by simp [hnew]), Table.get?_append, hget, none_or]
    simp [Table.get?, hflagged]

def AllWrapped (a : Accessors) : Prop :=
  ∀ entry ∈ a.given, a.isFlagged entry.2 = true

def fieldOf? : Diagnostic ⊕ Declaration.Kind → Option String
  | .inr (.flagged field) | .inr (.property field _) | .inr (.custom field _ _ _) => some field
  | _ => none

lemma field?_ofDescriptor (d : Descriptor) (kind : Declaration.Kind) : (Declaration.ofDescriptor d kind).field? = fieldOf? (.inr kind) := by
  cases kind <;> rfl

/-- Each flag that is new belongs to the field that is declared, and the field has not been declared as a plain one. -/
def addsOwn (a after : Accessors) (out : Diagnostic ⊕ Declaration.Kind) : Bool :=
  (after.given.filter (!a.given.contains ·)).all fun (_, field) =>
    fieldOf? out = some field && (a.declarations.get? field).all Declaration.isFlagged

lemma Outcome.allWrapped {d : Descriptor} {kind : Declaration.Kind} (h : Outcome a d.id after (.inr kind))
    (hown : addsOwn a after (.inr kind)) (hall : AllWrapped a) : AllWrapped (after.insert (.ofDescriptor d kind)) := by
  intro entry hentry
  have hsame : (after.insert (.ofDescriptor d kind)).given = after.given := by
    rw [insert]
    split <;> rfl
  rw [hsame] at hentry
  by_cases hold : entry ∈ a.given
  · refine isFlagged_insert_of_isFlagged ?_ _
    rw [isFlagged, h.declarations_eq]
    exact hall entry hold
  · have hnew := List.all_eq_true.1 hown entry (List.mem_filter.2 ⟨hentry, by simpa using hold⟩)
    simp only [Bool.and_eq_true, decide_eq_true_eq, all_eq_true] at hnew
    obtain ⟨hfield, hdeclared⟩ := hnew
    refine isFlagged_insert (by rw [field?_ofDescriptor, hfield]) ?_ fun old hget => hdeclared old (by rwa [← h.declarations_eq])
    cases h with
    | flagged given field => rfl
    | property field readOnly => exact absurd hentry hold
    | custom givens field getter setter =>
      obtain rfl : field = entry.2 := some.inj hfield
      have hany : ((a.noteGivens givens).given.any (·.2 = entry.2)) :=
        List.any_eq_true.2 ⟨entry, hentry, decide_eq_true rfl⟩
      simp only [hany]
      rfl
    | setMethod givens name body => cases hfield
    | getMethod name body => cases hfield

/-! ## Whole runs -/

def bodyOf (side : Option Accessor) (id : String) : Option (Accessor × String) :=
  side.bind fun s => (s.body? id).map (s, ·)

section
variable (set get : Option Accessor) (table : Table Descriptor)

lemma addId_cases (a : Accessors) (findings : List Diagnostic) (id : String) :
    ((bodyOf set id = none ∧ bodyOf get id = none) ∧ addId set get table a findings id = .ok (a, findings)) ∨
    (¬(bodyOf set id = none ∧ bodyOf get id = none) ∧ table.get? id = none ∧
      addId set get table a findings id = .ok (a, findings ++ [.unresolvedId id])) ∨
    (∃ d after out, ¬(bodyOf set id = none ∧ bodyOf get id = none) ∧ table.get? id = some d ∧ a.resolve d (bodyOf set id) (bodyOf get id) = .ok (after, out) ∧ Outcome a d.id after out ∧
      addId set get table a findings id = .ok (match out with
        | .inl finding => (after, findings ++ [finding])
        | .inr kind => (after.insert (.ofDescriptor d kind), findings))) := by
  rw [addId]
  split_ifs with hbody
  · rw [Bool.and_eq_true, isNone_iff_eq_none, isNone_iff_eq_none] at hbody
    exact .inl ⟨hbody, rfl⟩
  · rw [Bool.and_eq_true, isNone_iff_eq_none, isNone_iff_eq_none] at hbody
    cases htable : table.get? id with
    | none => exact .inr (.inl ⟨hbody, rfl, rfl⟩)
    | some d =>
      have hsome : bodyOf set id ≠ none ∨ bodyOf get id ≠ none := not_and_or.1 hbody
      obtain ⟨after, out, hresolve, houtcome⟩ := resolve_outcome a d hsome
      refine .inr (.inr ⟨d, after, out, hbody, rfl, hresolve, houtcome, ?_⟩)
      change (a.resolve d (bodyOf set id) (bodyOf get id) >>= _) = _
      rw [hresolve]
      cases out <;> rfl

/-- Along the run over the ids, each id adds flags of the field that it declares only, and no plain field gets a flag. -/
def orderly (a : Accessors) (findings : List Diagnostic) : List String → Bool
  | [] => true
  | id :: ids =>
    ((table.get? id).all fun d =>
      match a.resolve d (bodyOf set id) (bodyOf get id) with
      | .ok (after, out) => addsOwn a after out
      | .error _ => true) &&
    match addId set get table a findings id with
    | .ok (a, findings) => orderly a findings ids
    | .error _ => true

variable {set get table}

lemma AllWrapped.addId (h : AllWrapped a) {findings : List Diagnostic} {ids : List String}
    (horderly : orderly set get table a findings (id :: ids)) :
    ∃ after later, addId set get table a findings id = .ok (after, later) ∧ AllWrapped after ∧ orderly set get table after later ids := by
  rw [orderly, Bool.and_eq_true] at horderly
  obtain ⟨hid, hids⟩ := horderly
  rcases addId_cases set get table a findings id with ⟨-, hadd⟩ | ⟨-, -, hadd⟩ | ⟨d, after, out, -, htable, hresolve, houtcome, hadd⟩
  · rw [hadd] at hids
    exact ⟨_, _, hadd, h, hids⟩
  · rw [hadd] at hids
    exact ⟨_, _, hadd, h, hids⟩
  · rw [hadd] at hids
    rw [htable, all_some, hresolve] at hid
    cases out with
    | inl finding =>
      cases houtcome
      exact ⟨_, _, hadd, h, hids⟩
    | inr kind => exact ⟨_, _, hadd, houtcome.allWrapped hid h, hids⟩

lemma AllWrapped.addIds {ids : List String} (h : AllWrapped a) {findings : List Diagnostic}
    (horderly : orderly set get table a findings ids) :
    ∃ after later, ids.foldlM (fun (a, findings) id => Accessors.addId set get table a findings id) (a, findings) =
      Except.ok (after, later) ∧ AllWrapped after := by
  induction ids generalizing a findings with
  | nil => exact ⟨a, findings, rfl, h⟩
  | cons id ids ih =>
    obtain ⟨after, later, hadd, hall, hrest⟩ := h.addId horderly
    obtain ⟨last, all, hrun, hlast⟩ := ih hall hrest
    refine ⟨last, all, ?_, hlast⟩
    rw [List.foldlM_cons]
    dsimp only
    rw [hadd]
    exact hrun

end

/-- The accessors before the first id. -/
def start (get : Option Accessor) : Accessors :=
  { empty with circuit := get.bind (·.circuit) }

/-- Every flag belongs to a wrapper if each id that adds a flag declares its field, and no id before it has declared the field as a plain
one. -/
theorem ofAccessors_flagged (set get : Option Accessor) (table : Table Descriptor)
    (h : orderly set get table (start get) [] (caseIds set get) = true) :
    ∃ a findings, ofAccessors set get table = .ok (a, findings) ∧ ∀ flag field, (flag, field) ∈ a.given → a.isFlagged field = true := by
  have hstart : AllWrapped (start get) := fun entry hentry => by cases hentry
  obtain ⟨a, findings, hrun, hall⟩ := hstart.addIds h
  exact ⟨a, findings, hrun, fun flag field hmem => hall (flag, field) hmem⟩

/-- A parameter whose flag is raised, and one that is only asked for. -/
def pairSetter : Accessor :=
  ⟨"param", [("A", "h->x=v->rValue;h->xGiven=TRUE;return(OK);")], "h", "v", none⟩

def pairGetter : Accessor :=
  ⟨"ask", [("A", "v->rValue=h->x;return(OK);"), ("B", "v->rValue=h->y;return(OK);")], "h", "v", some "ckt"⟩

def twoRows : Table Descriptor :=
  ["A", "B"].map fun id => (id, ⟨id, "IOP", [id], .real, ""⟩)

theorem ofAccessors_flagged_pair :
    orderly (some pairSetter) (some pairGetter) twoRows (start (some pairGetter)) [] (caseIds (some pairSetter) (some pairGetter)) = true ∧
      ∃ a findings, ofAccessors (some pairSetter) (some pairGetter) twoRows = .ok (a, findings) ∧
        ∀ flag field, (flag, field) ∈ a.given → a.isFlagged field = true := by
  have h : orderly (some pairSetter) (some pairGetter) twoRows (start (some pairGetter)) []
      (caseIds (some pairSetter) (some pairGetter)) = true := by decide +kernel
  exact ⟨h, ofAccessors_flagged _ _ _ h⟩

/-- Two ids share the body of the second one, which stores a field and raises its flag. -/
def sharedSetter : Accessor :=
  ⟨"param", [("A", ""), ("B", "h->x=v->rValue;h->xGiven=TRUE;return(OK);")], "h", "v", none⟩

/-- Only the first of the ids can be asked for. -/
def sharedGetter : Accessor :=
  ⟨"ask", [("A", "v->rValue=h->x;return(OK);")], "h", "v", some "c"⟩

/-- The flag of a field that is declared as a plain one first points at the plain field. -/
theorem not_flagged_plain_first :
    ¬∀ a findings, ofAccessors (some sharedSetter) (some sharedGetter) twoRows = .ok (a, findings) →
      ∀ flag field, (flag, field) ∈ a.given → a.isFlagged field = true := by
  have hrun : (ofAccessors (some sharedSetter) (some sharedGetter) twoRows).toOption.any
      (fun found => found.1.given.contains ("xGiven", "x") && !found.1.isFlagged "x") = true := by decide +kernel
  intro hall
  cases hfound : ofAccessors (some sharedSetter) (some sharedGetter) twoRows with
  | error e =>
    rw [hfound] at hrun
    cases hrun
  | ok found =>
    rw [hfound, Except.toOption, any_some, Bool.and_eq_true, List.contains_iff_mem, Bool.not_eq_true'] at hrun
    have hflagged := hall found.1 found.2 hfound "xGiven" "x" hrun.1
    rw [hrun.2] at hflagged
    cases hflagged

end DeviceForge.Parameter.Accessors

/-! # What becomes of each parameter id -/

namespace DeviceForge.Parameter

open List Option

/-- Each parameter stands under its own id, and has no name twice. -/
def Catalogued (table : Table Descriptor) : Prop :=
  ∀ entry ∈ table, entry.2.id = entry.1 ∧ entry.2.names.Nodup

lemma Catalogued.get? {table : Table Descriptor} (h : Catalogued table) {id : String} {d : Descriptor} (hd : table.get? id = some d) :
    d.id = id ∧ d.names.Nodup :=
  h (id, d) (Table.mem_of_get? hd)

lemma Catalogued.addRow {table : Table Descriptor} (h : Catalogued table) (r : Row) (type : ValueType) :
    Catalogued (addRow table r type) := by
  have hnew : Catalogued (table.putNew r.id ⟨r.id, r.access, [], type, r.description⟩) := by
    rw [Table.putNew]
    split
    · exact h
    · intro entry hentry
      rcases mem_append.1 hentry with hentry | hentry
      · exact h entry hentry
      · obtain rfl := mem_singleton.1 hentry
        exact ⟨rfl, nodup_nil⟩
  intro entry hentry
  rw [Parameter.addRow] at hentry
  obtain ⟨d, hd, hsame | hsame⟩ := Table.mem_adjust hentry
  · rw [hsame]
    exact ⟨(hnew _ hd).1, Names.nodup_add (hnew _ hd).2 _⟩
  · rw [hsame]
    exact hnew _ hd

lemma catalogued_ofRows (rows : List Row) : Catalogued (ofRows rows).1 := by
  refine foldlRecOn (motive := fun (found : Table Descriptor × List Diagnostic) => Catalogued found.1) rows _
    (by simp [Catalogued]) fun found h r _ => ?_
  dsimp only
  split
  · exact h.addRow r _
  · exact h

lemma catalogued_readTable {declaration : String} {table : Table Descriptor} {findings : List Diagnostic}
    (h : readTable declaration = .ok (table, findings)) : Catalogued table := by
  rw [readTable] at h
  dsimp only at h
  split at h
  · obtain ⟨rfl, -⟩ := Prod.mk.inj (Except.ok.inj h)
    simp [Catalogued]
  · cases hblock : Segment.enclosed (Segment.removeComments declaration) _ with
    | error e =>
      rw [hblock] at h
      cases h
    | ok block =>
      rw [hblock] at h
      have hrows := Except.ok.inj h
      rw [← show _ = table from congrArg Prod.fst hrows]
      exact catalogued_ofRows _

namespace Accessors

variable {a after : Accessors} {d : Declaration} {id : String} {out : Diagnostic ⊕ Declaration.Kind}

/-! ## Adding a declaration -/

def namesOf (a : Accessors) (field : String) : Names :=
  ((a.declarations.get? field).map (·.names)).getD []

/-- The declarations stand under their own fields, which are the fields that are owned; names come once; what has no
field is a method. -/
structure Consistent (a : Accessors) : Prop where
  own : ∀ entry ∈ a.declarations, entry.2.field? = some entry.1
  distinct : ∀ entry ∈ a.declarations, entry.2.names.Nodup
  nodup : a.declarations.keys.Nodup
  owned_eq : a.owned = a.declarations.keys
  free : ∀ d ∈ a.methods, (∃ name body, d.kind = .setMethod name body) ∨ ∃ name body, d.kind = .getMethod name body

lemma insert_method (h : d.field? = none) : a.insert d = { a with methods := a.methods ++ [d] } := by
  rw [insert, h]

section
variable {field : String} (h : d.field? = some field)

include h

lemma owned_insert : (a.insert d).owned = a.owned.add field := by
  rw [insert, h]

lemma methods_insert : (a.insert d).methods = a.methods := by
  rw [insert, h]

lemma keys_insert :
    (a.insert d).declarations.keys = Names.add a.declarations.keys field := by
  rw [insert, h]
  dsimp only
  split_ifs with hhas
  · rw [Table.keys_adjust, Names.add, if_pos (by simpa using Table.has_iff.1 hhas)]
  · rw [Table.has_iff] at hhas
    rw [Names.add, if_neg (by simpa using hhas)]
    simp [Table.keys]

lemma namesOf_insert (hnames : d.names.Nodup) (other : String) :
    (a.insert d).namesOf other = if other = field then (a.namesOf field).addAll d.names else a.namesOf other := by
  rw [insert, h, namesOf]
  dsimp only
  split
  · rename_i hhas
    obtain ⟨old, hold⟩ := ne_none_iff_exists'.1 (mt Table.get?_eq_none_iff.1 (not_not.2 (Table.has_iff.1 hhas)))
    rw [Table.get?_adjust]
    split
    · rename_i hsame
      simp [hsame, namesOf, hold]
    · simp [namesOf]
  · rename_i hhas
    rw [Table.has_iff, ← Table.get?_eq_none_iff] at hhas
    rw [Table.get?_append]
    split
    · rename_i hsame
      have hall : Names.addAll [] d.names = d.names := Names.addAll_eq_append hnames (by simp)
      rw [hsame, namesOf, hhas, map_none, getD_none, hall]
      simp [Table.get?]
    · rename_i hne
      simp [namesOf, Table.get?, lookup_cons, beq_eq_false_iff_ne.mpr hne]

end

lemma Consistent.insert_field (ha : Consistent a) {field : String} (h : d.field? = some field)
    (hnames : d.names.Nodup) : Consistent (a.insert d) := by
  have hentries : ∀ entry ∈ (a.insert d).declarations, entry.2.field? = some entry.1 ∧ entry.2.names.Nodup := by
    intro entry hentry
    rw [insert, h] at hentry
    dsimp only at hentry
    split at hentry
    · obtain ⟨old, hold, hsame | hsame⟩ := Table.mem_adjust hentry
      · rw [hsame]
        exact ⟨ha.own _ hold, Names.nodup_addAll (ha.distinct _ hold) _⟩
      · rw [hsame]
        exact ⟨ha.own _ hold, ha.distinct _ hold⟩
    · rcases mem_append.1 hentry with hentry | hentry
      · exact ⟨ha.own _ hentry, ha.distinct _ hentry⟩
      · obtain rfl := mem_singleton.1 hentry
        exact ⟨h, hnames⟩
  constructor
  case own => exact fun entry hentry => (hentries entry hentry).1
  case distinct => exact fun entry hentry => (hentries entry hentry).2
  case nodup => exact keys_insert h ▸ Names.nodup_add ha.nodup field
  case owned_eq => rw [owned_insert h, keys_insert h, ha.owned_eq]
  case free =>
    rw [methods_insert h]
    exact ha.free

lemma Consistent.insert_method (ha : Consistent a) (h : d.field? = none)
    (hkind : (∃ name body, d.kind = .setMethod name body) ∨ ∃ name body, d.kind = .getMethod name body) : Consistent (a.insert d) := by
  rw [Accessors.insert_method h]
  exact ⟨ha.own, ha.distinct, ha.nodup, ha.owned_eq, forall_mem_append.2 ⟨ha.free, forall_mem_singleton.2 hkind⟩⟩

/-! ## The ledger -/

/-- What becomes of an id that has a body. -/
inductive Fate where
  /-- No table lists the id, which is reported. -/
  | unresolved
  /-- The two sides of the id have no field in common, which is reported. -/
  | unprocessed
  | method (d : Declaration)
  | field (name : String)

namespace Fate

def finding? (id : String) : Fate → Option Diagnostic
  | unresolved => some (.unresolvedId id)
  | unprocessed => some (.unprocessedId id)
  | _ => none

def method? : Fate → Option Declaration
  | method d => some d
  | _ => none

def field? : Fate → Option String
  | field name => some name
  | _ => none

/-- Only what no table lists is unresolved, and a method carries the id and the names of its row. -/
def Fits (table : Table Descriptor) (id : String) : Fate → Prop
  | unresolved => table.get? id = none
  | unprocessed | field _ => ∃ d, table.get? id = some d
  | method m => ∃ d, table.get? id = some d ∧ m.id = id ∧ m.names = d.names

end Fate

/-- The names that a table has for an id. -/
def rowNames (table : Table Descriptor) (id : String) : Names :=
  ((table.get? id).map (·.names)).getD []

def namesUnder (table : Table Descriptor) (ledger : List (String × Fate)) (field : String) : List String :=
  ledger.flatMap fun entry => if entry.2.field? = some field then rowNames table entry.1 else []

/-- The ledger accounts for all findings, methods and fields, and for the names of the fields. -/
structure Accounts (table : Table Descriptor) (ledger : List (String × Fate)) (a : Accessors) (findings : List Diagnostic) : Prop where
  fits : ∀ entry ∈ ledger, entry.2.Fits table entry.1
  findings_eq : findings = ledger.filterMap fun entry => entry.2.finding? entry.1
  methods_eq : a.methods = ledger.filterMap fun entry => entry.2.method?
  keys_eq : a.declarations.keys = Names.addAll [] (ledger.filterMap fun entry => entry.2.field?)
  names_eq : ∀ field, a.namesOf field = Names.addAll [] (namesUnder table ledger field)

lemma accounts_start (table : Table Descriptor) (get : Option Accessor) : Accounts table [] (start get) [] :=
  ⟨by simp, rfl, rfl, rfl, fun _ => rfl⟩

lemma consistent_start (get : Option Accessor) : Consistent (start get) :=
  ⟨by simp [start, empty], by simp [start, empty], nodup_nil, rfl, by simp [start, empty]⟩

section
variable {table : Table Descriptor} {ledger : List (String × Fate)} {a : Accessors} {findings : List Diagnostic} {id : String}

lemma Accounts.report (h : Accounts table ledger a findings) {fate : Fate} (hfits : fate.Fits table id) {finding : Diagnostic}
    (hfinding : fate.finding? id = some finding) : Accounts table (ledger ++ [(id, fate)]) a (findings ++ [finding]) := by
  have hmethod : fate.method? = none := by cases fate <;> simp_all [Fate.finding?, Fate.method?]
  have hfield : fate.field? = none := by cases fate <;> simp_all [Fate.finding?, Fate.field?]
  refine ⟨?_, ?_, ?_, ?_, fun field => ?_⟩
  · exact forall_mem_append.2 ⟨h.fits, by simpa using hfits⟩
  · simp [h.findings_eq, hfinding]
  · simp [h.methods_eq, hmethod]
  · simp [h.keys_eq, hfield]
  · simp [h.names_eq, namesUnder, hfield]

lemma Accounts.method (h : Accounts table ledger a findings) {d : Descriptor} (hd : table.get? id = some d) (hid : d.id = id)
    {kind : Declaration.Kind} (hkind : fieldOf? (.inr kind) = none) :
    Accounts table (ledger ++ [(id, .method (.ofDescriptor d kind))]) (a.insert (.ofDescriptor d kind)) findings := by
  rw [insert_method (by rw [field?_ofDescriptor, hkind])]
  refine ⟨?_, ?_, ?_, ?_, fun field => ?_⟩
  · exact forall_mem_append.2 ⟨h.fits, by simpa [Fate.Fits, hd, Declaration.ofDescriptor] using hid⟩
  · simp [h.findings_eq, Fate.finding?]
  · simp [h.methods_eq, Fate.method?]
  · simp [h.keys_eq, Fate.field?]
  · rw [namesUnder, flatMap_append, ← namesUnder, Names.addAll_append, ← h.names_eq]
    rfl

lemma Accounts.field (h : Accounts table ledger a findings) {d : Descriptor} (hd : table.get? id = some d) (hnames : d.names.Nodup)
    {kind : Declaration.Kind} {field : String} (hkind : fieldOf? (.inr kind) = some field) :
    Accounts table (ledger ++ [(id, .field field)]) (a.insert (.ofDescriptor d kind)) findings := by
  have hfield : (Declaration.ofDescriptor d kind).field? = some field := by rw [field?_ofDescriptor, hkind]
  refine ⟨?_, ?_, ?_, ?_, fun other => ?_⟩
  · exact forall_mem_append.2 ⟨h.fits, by simp [Fate.Fits, hd]⟩
  · simp [h.findings_eq, Fate.finding?]
  · simp [methods_insert hfield, h.methods_eq, Fate.method?]
  · simp [keys_insert hfield, h.keys_eq, Fate.field?, Names.addAll]
  · rw [namesOf_insert hfield hnames, namesUnder, flatMap_append, ← namesUnder, Names.addAll_append, ← h.names_eq]
    by_cases hother : other = field
    · simp [hother, Fate.field?, rowNames, hd, Declaration.ofDescriptor]
    · simp [hother, Fate.field?, Ne.symm hother, Names.addAll]

end

/-! ## Whole runs -/

/-- A side has a body for the id. -/
def hasBody (set get : Option Accessor) (id : String) : Bool :=
  (set.bind (·.body? id)).isSome || (get.bind (·.body? id)).isSome

lemma bodyOf_eq_none_iff (side : Option Accessor) (id : String) : bodyOf side id = none ↔ (side.bind (·.body? id)).isSome = false := by
  cases side <;> simp [bodyOf]

lemma hasBody_eq_false_iff (set get : Option Accessor) (id : String) :
    hasBody set get id = false ↔ bodyOf set id = none ∧ bodyOf get id = none := by
  rw [hasBody, Bool.or_eq_false_iff, bodyOf_eq_none_iff, bodyOf_eq_none_iff]

lemma Outcome.frame (h : Outcome a id after out) : after.methods = a.methods ∧ after.owned = a.owned := by
  cases h <;> exact ⟨rfl, rfl⟩

lemma Outcome.accounts (h : Outcome a id after out) {table : Table Descriptor}
    {ledger : List (String × Fate)} {findings : List Diagnostic} (ha : Accounts table ledger a findings) :
    Accounts table ledger after findings :=
  ⟨ha.fits, ha.findings_eq, h.frame.1 ▸ ha.methods_eq, h.declarations_eq ▸ ha.keys_eq,
    fun field => by rw [namesOf, h.declarations_eq]; exact ha.names_eq field⟩

lemma Outcome.consistent (h : Outcome a id after out) (ha : Consistent a) : Consistent after :=
  ⟨h.declarations_eq ▸ ha.own, h.declarations_eq ▸ ha.distinct, h.declarations_eq ▸ ha.nodup,
    by rw [h.frame.2, h.declarations_eq, ha.owned_eq], h.frame.1 ▸ ha.free⟩

section
variable {set get : Option Accessor} {table : Table Descriptor}
variable {ledger : List (String × Fate)} {findings earlier : List Diagnostic}

lemma addId_accounts (htable : Catalogued table) (haccounts : Accounts table ledger a findings)
    (hconsistent : Consistent a) (hid : hasBody set get id) :
    ∃ after later fate, addId set get table a findings id = .ok (after, later) ∧
      Accounts table (ledger ++ [(id, fate)]) after later ∧ Consistent after := by
  rcases addId_cases set get table a findings id with ⟨hnone, -⟩ | ⟨-, hrow, hadd⟩ | ⟨d, after, out, -, hrow, -, houtcome, hadd⟩
  · simp [← hasBody_eq_false_iff, hid] at hnone
  · have hfits : Fate.unresolved.Fits table id := hrow
    exact ⟨a, _, .unresolved, hadd, haccounts.report hfits rfl, hconsistent⟩
  · obtain ⟨hsame, hnames⟩ := htable.get? hrow
    have hafter := houtcome.accounts haccounts
    have hconsistent := houtcome.consistent hconsistent
    cases houtcome with
    | unprocessed =>
      have hfits : Fate.unprocessed.Fits table id := ⟨d, hrow⟩
      exact ⟨_, _, .unprocessed, hadd, haccounts.report hfits (by rw [hsame]; rfl), hconsistent⟩
    | flagged given field | property field readOnly | custom givens field getter setter =>
      exact ⟨_, _, .field field, hadd, hafter.field hrow hnames rfl, hconsistent.insert_field rfl hnames⟩
    | setMethod givens name body | getMethod name body =>
      exact ⟨_, _, _, hadd, hafter.method hrow hsame rfl, hconsistent.insert_method rfl (by simp [Declaration.ofDescriptor])⟩

/-- The run over some ids, from accessors and findings that are there already. -/
def addIds (set get : Option Accessor) (table : Table Descriptor) (found : Accessors × List Diagnostic) (ids : List String) :
    Except Error (Accessors × List Diagnostic) :=
  ids.foldlM (fun found id => addId set get table found.1 found.2 id) found

lemma addIds_cons {found next : Accessors × List Diagnostic}
    (h : addId set get table found.1 found.2 id = .ok next) (ids : List String) :
    addIds set get table found (id :: ids) = addIds set get table next ids := by
  rw [addIds, foldlM_cons, h]
  rfl

lemma addIds_filter (found : Accessors × List Diagnostic) (ids : List String) :
    addIds set get table found (ids.filter (hasBody set get)) = addIds set get table found ids := by
  induction ids generalizing found with
  | nil => rfl
  | cons id ids ih =>
    cases hid : hasBody set get id with
    | true =>
      rw [filter_cons_of_pos hid, addIds, foldlM_cons, addIds, foldlM_cons]
      exact congrArg _ (funext ih)
    | false =>
      have hnone := (hasBody_eq_false_iff set get id).1 hid
      rcases addId_cases set get table found.1 found.2 id with ⟨-, hadd⟩ | ⟨hsome, -⟩ | ⟨d, after, out, hsome, -⟩
      · rw [filter_cons_of_neg (by simp [hid]), addIds_cons hadd, ih]
      · exact absurd hnone hsome
      · exact absurd hnone hsome

lemma addIds_accounts (htable : Catalogued table) {ids : List String}
    (hids : ∀ id ∈ ids, hasBody set get id) {before : Accessors}
    (haccounts : Accounts table ledger before earlier) (hconsistent : Consistent before) :
    ∃ a findings more, addIds set get table (before, earlier) ids = .ok (a, findings) ∧ more.map (·.1) = ids ∧
      Accounts table (ledger ++ more) a findings ∧ Consistent a := by
  induction ids generalizing ledger before earlier with
  | nil => exact ⟨before, earlier, [], rfl, rfl, by rwa [append_nil], hconsistent⟩
  | cons id ids ih =>
    obtain ⟨hid, hids⟩ := forall_mem_cons.1 hids
    obtain ⟨after, later, fate, hadd, hnext, hconsistent⟩ := addId_accounts htable haccounts hconsistent hid
    obtain ⟨a, findings, more, hrun, hmore, haccounts, hconsistent⟩ := ih hids hnext hconsistent
    refine ⟨a, findings, (id, fate) :: more, ?_, by rw [map_cons, hmore], by rwa [append_cons], hconsistent⟩
    rw [addIds_cons hadd, hrun]

lemma Accounts.declared (h : Accounts table ledger a findings) {field : String}
    (hentry : (id, Fate.field field) ∈ ledger) :
    ∃ d, a.declarations.get? field = some d ∧ ∀ name ∈ rowNames table id, name ∈ d.names := by
  have hkey : field ∈ a.declarations.keys := by
    rw [h.keys_eq, Names.mem_addAll, mem_filterMap]
    exact .inr ⟨_, hentry, rfl⟩
  obtain ⟨d, hd⟩ := ne_none_iff_exists'.1 (mt Table.get?_eq_none_iff.1 (not_not.2 hkey))
  refine ⟨d, hd, fun name hname => ?_⟩
  have hnames : d.names = Names.addAll [] (namesUnder table ledger field) := by
    rw [← h.names_eq, namesOf, hd]
    rfl
  rw [hnames, Names.mem_addAll, namesUnder, mem_flatMap]
  exact .inr ⟨_, hentry, by simpa [Fate.field?] using hname⟩

end

lemma nodup_caseIds (set get : Option Accessor) : (caseIds set get).Nodup :=
  Names.nodup_addAll nodup_nil _

/-- Collecting the accessors always gives a result, and each id with a body has its entry in a ledger that accounts for the
result. -/
theorem ofAccessors_accounts (set get : Option Accessor) {table : Table Descriptor} (htable : Catalogued table) :
    ∃ a findings ledger, ofAccessors set get table = .ok (a, findings) ∧
      ofAccessors set get table = addIds set get table (start get, []) ((caseIds set get).filter (hasBody set get)) ∧
      ledger.map (·.1) = (caseIds set get).filter (hasBody set get) ∧ (ledger.map (·.1)).Nodup ∧
      Accounts table ledger a findings ∧
      (∀ id field, (id, Fate.field field) ∈ ledger →
        ∃ d, a.declarations.get? field = some d ∧ ∀ name ∈ rowNames table id, name ∈ d.names) ∧
      Consistent a := by
  have hfilter : addIds set get table (start get, []) ((caseIds set get).filter (hasBody set get)) = ofAccessors set get table :=
    addIds_filter _ _
  have hids : ∀ id ∈ (caseIds set get).filter (hasBody set get), hasBody set get id = true := fun id hid => (mem_filter.1 hid).2
  obtain ⟨a, findings, ledger, hrun, hledger, haccounts, hconsistent⟩ :=
    addIds_accounts htable hids (accounts_start table get) (consistent_start get)
  refine ⟨a, findings, ledger, hfilter ▸ hrun, hfilter.symm, hledger, ?_, haccounts, fun id field => haccounts.declared, hconsistent⟩
  rw [hledger]
  exact (nodup_caseIds set get).filter _

/-- Two ids share a field, one has only a comment, and no row lists `D`. -/
def sharingSetter : Accessor :=
  ⟨"param", [("A", "h->x=v->rValue;break;"), ("B", "/* */"), ("C", "h->x=v->iValue;break;"), ("D", "f();")], "h", "v", none⟩

def sharingRows : String :=
  "=\x7bP(a,A,IF_REAL,o)P(c,C,IF_REAL,o)\x7d"

def sharingTable : Table Descriptor :=
  [("A", ⟨"A", "P", ["a"], .real, "o"⟩), ("C", ⟨"C", "P", ["c"], .real, "o"⟩)]

theorem ofAccessors_accounts_sharing :
    readTable sharingRows = .ok (sharingTable, []) ∧
      ∃ a findings ledger, ofAccessors (some sharingSetter) none sharingTable = .ok (a, findings) ∧ ledger.map (·.1) = ["A", "C", "D"] ∧
        Accounts sharingTable ledger a findings ∧ Consistent a := by
  have hread : readTable sharingRows = .ok (sharingTable, []) := by decide +kernel
  have hids : (caseIds (some sharingSetter) none).filter (hasBody (some sharingSetter) none) = ["A", "C", "D"] := by decide +kernel
  obtain ⟨a, findings, ledger, hrun, -, hledger, -, haccounts, -, hconsistent⟩ :=
    ofAccessors_accounts (some sharingSetter) none (catalogued_readTable hread)
  exact ⟨hread, a, findings, ledger, hrun, hledger.trans hids, haccounts, hconsistent⟩

end Accessors

end DeviceForge.Parameter
