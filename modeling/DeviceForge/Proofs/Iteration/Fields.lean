import DeviceForge.Proofs.Pattern.Sweep
import Mathlib.Data.List.Sort
import DeviceForge.Iteration.Reference
import DeviceForge.Proofs.Pattern.Fixed
import DeviceForge.Proofs.Table
/-!
# Passes over loop code

Each pass of the export of loop code rewrites words by a rule: a function, a constant or a shared variable becomes a
member of a class, and a field that a variable reaches becomes a member too.
-/

namespace DeviceForge

open Parameter Code Option String WordRule

/-! ## Rules -/

namespace WordRule

variable {r : WordRule} {key function old object f : String} {name : List String}

def call (function : String) (name : List String) : WordRule :=
  fun member w behind => if member = false ∧ w = function ∧ behind = .call then some (.call name) else none

/-- A word gets a dotted name. -/
def word (old : String) (name : List String) : WordRule :=
  fun member w _ => if member = false ∧ w = old then some (.word name) else none

/-- A field that an object reaches gets a dotted name. -/
def field (object : String) (name : String → List String) : WordRule
  | member, w, .arrow f => if member = false ∧ w = object then some (.field (name f)) else none
  | _, _, _ => none

/-- One field of an object gets a dotted name, also where the object is a member. -/
def reached (object field : String) (name : List String) : WordRule :=
  fun _ w behind => if w = object ∧ behind = .arrow field then some (.field name) else none

def KeyedBy (r : WordRule) (key : String) : Prop :=
  ∀ member w behind, w ≠ key → r member w behind = none

def SparesMembers (r : WordRule) : Prop :=
  ∀ w behind, r true w behind = none

lemma keyedBy_call (function : String) (name : List String) : (call function name).KeyedBy function :=
  fun _ _ _ h => if_neg fun hc => h hc.2.1

lemma keyedBy_word (old : String) (name : List String) : (word old name).KeyedBy old :=
  fun _ _ _ h => if_neg fun hc => h hc.2

lemma keyedBy_field (object : String) (name : String → List String) : (field object name).KeyedBy object := by
  intro member w behind h
  cases behind with
  | arrow f => exact if_neg fun hc => h hc.2
  | call | other => rfl

lemma keyedBy_reached (object f : String) (name : List String) : (reached object f name).KeyedBy object :=
  fun _ _ _ h => if_neg fun hc => h hc.1

lemma sparesMembers_call (function : String) (name : List String) : (call function name).SparesMembers :=
  fun _ _ => if_neg fun hc => by cases hc.1

lemma sparesMembers_word (old : String) (name : List String) : (word old name).SparesMembers :=
  fun _ _ => if_neg fun hc => by cases hc.1

lemma sparesMembers_field (object : String) (name : String → List String) : (field object name).SparesMembers := by
  intro w behind
  cases behind with
  | arrow f => simp [field]
  | call | other => rfl

lemma SparesMembers.polite (h : r.SparesMembers) (ts : List Token) : r.Polite ts := by
  intro p u us _ _
  unfold change?
  split
  · exact h _ _
  · rfl

lemma KeyedBy.spares (hkey : r.KeyedBy key) (member : Bool) (hhead : ∀ w ∈ name.head?, w ≠ key)
    (htail : r.SparesMembers ∨ key ∉ name) : r.Spares member name := by
  refine spares_of_forall (fun w hw behind => hkey _ _ _ (hhead w hw)) fun u hu behind => ?_
  rcases htail with hmembers | hnot
  · exact hmembers u behind
  · exact hkey _ _ _ fun heq => hnot (heq ▸ List.mem_of_mem_tail hu)

def IsName (name : List String) : Prop :=
  name ≠ [] ∧ ∀ w ∈ name, Token.isIdentifierText w = true

lemma valid_call (h : IsName name) : (call function name).Valid := by
  intro member w behind c _ hc
  obtain ⟨hcond, hc⟩ := ite_none_right_eq_some.1 hc
  obtain rfl := some.inj hc
  exact ⟨h, hcond.2.2⟩

lemma valid_word (h : IsName name) : (word old name).Valid := by
  intro member w behind c _ hc
  obtain ⟨-, hc⟩ := ite_none_right_eq_some.1 hc
  obtain rfl := some.inj hc
  exact ⟨h, trivial⟩

lemma valid_field {name : String → List String}
    (h : ∀ f, Token.isIdentifierText f → IsName (name f)) : (field object name).Valid := by
  intro member w behind c hbehind hc
  cases behind with
  | arrow f =>
    obtain ⟨-, hc⟩ := ite_none_right_eq_some.1 hc
    obtain rfl := some.inj hc
    exact ⟨h f (hbehind f rfl), f, rfl⟩
  | call | other => cases hc

lemma valid_reached (h : IsName name) : (reached object f name).Valid := by
  intro member w behind c _ hc
  obtain ⟨hcond, hc⟩ := ite_none_right_eq_some.1 hc
  obtain rfl := some.inj hc
  exact ⟨h, f, hcond.2⟩

end WordRule

/-! ## Patterns -/

namespace Pattern

lemma elements_word {w : String} (h : Token.isIdentifierText w) : (ofString w).elements = [.literal w] := by
  simp [ofString, words_identifier h, ofWord_identifier h]

lemma elements_word_space {w : String} (h : Token.isIdentifierText w) (s : String) :
    (ofString (w ++ " " ++ s)).elements = .literal w :: (ofString s).elements := by
  simp [ofString, Text.words_space, words_identifier h, ofWord_identifier h]

end Pattern

lemma Code.Opens.isIdentifier {ts : List Token} {rest : String} (h : Opens ts rest) {t : Token} (ht : t ∈ ts) {w : String}
    (hw : Token.isIdentifierText w) (htext : t.text = w) : t.isIdentifier := by
  obtain ⟨cs, hreads⟩ := h.reads t ht
  exact Token.isIdentifier_of_reads hreads (htext ▸ hw)

lemma Change.spell_dotted_eq (name : List String) : spell (dotted "" name) = ".".intercalate name := by
  match name with
  | [] => rfl
  | [w] => simp [dotted, spell_cons, spell_nil]
  | w :: u :: us =>
    rw [dotted_cons, String.intercalate_cons_cons, ← spell_dotted_eq (u :: us)]
    simp [spell_cons, String.append_assoc]

namespace Pattern

variable {old function object f s : String} {name : String → List String}

def plainRule (new : String) : Unit → Match → Unit × Option String :=
  fun _ m => ((), if m.isMember then none else some new)

lemma rewrites_word (hold : Token.isIdentifierText old) (name : List String) :
    (ofString old).Rewrites (plainRule (".".intercalate name)) (.word old name) := by
  intro state before t ts rest hopens
  rw [replacement?, matchAt?, elements_word hold]
  by_cases htext : t.text = old
  · have hid := hopens.isIdentifier List.mem_cons_self hold htext
    cases hmember : followsMember before <;>
      simp [matchElements, htext, plainRule, Match.isMember, hmember, WordRule.change?, hid, word, Change.tokens,
        Change.spell_dotted_eq, Change.skipped]
  · simp [matchElements, htext, WordRule.change?, word]

lemma rewrites_call (hfunction : Token.isIdentifierText function) {name : List String} :
    (ofString (function ++ " " ++ "(")).Rewrites (plainRule (".".intercalate name ++ "(")) (.call function name) := by
  have hparen : (ofString "(").elements = [.literal "("] := by decide +kernel
  intro state before t ts rest hopens
  rw [replacement?, matchAt?, elements_word_space hfunction, hparen]
  by_cases htext : t.text = function
  · have hid := hopens.isIdentifier List.mem_cons_self hfunction htext
    cases ts with
    | nil => simp [matchElements, htext, WordRule.change?, call, Follow.of]
    | cons u us =>
      by_cases hu : u.text = "("
      · have hbehind : Follow.of (u :: us) = .call := by rw [Follow.of_cons, if_pos hu]
        cases hmember : followsMember before <;>
          simp [matchElements, htext, hu, plainRule, Match.isMember, hmember, WordRule.change?, hid, call, hbehind,
            Change.tokens, spell_append, Change.spell_dotted_eq, Change.skipped, spell_cons, spell_nil]
      · have hbehind : Follow.of (u :: us) ≠ .call := fun h => by
          obtain ⟨v, vs, heq, hv⟩ := Follow.of_eq_call h
          obtain ⟨rfl, -⟩ := List.cons.inj heq
          exact hu hv
        simp [matchElements, htext, hu, WordRule.change?, call, hbehind]
  · simp [matchElements, htext, WordRule.change?, call]

lemma follow_arrow {a : Token} (ha : a.text = "->") (u : Token) (us : List Token) :
    Follow.of (a :: u :: us) = if u.isIdentifier then .arrow u.text else .other := by
  rw [Follow.of_cons, if_neg (by rw [ha]; decide), if_pos ha]
  rfl

lemma follow_ne_arrow (ts : List Token) (h : ∀ a u us, ts = a :: u :: us → a.text ≠ "->") (f : String) : Follow.of ts ≠ .arrow f := by
  intro hf
  obtain ⟨a, u, us, rfl, ha, -⟩ := Follow.of_eq_arrow hf
  exact h a u us rfl ha

lemma change?_field {member : Bool} {t : Token} {ts : List Token} (h : ∀ f, Follow.of ts ≠ .arrow f) :
    (field object name).change? member t ts = none := by
  unfold WordRule.change? field
  split
  · split
    · rename_i hf
      exact absurd hf (h _)
    · rfl
  · rfl

lemma elements_field (hobject : Token.isIdentifierText object) :
    (ofString (object ++ " " ++ "-> $field")).elements = [.literal object, .literal "->", .single .identifier "field"] := by
  have harrow : (ofString "-> $field").elements = [.literal "->", .single .identifier "field"] := by decide +kernel
  rw [elements_word_space hobject, harrow]

lemma rewrites_field {σ : Type} (hobject : Token.isIdentifierText object) {rule : σ → Match → σ × Option String}
    (hrule : ∀ state m, (rule state m).2 = if m.isMember then none else some (".".intercalate (name (m.text "field")))) :
    (ofString (object ++ " " ++ "-> $field")).Rewrites rule (.field object name) := by
  intro state before t ts rest hopens
  rw [replacement?, matchAt?, elements_field hobject]
  by_cases htext : t.text = object
  · have hid := hopens.isIdentifier List.mem_cons_self hobject htext
    rcases ts with _ | ⟨a, _ | ⟨u, us⟩⟩
    · simp [matchElements, htext, change?_field (follow_ne_arrow [] (by simp))]
    · simp [matchElements, htext, change?_field (follow_ne_arrow [a] (by simp))]
    · by_cases ha : a.text = "->"
      · have hbehind := follow_arrow ha u us
        by_cases hu : u.isIdentifier
        · have hkind : u.kind = .identifier := by simpa [Token.isIdentifier] using hu
          rw [if_pos hu] at hbehind
          cases hmember : followsMember before <;>
            simp [matchElements, htext, ha, hkind, Class.accepts, bind, hrule, Match.isMember, hmember, Match.text,
              Match.capture?, Capture.text, span, spell_nil, WordRule.change?, hid, field, hbehind, Change.tokens,
              Change.spell_dotted_eq, Change.skipped]
        · have hkind : u.kind ≠ .identifier := by simpa [Token.isIdentifier] using hu
          rw [if_neg hu] at hbehind
          have hnot (f : String) : Follow.of (a :: u :: us) ≠ .arrow f := by simp [hbehind]
          simp [matchElements, htext, ha, hkind, Class.accepts, change?_field hnot]
      · have hnot := follow_ne_arrow (a :: u :: us) (by rintro _ _ _ ⟨⟩; exact ha)
        simp [matchElements, htext, ha, change?_field hnot]
  · have hnone : (field object name).change? (followsMember before) t ts = none := by
      unfold WordRule.change?
      split
      · exact keyedBy_field object name _ _ _ htext
      · rfl
    simp [matchElements, htext, hnone]

lemma rewrites_reached (hobject : Token.isIdentifierText object) (hf : Token.isIdentifierText f)
    (hs : (ofString s).elements = [.literal "->", .literal f]) (name : List String) :
    (ofString (object ++ " " ++ s)).Rewrites (fun (_ : Unit) _ => ((), some (".".intercalate name))) (.reached object f name) := by
  intro state before t ts rest hopens
  rw [replacement?, matchAt?, elements_word_space hobject, hs]
  have hchange (hne : t.text ≠ object ∨ Follow.of ts ≠ .arrow f) : (reached object f name).change? (followsMember before) t ts = none := by
    unfold WordRule.change?
    split
    · exact if_neg fun hc => hne.elim (fun h => h hc.1) fun h => h hc.2
    · rfl
  by_cases htext : t.text = object
  · have hid := hopens.isIdentifier List.mem_cons_self hobject htext
    rcases ts with _ | ⟨a, _ | ⟨u, us⟩⟩
    · simp [matchElements, htext, hchange (.inr (follow_ne_arrow [] (by simp) f))]
    · simp [matchElements, htext, hchange (.inr (follow_ne_arrow [a] (by simp) f))]
    · by_cases ha : a.text = "->"
      · have hbehind := follow_arrow ha u us
        by_cases hu : u.text = f
        · have hid' := hopens.isIdentifier (t := u) (by simp) hf hu
          rw [if_pos hid', hu] at hbehind
          simp [matchElements, htext, ha, hu, WordRule.change?, hid, reached, hbehind, Change.tokens, Change.spell_dotted_eq,
            Change.skipped]
        · have hne : Follow.of (a :: u :: us) ≠ .arrow f := by
            rw [hbehind]
            split
            · exact fun h => hu (Follow.arrow.inj h)
            · exact Follow.noConfusion
          simp [matchElements, htext, ha, hu, hchange (.inr hne)]
      · have hne := follow_ne_arrow (a :: u :: us) (by rintro _ _ _ ⟨⟩; exact ha) f
        simp [matchElements, htext, ha, hchange (.inr hne)]
  · simp [matchElements, htext, hchange (.inl htext)]

end Pattern

/-! ## Passes -/

structure Pass (f : String → String) (r : WordRule) : Prop where
  valid : r.Valid
  ofString_eq : ∀ s, Code.ofString (f s) = ⟨r.rewrite (Code.ofString s).tokens, (Code.ofString s).tail⟩

lemma Pattern.Rewrites.pass {σ : Type} {p : Pattern} {rule : σ → Match → σ × Option String} {r : WordRule} (h : p.Rewrites rule r)
    (hr : r.Valid) (state : σ) : Pass (fun s => (p.replaceWith rule state s).2) r :=
  ⟨hr, h.ofString_replaceWith hr state⟩

lemma ofString_foldl {α : Type} {f : String → α → String} {r : α → WordRule} {xs : List α} (h : ∀ x ∈ xs, Pass (f · x) (r x))
    (s : String) : ofString (xs.foldl f s) =
      ⟨(xs.map r).foldl (fun ts r => r.rewrite ts) (ofString s).tokens, (ofString s).tail⟩ := by
  induction xs generalizing s with
  | nil => rfl
  | cons x xs ih =>
    obtain ⟨hx, hxs⟩ := List.forall_mem_cons.1 h
    rw [List.foldl_cons, ih hxs, hx.ofString_eq]
    rfl

lemma pass_renameWord {old : String} (hold : Token.isIdentifierText old) {name : List String} (hname : WordRule.IsName name)
    {new : String} (hnew : new = ".".intercalate name) : Pass (renameWord old new true) (.word old name) := by
  subst hnew
  exact (Pattern.rewrites_word hold name).pass (valid_word hname) ()

namespace Reference

lemma pass_call {function : String} (hfunction : Token.isIdentifierText function) {name : List String}
    (hname : WordRule.IsName name) {new : String} (hnew : new = ".".intercalate name) :
    Pass (fun code => (Pattern.ofString s!"{function} (").replace (fun m => if m.isMember then none else some s!"{new}(") code)
      (.call function name) := by
  subst hnew
  have htext : s!"{function} (" = function ++ " " ++ "(" := toList_injective (by simp [toString])
  rw [htext]
  exact (Pattern.rewrites_call hfunction).pass (valid_call hname) ()

lemma pass_gmin {circuit : String} (hcircuit : Token.isIdentifierText circuit) :
    Pass (fun code => (Pattern.ofString s!"{circuit} -> CKTgmin").replace (fun _ => some "state.Gmin") code)
      (.reached circuit "CKTgmin" ["state", "Gmin"]) := by
  have htext : s!"{circuit} -> CKTgmin" = circuit ++ " " ++ "-> CKTgmin" := toList_injective (by simp [toString])
  have helements : (Pattern.ofString "-> CKTgmin").elements = [.literal "->", .literal "CKTgmin"] := by decide +kernel
  have hname : WordRule.IsName ["state", "Gmin"] := ⟨by simp, by decide⟩
  have hnew : ".".intercalate ["state", "Gmin"] = "state.Gmin" := by decide
  rw [htext, ← hnew]
  exact (Pattern.rewrites_reached hcircuit (by decide) helements _).pass (valid_reached hname) ()

def memberName (a : Accessors) (qualifier : List String) (f : String) : List String :=
  qualifier ++
    match a.given.get? f with
    | some target => [target, "Given"]
    | none => if a.isFlagged f then [f, "Value"] else [f]

def HasTargets (a : Accessors) : Prop :=
  ∀ e ∈ a.given, Token.isIdentifierText e.2 = true

instance (a : Accessors) : Decidable (HasTargets a) :=
  inferInstanceAs (Decidable (∀ e ∈ a.given, _))

lemma isName_memberName {a : Accessors} (ha : HasTargets a) {qualifier : List String}
    (hqualifier : ∀ w ∈ qualifier, Token.isIdentifierText w) {f : String} (hf : Token.isIdentifierText f) :
    WordRule.IsName (memberName a qualifier f) := by
  have hname {words : List String} (hne : words ≠ []) (hwords : ∀ w ∈ words, Token.isIdentifierText w) :
      WordRule.IsName (qualifier ++ words) :=
    ⟨by simp [hne], List.forall_mem_append.2 ⟨hqualifier, hwords⟩⟩
  unfold memberName
  split
  · rename_i target hget
    exact hname (by simp) (List.forall_mem_cons.2 ⟨ha _ (Table.mem_of_get? hget), by decide⟩)
  split
  · exact hname (by simp) (List.forall_mem_cons.2 ⟨hf, by decide⟩)
  · exact hname (by simp) (List.forall_mem_singleton.2 hf)

lemma field_eq (a : Accessors) (f : String) :
    field a "" f = ".".intercalate (memberName a [] f) ∧ ∀ w, field a (w ++ ".") f = ".".intercalate (memberName a [w] f) := by
  unfold field memberName
  cases a.given.get? f with
  | some target => refine ⟨?_, fun w => ?_⟩ <;> apply toList_injective <;> simp [toString, intercalate_cons_cons]
  | none =>
    cases a.isFlagged f <;> refine ⟨?_, fun w => ?_⟩ <;> apply toList_injective <;> simp [toString, intercalate_cons_cons]

lemma pass_fields {object : String} (hobject : Token.isIdentifierText object) {a : Accessors} (ha : HasTargets a)
    {qualifier : String} {words : List String} (hwords : ∀ w ∈ words, Token.isIdentifierText w)
    (hfield : ∀ f, field a qualifier f = ".".intercalate (memberName a words f)) (extra : Names) :
    Pass (fun code => (fields object a qualifier extra code).2) (.field object (memberName a words)) := by
  have htext : s!"{object} -> $field" = object ++ " " ++ "-> $field" := toList_injective (by simp [toString])
  unfold fields
  rw [htext]
  refine (Pattern.rewrites_field hobject fun extra m => ?_).pass (valid_field fun f hf => isName_memberName ha hwords hf) extra
  split
  · rfl
  · exact congrArg some (hfield _)

end Reference

end DeviceForge

/-!
# Fields of an object

Loop code reaches the fields of an object through arrows.
-/

namespace DeviceForge

open List Option Token Pattern String Match

open Parameter

lemma Names.addAll_eq (names : Names) (more : List String) :
    names.addAll more = names ++ (more.filter fun name => !names.contains name).eraseDups := by
  induction more using reverseRecOn with
  | nil => simp [addAll]
  | append_singleton more name ih =>
    rw [addAll_append, ih, filter_append]
    change add _ name = _
    by_cases hname : name ∈ names
    · simp [add, hname]
    · rw [filter_cons_of_pos (by simpa using hname), filter_nil, eraseDups_concat, add, add]
      by_cases hmore : name ∈ more <;> simp [hname, hmore]

namespace Reference

variable {m : Match} {asked : List (Match × Option String)}

/-- The field that the object at the token with index `i` reaches, if the object is not reached itself. -/
def fieldAt? (object : String) (ts : List Token) (i : Nat) : Option String :=
  match ts.drop i with
  | o :: arrow :: f :: _ =>
    if o.text = object ∧ arrow.text = "->" ∧ f.isIdentifier = true ∧ followsMember (ts.take i).reverse = false then some f.text else none
  | _ => none

/-- The indices at which the object reaches a field, with the fields. -/
def references (object : String) (ts : List Token) : List (Nat × String) :=
  (List.range ts.length).filterMap fun i => (fieldAt? object ts i).map (i, ·)

/-- A reference, from the object to the field, gives way to a text. -/
def referenceEdit (ts : List Token) (text : String → String) (r : Nat × String) : Text.Edit :=
  ⟨Code.width (ts.take r.1) + (ts[r.1]?).elim 0 (·.lead.utf8ByteSize), Code.width (ts.take (r.1 + 3)), text r.2⟩

variable {object : String} {ts : List Token} {i : Nat} {f : String}

lemma fieldAt?_eq_some_iff : fieldAt? object ts i = some f ↔
      ∃ o arrow field after, ts.drop i = o :: arrow :: field :: after ∧ o.text = object ∧ arrow.text = "->" ∧
        field.isIdentifier ∧ followsMember (ts.take i).reverse = false ∧ field.text = f := by
  unfold fieldAt?
  split
  · rename_i o arrow field after hdrop
    constructor
    · intro h
      obtain ⟨⟨ho, harrow, hfield, hmember⟩, htext⟩ := ite_none_right_eq_some.1 h
      exact ⟨o, arrow, field, after, hdrop, ho, harrow, hfield, hmember, some.inj htext⟩
    · rintro ⟨o', arrow', field', after', hdrop', ho, harrow, hfield, hmember, htext⟩
      obtain ⟨rfl, rfl, rfl, rfl⟩ : o = o' ∧ arrow = arrow' ∧ field = field' ∧ after = after' := by
        simpa using hdrop.symm.trans hdrop'
      rw [if_pos ⟨ho, harrow, hfield, hmember⟩, htext]
  · rename_i hshort
    constructor
    · intro h
      cases h
    · rintro ⟨o, arrow, field, after, hdrop, -⟩
      exact absurd hdrop (hshort o arrow field after)

lemma mem_references : (i, f) ∈ references object ts ↔ fieldAt? object ts i = some f := by
  simp only [references, mem_filterMap, mem_range, map_eq_some_iff, Prod.mk.injEq]
  constructor
  · rintro ⟨j, -, g, hg, rfl, rfl⟩
    exact hg
  · intro h
    obtain ⟨o, arrow, field, after, hdrop, -⟩ := fieldAt?_eq_some_iff.1 h
    refine ⟨i, ?_, f, h, rfl, rfl⟩
    by_contra hi
    rw [drop_of_length_le (by omega)] at hdrop
    cases hdrop

lemma pairwise_references (object : String) (ts : List Token) : (references object ts).Pairwise (·.1 < ·.1) := by
  rw [references, pairwise_filterMap]
  refine pairwise_lt_range.imp fun {i j} hij r hr r' hr' => ?_
  obtain ⟨g, -, rfl⟩ := map_eq_some_iff.1 hr
  obtain ⟨g', -, rfl⟩ := map_eq_some_iff.1 hr'
  exact hij

lemma matchAt?_field (hobject : isIdentifierText object) {before rest : List Token} :
    (Pattern.ofString (object ++ " " ++ "-> $field")).matchAt? before rest = some m ↔
      ∃ o arrow field after, rest = o :: arrow :: field :: after ∧ o.text = object ∧ arrow.text = "->" ∧ field.isIdentifier ∧
        ⟨before, [o, arrow, field], after, [("field", ⟨2, [field]⟩)]⟩ = m := by
  rw [matchAt?, elements_field hobject]
  rcases rest with _ | ⟨o, _ | ⟨arrow, _ | ⟨field, after⟩⟩⟩
  · simp
  · by_cases ho : o.text = object <;> simp [matchElements, ho]
  · by_cases ho : o.text = object <;> by_cases harrow : arrow.text = "->" <;> simp [matchElements, ho, harrow]
  · by_cases ho : o.text = object <;> by_cases harrow : arrow.text = "->" <;> by_cases hfield : field.kind = .identifier <;>
      simp [matchElements, Pattern.Class.accepts, Pattern.bind, isIdentifier, ho, harrow, hfield]

lemma isIn_field (hobject : isIdentifierText object)
    (h : m.IsIn (Pattern.ofString (object ++ " " ++ "-> $field")) ts) :
    ∃ o arrow field after, ts.drop m.first = o :: arrow :: field :: after ∧ o.text = object ∧ arrow.text = "->" ∧
      field.isIdentifier ∧ m.text "field" = field.text ∧ m.last = m.first + 3 ∧
      m.isMember = followsMember (ts.take m.first).reverse ∧ m.start = Code.width (ts.take m.first) + o.lead.utf8ByteSize := by
  obtain ⟨o, arrow, field, after, hdrop, ho, harrow, hfield, hm⟩ := (matchAt?_field hobject).1 h
  have hbefore : m.before = (ts.take m.first).reverse := (of_matchAt? h).1
  have hwindow : m.window = [o, arrow, field] := by rw [← hm]
  refine ⟨o, arrow, field, after, hdrop, ho, harrow, hfield, ?_, ?_, ?_, ?_⟩
  · rw [← hm]
    simp [Match.text, Match.capture?, Capture.text, Code.span, Code.spell_nil]
  · rw [last, hwindow, first]
    rfl
  · rw [isMember, hbefore]
  · rw [start, startOf, hbefore, hwindow, Code.width_reverse]
    rfl

lemma fieldAt?_of_isIn (hobject : isIdentifierText object)
    (h : m.IsIn (ofString (object ++ " " ++ "-> $field")) ts) (hmember : m.isMember = false) :
    fieldAt? object ts m.first = some (m.text "field") := by
  obtain ⟨o, arrow, field, after, hdrop, ho, harrow, hfield, htext, -, hbefore, -⟩ := isIn_field hobject h
  exact fieldAt?_eq_some_iff.2 ⟨o, arrow, field, after, hdrop, ho, harrow, hfield, hbefore ▸ hmember, htext.symm⟩

lemma eq_first_of_fieldAt? (hobject : isIdentifierText object)
    (h : m.IsIn (ofString (object ++ " " ++ "-> $field")) ts) (hfirst : m.first ≤ i)
    (hlast : i < m.last) (hi : fieldAt? object ts i = some f) : i = m.first := by
  obtain ⟨o, arrow, field, after, hdrop, -, harrow, -, -, hlen, -⟩ := isIn_field hobject h
  obtain ⟨o', arrow', field', after', hdrop', ho', -, -, hmember', -⟩ := fieldAt?_eq_some_iff.1 hi
  by_contra hne
  obtain rfl | rfl : i = m.first + 1 ∨ i = m.first + 2 := by omega
  · -- the arrow is no identifier
    rw [← drop_drop, hdrop] at hdrop'
    obtain ⟨rfl, -⟩ : arrow = o' ∧ _ := by simpa using hdrop'
    rw [← ho', harrow] at hobject
    exact absurd hobject (by decide)
  · -- the field is reached through the arrow
    have hbefore : (ts.take (m.first + 2)).reverse = arrow :: o :: (ts.take m.first).reverse := by
      rw [take_add, hdrop]
      simp
    rw [hbefore] at hmember'
    simp [followsMember, reachesMember, harrow] at hmember'

/-! ## The pass -/

def replaced (asked : List (Match × Option String)) : List (Nat × String) :=
  asked.filterMap fun x => x.2.map fun _ => (x.1.first, x.1.text "field")

lemma mem_replaced {r : Nat × String} :
    r ∈ replaced asked ↔ ∃ m new, (m, some new) ∈ asked ∧ r = (m.first, m.text "field") := by
  simp only [replaced, mem_filterMap, map_eq_some_iff]
  constructor
  · rintro ⟨⟨m, answer⟩, hx, new, rfl, rfl⟩
    exact ⟨m, new, hx, rfl⟩
  · rintro ⟨m, new, hx, rfl⟩
    exact ⟨(m, some new), hx, new, rfl, rfl⟩

section
variable {σ : Type} {rule : σ → Match → σ × Option String} {state final : σ} {asked : List (Match × Option String)} {pieces : List String}

lemma replaced_eq_references (hobject : isIdentifierText object)
    (hrule : ∀ state m, (rule state m).2.isSome = !m.isMember)
    (h : Pattern.Sweep (ofString (object ++ " " ++ "-> $field")) rule state 0 [] ts asked pieces final) :
    replaced asked = references object ts := by
  have hin : ∀ x ∈ asked, x.1.IsIn _ ts := h.isIn
  have hanswer : ∀ x ∈ asked, x.2.isSome = !x.1.isMember := by
    intro x hx
    obtain ⟨state, hstate⟩ := h.answers.mem x hx
    rw [← hstate, hrule]
  have hsorted : (replaced asked).Pairwise (·.1 < ·.1) := by
    rw [replaced, pairwise_filterMap]
    refine h.ordered.imp_of_mem fun {x y} hx hy hle r hr r' hr' => ?_
    obtain ⟨new, hnew, rfl⟩ := map_eq_some_iff.1 hr
    obtain ⟨new', -, rfl⟩ := map_eq_some_iff.1 hr'
    have hlt := (hin x hx).first_lt_last
    have hlast : resumes x = x.1.last := by
      obtain ⟨m, answer⟩ := x
      obtain rfl : answer = some new := hnew
      rfl
    change x.1.first < y.1.first
    omega
  have : Std.Irrefl fun r r' : Nat × String => r.1 < r'.1 := ⟨fun r => Nat.lt_irrefl r.1⟩
  refine hsorted.eq_of_mem_iff (pairwise_references object ts) fun r => ?_
  obtain ⟨i, f⟩ := r
  rw [mem_replaced, mem_references]
  constructor
  · rintro ⟨m, new, hm, heq⟩
    obtain ⟨rfl, rfl⟩ := Prod.mk.inj heq
    refine fieldAt?_of_isIn hobject (hin _ hm) ?_
    simpa using hanswer _ hm
  · intro hi
    obtain ⟨o, arrow, field, after, hdrop, ho, harrow, hfield, hmember, htext⟩ := fieldAt?_eq_some_iff.1 hi
    have hmatch := (@matchAt?_field _ object hobject (ts.take i).reverse (ts.drop i)).2 ⟨o, arrow, field, after, hdrop, ho, harrow, hfield, rfl⟩
    obtain ⟨⟨m, answer⟩, hx, hfirst, hlast⟩ := h.complete (Nat.zero_le i) (by
      rw [reverse_nil, nil_append, hmatch]
      rfl)
    have hlt := (hin _ hx).first_lt_last
    have hresumes : resumes (m, answer) ≤ m.last := by
      cases answer with
      | none => exact hlt
      | some new => exact Nat.le_refl _
    obtain rfl := eq_first_of_fieldAt? hobject (hin _ hx) hfirst (Nat.lt_of_lt_of_le hlast hresumes) hi
    have hnot : m.isMember = false := by
      obtain ⟨-, -, -, -, -, -, -, -, -, -, hbefore, -⟩ := isIn_field hobject (hin _ hx)
      rw [hbefore, hmember]
    obtain ⟨new, hnew⟩ : ∃ new, answer = some new := isSome_iff_exists.1 (by rw [hanswer _ hx, hnot]; rfl)
    subst hnew
    have hfield' := fieldAt?_of_isIn hobject (hin _ hx) hnot
    rw [hi] at hfield'
    exact ⟨m, new, hx, by rw [← some.inj hfield']⟩

lemma edits_eq (hobject : isIdentifierText object) {text : String → String}
    (hrule : ∀ state m, (rule state m).2 = if m.isMember then none else some (text (m.text "field")))
    (h : Pattern.Sweep (ofString (object ++ " " ++ "-> $field")) rule state 0 [] ts asked pieces final) :
    edits asked = (references object ts).map (referenceEdit ts text) := by
  rw [← replaced_eq_references hobject (fun state m => by rw [hrule]; cases m.isMember <;> rfl) h, replaced, map_filterMap,
    edits]
  refine filterMap_congr fun x hx => ?_
  obtain ⟨m, answer⟩ := x
  obtain ⟨o, arrow, field, after, hdrop, -, -, -, -, hlast, -, hstart⟩ := isIn_field hobject (h.isIn _ hx)
  obtain ⟨state, hstate⟩ := h.answers.mem _ hx
  rw [hrule] at hstate
  cases hm : m.isMember with
  | true =>
    rw [hm] at hstate
    rw [← hstate]
    rfl
  | false =>
    rw [hm] at hstate
    have hget : ts[m.first]? = some o := by
      have := congrArg (·[0]?) hdrop
      simpa using this
    have hstop : m.stop = Code.width (ts.take (m.first + 3)) := by
      rw [← hlast]
      exact (h.isIn _ hx).stop_eq
    rw [← hstate]
    simp only [map_some, Bool.false_eq_true, if_false, referenceEdit, hget, elim_some, hstart, hstop]
    rfl

end

lemma answers_eq_addAll {rule : Names → Match → Names × Option String} {p : String → Bool}
    (hrule : ∀ extra m, (rule extra m).1 = if m.isMember then extra else if p (m.text "field") then extra.add (m.text "field") else extra)
    (hanswer : ∀ extra m, (rule extra m).2.isSome = !m.isMember) {extra final : Names}
    (h : Answers rule extra asked final) : final = extra.addAll (((replaced asked).map Prod.snd).filter p) := by
  induction h with
  | nil => rfl
  | @cons extra next final m answer asked hstep _ ih =>
    have hnext : next = (rule extra m).1 := by rw [hstep]
    have hsome : answer.isSome = !m.isMember := by rw [← hanswer extra m, hstep]
    rw [ih, hnext, hrule]
    cases hm : m.isMember with
    | true =>
      rw [hm] at hsome
      obtain rfl : answer = none := by simpa using hsome
      rfl
    | false =>
      rw [hm] at hsome
      obtain ⟨new, rfl⟩ := isSome_iff_exists.1 hsome
      have hcons : replaced ((m, some new) :: asked) = (m.first, m.text "field") :: replaced asked := rfl
      rw [hcons, map_cons]
      cases hp : p (m.text "field") with
      | true =>
        rw [filter_cons_of_pos (by simpa using hp)]
        rfl
      | false =>
        rw [filter_cons_of_neg (by simp [hp])]
        rfl

lemma isExtra_eq (a : Accessors) (name : String) :
    isExtra a name = ((a.given.get? name).isNone && !a.isFlagged name && !a.owned.contains name) := by
  have hgiven : (!a.given.has name) = (a.given.get? name).isNone := by
    rw [Bool.eq_iff_iff, isNone_iff_eq_none, Table.get?_eq_none_iff, Bool.not_eq_true', ← Bool.not_eq_true, Table.has_iff]
  rw [isExtra, hgiven]

/-- The references of a text to the fields of an object give way to members, with the flag of a given value, the value of a
wrapper or the field itself, and every other byte stays. What is noted is the fields without a parameter, each where it comes first. -/
theorem fields_exact {object : String} (hobject : isIdentifierText object = true) (a : Accessors) (qualifier : String) (extra : Names)
    (code : String) :
    let ts := (Code.ofString code).tokens
    let member (f : String) : String :=
      (a.given.get? f).elim (if a.isFlagged f then qualifier ++ f ++ ".Value" else qualifier ++ f) fun target => qualifier ++ target ++ ".Given"
    let edits := (references object ts).map (referenceEdit ts member)
    let unowned := ((references object ts).map Prod.snd).filter fun f =>
      (a.given.get? f).isNone && !a.isFlagged f && !a.owned.contains f
    (edits.Pairwise fun e e' => e.stop ≤ e'.start) ∧
    (fields object a qualifier extra code).2.toUTF8.data.toList = Text.edited code.toUTF8.data.toList 0 edits ∧
    (fields object a qualifier extra code).1 = extra ++ (unowned.filter fun f => !extra.contains f).eraseDups := by
  intro ts member edits unowned
  have hfield (f : String) : field a qualifier f = member f := by
    simp only [member, field]
    cases a.given.get? f with
    | some target => exact toList_injective (by simp [toString])
    | none =>
      cases a.isFlagged f with
      | true => exact toList_injective (by simp [toString])
      | false => exact toList_injective (by simp [toString])
  have htext : s!"{object} -> $field" = object ++ " " ++ "-> $field" := toList_injective (by simp [toString])
  unfold fields
  rw [htext]
  generalize hrule : (fun extra m => _ : Names → Match → Names × Option String) = rule
  have hanswer (extra : Names) (m : Match) : (rule extra m).2 = if m.isMember then none else some (member (m.text "field")) := by
    rw [← hrule]
    by_cases hm : m.isMember = true <;> simp [hm, hfield]
  have hnote (extra : Names) (m : Match) :
      (rule extra m).1 = if m.isMember then extra else if isExtra a (m.text "field") then extra.add (m.text "field") else extra := by
    rw [← hrule]
    by_cases hm : m.isMember = true <;> simp [hm]
  have hsome (extra : Names) (m : Match) : (rule extra m).2.isSome = !m.isMember := by
    rw [hanswer]
    cases m.isMember <;> rfl
  obtain ⟨asked, pieces, hpass, hnew⟩ := pass_tokens (Pattern.ofString (object ++ " " ++ "-> $field")) rule extra code
  have hedits : Pattern.edits asked = edits := edits_eq hobject hanswer hpass
  have hunowned : ((replaced asked).map Prod.snd).filter (isExtra a) = unowned := by
    rw [replaced_eq_references hobject hsome hpass]
    exact filter_congr fun f _ => isExtra_eq a f
  refine ⟨hedits ▸ hpass.ordered_edits, ?_, ?_⟩
  · have hbytes := hpass.bytes_eq (Code.ofString code).tail
    rw [bytesOf_ofString, ← hnew, ← Text.toList_toUTF8, ← Text.toList_toUTF8, hedits] at hbytes
    exact hbytes
  · rw [answers_eq_addAll hnote hsome hpass.answers, hunowned, Names.addAll_eq]

/-- A chain, a member and a reference with a comment in it. -/
def chain : String :=
  "v->v->w; a.v->q; v /*x*/ ->xGiven"

def chainAccessors : Accessors :=
  ⟨[], [], ["y"], [("xGiven", "x")], none⟩

/-- Of a chain the first reference is replaced, and the member is left alone. -/
theorem fields_exact_chain :
    fields "v" chainAccessors "Model." ["z"] chain = (["z", "v"], "Model.v->w; a.v->q; Model.x.Given") ∧
    (fields "v" chainAccessors "Model." ["z"] chain).2.toUTF8.data.toList =
      Text.edited chain.toUTF8.data.toList 0 [⟨0, 4, "Model.v"⟩, ⟨17, 33, "Model.x.Given"⟩] ∧
    (fields "v" chainAccessors "Model." ["z"] chain).1 = ["z"] ++ ["v"] := by
  have h := @fields_exact "v" (by decide) chainAccessors "Model." ["z"] chain
  have hedits : (references "v" (Code.ofString chain).tokens).map (referenceEdit (Code.ofString chain).tokens fun f =>
      (chainAccessors.given.get? f).elim (if chainAccessors.isFlagged f then "Model." ++ f ++ ".Value" else "Model." ++ f)
        fun target => "Model." ++ target ++ ".Given") = [⟨0, 4, "Model.v"⟩, ⟨17, 33, "Model.x.Given"⟩] := by
    decide +kernel
  have hextra : ((((references "v" (Code.ofString chain).tokens).map Prod.snd).filter fun f =>
      (chainAccessors.given.get? f).isNone && !chainAccessors.isFlagged f && !chainAccessors.owned.contains f).filter
        fun f => !(["z"].contains f)).eraseDups = ["v"] := by
    decide +kernel
  exact ⟨by decide +kernel, hedits ▸ h.2.1, hextra ▸ h.2.2⟩

end Reference

end DeviceForge
