import DeviceForge.Class.Generator
import DeviceForge.Proofs.Table
/-!
# Merging phases

The classes of a device know after its phases the same names with the same types, in whatever order the phases came.
-/

namespace DeviceForge.Classes

open List

variable {shared shared' entries entries' : Table LocalType} {result : Except Error (Table LocalType)} {name : String}
  {type : LocalType} {its its' : List Iteration}

def Given (shared entries : Table LocalType) (name : String) (type : LocalType) : Prop :=
  shared.get? name = some type ∨ (name, type) ∈ entries

inductive Merged (shared entries : Table LocalType) : Except Error (Table LocalType) → Prop
  | table {merged : Table LocalType} (get : ∀ name type, merged.get? name = some type ↔ Given shared entries name type)
      (nodup : shared.keys.Nodup → merged.keys.Nodup) : Merged shared entries (.ok merged)
  | conflict {name : String} {type other : LocalType} (hne : type ≠ other) (htype : Given shared entries name type)
      (hother : Given shared entries name other) :
      Merged shared entries (.error (.sharedConflict name type.className other.className))

lemma Merged.of_given (h : Merged shared entries result)
    (hgiven : ∀ name type, Given shared entries name type ↔ Given shared' entries' name type)
    (hkeys : shared'.keys.Nodup → shared.keys.Nodup) : Merged shared' entries' result := by
  cases h with
  | table get nodup => exact .table (fun name type => (get name type).trans (hgiven name type)) (nodup ∘ hkeys)
  | conflict hne htype hother => exact .conflict hne ((hgiven _ _).1 htype) ((hgiven _ _).1 hother)

lemma get?_concat (h : shared.get? name = none) (value : LocalType) (other : String) :
    Table.get? (shared ++ [(name, value)]) other = if other = name then some value else shared.get? other := by
  rw [Table.get?_append]
  split
  · rename_i heq
    rw [heq, h, Option.none_or]
    simp [Table.get?]
  · rename_i hne
    simp [Table.get?, lookup_cons, beq_eq_false_iff_ne.mpr hne]

lemma merged_foldlM (shared entries : Table LocalType) : Merged shared entries (entries.foldlM addShared shared) := by
  induction entries generalizing shared with
  | nil => exact .table (fun name type => by simp [Given]) id
  | cons entry entries ih =>
    obtain ⟨key, value⟩ := entry
    rw [foldlM_cons, addShared]
    cases hkey : shared.get? key with
    | none =>
      refine (ih (shared ++ [(key, value)])).of_given (fun name type => ?_) fun h => ?_
      · rw [Given, Given, get?_concat hkey, mem_cons, Prod.mk.injEq, ← or_assoc]
        refine or_congr_left ?_
        split
        · rename_i hname
          simp [hname, hkey, eq_comm]
        · rename_i hname
          simp [hname]
      · have hnew : key ∉ shared.keys := Table.get?_eq_none_iff.1 hkey
        rw [Table.keys, map_append]
        refine nodup_append.2 ⟨h, by simp, fun a ha b hb => ?_⟩
        have hb : b = key := by simpa using hb
        rintro rfl
        exact hnew (hb ▸ ha)
    | some type =>
      dsimp only
      split
      · rename_i hsame
        refine (ih shared).of_given (fun name other => ?_) id
        rw [Given, Given, mem_cons, Prod.mk.injEq]
        refine ⟨Or.imp_right .inr, ?_⟩
        rintro (h | ⟨rfl, rfl⟩ | h)
        · exact .inl h
        · exact .inl (hkey.trans (congrArg some hsame))
        · exact .inr h
      · rename_i hne
        exact .conflict hne (.inl hkey) (.inr mem_cons_self)

/-! ## Phases -/

/-- Merges phases one after the other. -/
def absorbAll (c : Classes) (its : List Iteration) : Except Error Classes :=
  its.foldlM absorb c

lemma absorbAll_eq (c : Classes) (its : List Iteration) :
    c.absorbAll its = ((its.flatMap (·.locals.shared)).foldlM addShared c.shared).map fun shared =>
      { c with
        shared
        modelExtra := c.modelExtra.addAll (its.flatMap (·.modelExtra))
        deviceExtra := c.deviceExtra.addAll (its.flatMap (·.deviceExtra)) } := by
  induction its generalizing c with
  | nil => rfl
  | cons it its ih =>
    simp only [absorbAll, foldlM_cons, flatMap_cons, foldlM_append, absorb]
    cases it.locals.shared.foldlM addShared c.shared with
    | error e => rfl
    | ok shared =>
      refine (ih _).trans ?_
      simp only [Names.addAll_append]
      rfl

/-- Two phases share one variable with different types. -/
def Conflicting (its : List Iteration) : Prop :=
  ∃ a ∈ its, ∃ b ∈ its, ∃ name type other, (name, type) ∈ a.locals.shared ∧ (name, other) ∈ b.locals.shared ∧ type ≠ other

lemma Conflicting.perm (h : its.Perm its') (hconflict : Conflicting its) : Conflicting its' := by
  obtain ⟨a, ha, b, hb, hshared⟩ := hconflict
  exact ⟨a, h.mem_iff.1 ha, b, h.mem_iff.1 hb, hshared⟩

/-- The classes know what the phases say: each shared variable with the type that every phase gives it, and all names
without a declaration that some phase has. -/
structure Knows (c : Classes) (its : List Iteration) : Prop where
  shared : ∀ name type, c.shared.get? name = some type ↔ ∃ it ∈ its, (name, type) ∈ it.locals.shared
  nodup : c.shared.keys.Nodup
  modelExtra : ∀ name, name ∈ c.modelExtra ↔ ∃ it ∈ its, name ∈ it.modelExtra
  deviceExtra : ∀ name, name ∈ c.deviceExtra ↔ ∃ it ∈ its, name ∈ it.deviceExtra

lemma Knows.perm {c : Classes} (hknows : c.Knows its) (h : its.Perm its') : c.Knows its' := by
  have hmem {p : Iteration → Prop} : (∃ it ∈ its, p it) ↔ ∃ it ∈ its', p it := by simp only [h.mem_iff]
  exact ⟨fun name type => (hknows.shared name type).trans hmem, hknows.nodup, fun name => (hknows.modelExtra name).trans hmem,
    fun name => (hknows.deviceExtra name).trans hmem⟩

/-- The classes without what phases have said. -/
def unmerged (c : Classes) : Classes :=
  { c with shared := [], modelExtra := [], deviceExtra := [] }

lemma absorbAll_unmerged (c : Classes) (its : List Iteration) :
    (Conflicting its ∧ ∃ name first second, c.unmerged.absorbAll its = .error (.sharedConflict name first second)) ∨
      ¬Conflicting its ∧ ∃ merged, c.unmerged.absorbAll its = .ok merged ∧ merged.Knows its := by
  have hgiven (name : String) (type : LocalType) :
      Given [] (its.flatMap (·.locals.shared)) name type ↔ ∃ it ∈ its, (name, type) ∈ it.locals.shared := by
    simp [Given, Table.get?]
  have hmerged := merged_foldlM [] (its.flatMap (·.locals.shared))
  rw [absorbAll_eq, show c.unmerged.shared = [] from rfl]
  cases hresult : foldlM addShared [] (its.flatMap (·.locals.shared)) with
  | error e =>
    rw [hresult] at hmerged
    cases hmerged with
    | conflict hne htype hother =>
      obtain ⟨a, ha, htype⟩ := (hgiven _ _).1 htype
      obtain ⟨b, hb, hother⟩ := (hgiven _ _).1 hother
      exact .inl ⟨⟨a, ha, b, hb, _, _, _, htype, hother, hne⟩, _, _, _, rfl⟩
  | ok shared =>
    rw [hresult] at hmerged
    cases hmerged with
    | table get nodup =>
      have hget (name : String) (type : LocalType) := (get name type).trans (hgiven name type)
      refine .inr ⟨?_, _, rfl, hget, nodup nodup_nil, fun name => ?_, fun name => ?_⟩
      · rintro ⟨a, ha, b, hb, name, type, other, htype, hother, hne⟩
        have hsame := ((hget _ _).2 ⟨a, ha, htype⟩).symm.trans ((hget _ _).2 ⟨b, hb, hother⟩)
        exact hne (Option.some.inj hsame)
      · simp [unmerged]
      · simp [unmerged]

/-- Merging fails exactly if two phases share a variable with different types, in every order of the phases; if it does
not fail, the classes know what the phases say and nothing else, in every order of the phases. -/
theorem absorbAll_perm (c : Classes) (h : its.Perm its') :
    ((∃ name first second, c.unmerged.absorbAll its = .error (.sharedConflict name first second)) ↔ Conflicting its) ∧
      ((∃ name first second, c.unmerged.absorbAll its' = .error (.sharedConflict name first second)) ↔ Conflicting its) ∧
      (¬Conflicting its → ∃ merged merged', c.unmerged.absorbAll its = .ok merged ∧ c.unmerged.absorbAll its' = .ok merged' ∧
        merged.Knows its ∧ merged'.Knows its) := by
  rcases absorbAll_unmerged c its with ⟨hconflict, herror⟩ | ⟨hnone, merged, hmerged, hknows⟩
  · rcases absorbAll_unmerged c its' with ⟨-, herror'⟩ | ⟨hnone', -⟩
    · exact ⟨iff_of_true herror hconflict, iff_of_true herror' hconflict, (absurd hconflict ·)⟩
    · exact absurd (hconflict.perm h) hnone'
  · rcases absorbAll_unmerged c its' with ⟨hconflict', -⟩ | ⟨-, merged', hmerged', hknows'⟩
    · exact absurd (hconflict'.perm h.symm) hnone
    · rw [hmerged, hmerged']
      exact ⟨iff_of_false (by simp) hnone, iff_of_false (by simp) hnone,
        fun _ => ⟨merged, merged', rfl, rfl, hknows, hknows'.perm h.symm⟩⟩

def phase (shared : Table LocalType) (modelExtra : Names) : Iteration :=
  ⟨⟨"", "", "", "model", "here", "ckt", ["ckt"]⟩, ⟨[], [], shared⟩, modelExtra, []⟩

theorem absorbAll_perm_swap :
    let c := ofAccessors "DIO" .empty .empty
    let a := phase [("vt", .real)] ["area"]
    let b := phase [("n", .integer), ("vt", .real)] ["m", "area"]
    [a, b].Perm [b, a] ∧ ¬Conflicting [a, b] ∧ ∃ merged merged', c.unmerged.absorbAll [a, b] = .ok merged ∧
      c.unmerged.absorbAll [b, a] = .ok merged' ∧ merged.Knows [a, b] ∧ merged'.Knows [a, b] := by
  intro c a b
  have hperm : [a, b].Perm [b, a] := .swap b a []
  have hnone : ¬Conflicting [a, b] := by
    simp only [Conflicting, a, b, phase, mem_cons, not_mem_nil]
    grind
  exact ⟨hperm, hnone, (absorbAll_perm c hperm).2.2 hnone⟩

end DeviceForge.Classes
