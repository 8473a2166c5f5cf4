import DeviceForge.Table
import Mathlib.Data.List.Induction
/-!
# Entries of tables

What `put`, `putNew` and `adjust` do to the keys, the entries and the values of a table.
-/

namespace DeviceForge

open List

namespace Names

lemma addAll_append (names : Names) (xs ys : List String) : names.addAll (xs ++ ys) = (names.addAll xs).addAll ys :=
  foldl_append

lemma addAll_eq_append {names : Names} {more : List String} (hmore : more.Nodup) (hnew : ∀ name ∈ more, name ∉ names) :
    names.addAll more = names ++ more := by
  induction more generalizing names with
  | nil => exact (append_nil _).symm
  | cons name more ih =>
    obtain ⟨hname, hmore⟩ := nodup_cons.1 hmore
    obtain ⟨hfirst, hrest⟩ := forall_mem_cons.1 hnew
    have hadd : names.add name = names ++ [name] := by rw [add, if_neg (by simpa using hfirst)]
    have happend : (names.add name).addAll more = names.add name ++ more := by
      refine ih hmore fun other hother => ?_
      rw [mem_add, not_or]
      exact ⟨hrest other hother, fun h => hname (h ▸ hother)⟩
    rw [show names.addAll (name :: more) = (names.add name).addAll more from rfl, happend, hadd, append_assoc]
    rfl

lemma addAll_nil_eq_eraseDups (more : List String) : addAll [] more = more.eraseDups := by
  induction more using reverseRecOn with
  | nil => rfl
  | append_singleton more name ih =>
    have hadd : addAll [] (more ++ [name]) = (addAll [] more).add name := addAll_append [] more [name]
    rw [hadd, eraseDups_append, ← ih, add]
    by_cases h : name ∈ more <;> simp [removeAll, eraseDups_cons, h]

lemma eraseDups_concat (names : List String) (name : String) : (names ++ [name]).eraseDups = add names.eraseDups name := by
  rw [← addAll_nil_eq_eraseDups, addAll_append, addAll_nil_eq_eraseDups]
  rfl

end Names

/-! ## Tables -/

namespace Table

variable {α : Type} {t : Table α} {key other : String} {value : α}

lemma has_iff : t.has key ↔ key ∈ t.keys := by
  rw [has, keys, any_eq_true, mem_map]
  simp only [decide_eq_true_eq]

lemma get?_eq_none_iff : t.get? key = none ↔ key ∉ t.keys := by
  induction t with
  | nil => simp [get?, keys]
  | cons entry rest ih =>
    obtain ⟨k, v⟩ := entry
    simp only [get?, keys] at ih
    by_cases hk : key = k
    · simp [get?, keys, hk]
    · simp [get?, keys, lookup_cons, beq_eq_false_iff_ne.mpr hk, hk, ih]

lemma mem_keys_of_get? (h : t.get? key = some value) : key ∈ t.keys := by
  by_contra hkey
  simp [get?_eq_none_iff.2 hkey] at h

lemma mem_of_get? (h : t.get? key = some value) : (key, value) ∈ t := by
  induction t with
  | nil => cases h
  | cons entry rest ih =>
    obtain ⟨k, v⟩ := entry
    by_cases hk : key = k
    · simp_all [get?]
    · simp only [get?, lookup_cons, beq_eq_false_iff_ne.mpr hk] at h
      exact mem_cons_of_mem _ (ih h)

lemma mem_keys_put : other ∈ (t.put key value).keys ↔ other ∈ t.keys ∨ other = key := by
  rw [keys_put, Names.mem_add]

lemma nodup_put (h : t.keys.Nodup) : (t.put key value).keys.Nodup := by
  rw [keys_put]
  exact Names.nodup_add h key

lemma mem_put {entry : String × α} (h : entry ∈ t.put key value) : entry = (key, value) ∨ entry ∈ t := by
  induction t with
  | nil => exact .inl (mem_singleton.1 h)
  | cons first rest ih =>
    obtain ⟨k, v⟩ := first
    rw [put] at h
    split_ifs at h with hk
    · rcases mem_cons.1 h with rfl | h
      · exact .inl (by rw [hk])
      · exact .inr (mem_cons_of_mem _ h)
    · rcases mem_cons.1 h with rfl | h
      · exact .inr mem_cons_self
      · exact (ih h).imp_right (mem_cons_of_mem _)

lemma get?_put : (t.put key value).get? other = if other = key then some value else t.get? other := by
  split_ifs with h
  · rw [h, get?_put_self]
  · exact get?_put_of_ne h value t

lemma get?_append (t u : Table α) : get? (t ++ u) key = (t.get? key).or (u.get? key) := by
  rw [get?, lookup_append]
  rfl

lemma get?_putNew : (t.putNew key value).get? other = (t.get? other).or (if other = key then some value else none) := by
  rw [putNew]
  split
  · rename_i h
    by_cases ho : other = key
    · obtain ⟨v, hv⟩ := Option.ne_none_iff_exists'.1 (mt get?_eq_none_iff.1 (not_not.2 (ho ▸ has_iff.1 h)))
      rw [hv, Option.some_or]
    · rw [if_neg ho, Option.or_none]
  · rw [get?_append]
    refine congrArg _ ?_
    by_cases ho : other = key
    · simp [get?, ho]
    · simp [get?, lookup_cons, beq_eq_false_iff_ne.mpr ho, ho]

@[simp]
lemma keys_adjust (t : Table α) (key : String) (f : α → α) : (t.adjust key f).keys = t.keys := by
  rw [keys, keys, adjust, map_map]
  refine map_congr_left fun entry _ => ?_
  dsimp only [Function.comp_apply]
  split <;> rfl

lemma get?_adjust (t : Table α) (key other : String) (f : α → α) :
    (t.adjust key f).get? other = (t.get? other).map fun v => if other = key then f v else v := by
  induction t with
  | nil => rfl
  | cons entry rest ih =>
    obtain ⟨k, v⟩ := entry
    simp only [get?, adjust] at ih
    by_cases hk : k = key <;> by_cases ho : other = k
    all_goals simp [get?, adjust, lookup_cons, hk, ho, ih]
    all_goals grind

lemma mem_adjust {f : α → α} {entry : String × α} (h : entry ∈ t.adjust key f) :
    ∃ v, (entry.1, v) ∈ t ∧ (entry.2 = f v ∨ entry.2 = v) := by
  obtain ⟨old, hold, rfl⟩ := mem_map.1 h
  obtain ⟨k, v⟩ := old
  dsimp only
  split
  · exact ⟨v, hold, .inl rfl⟩
  · exact ⟨v, hold, .inr rfl⟩

lemma adjust_append (t u : Table α) (key : String) (f : α → α) : adjust key f (t ++ u) = t.adjust key f ++ u.adjust key f :=
  map_append

lemma adjust_of_not_mem (h : key ∉ t.keys) (f : α → α) : t.adjust key f = t := by
  refine (map_congr_left fun entry hentry => ?_).trans (map_id t)
  obtain ⟨k, v⟩ := entry
  have hne : k ≠ key := fun heq => h (mem_map.2 ⟨_, hentry, heq⟩)
  simp [hne]

end Table

end DeviceForge
