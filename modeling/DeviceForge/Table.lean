/-!
# Tables and name lists

Tables and sets that keep the order in which their keys came first.
-/

namespace DeviceForge

abbrev Names : Type :=
  List String

namespace Names

def add (names : Names) (name : String) : Names :=
  if names.contains name then names else names ++ [name]

@[simp]
theorem mem_add {names : Names} {name other : String} :
    other ∈ names.add name ↔ other ∈ names ∨ other = name := by
  by_cases h : name ∈ names
  · simp only [add, List.contains_iff_mem, h, if_true]
    exact ⟨Or.inl, fun h' => h'.elim id fun e => e ▸ h⟩
  · simp [add, h]

theorem nodup_add {names : Names} (h : names.Nodup) (name : String) : (names.add name).Nodup := by
  by_cases hm : name ∈ names
  · simpa [add, hm] using h
  · rw [add, if_neg (by simpa using hm), List.nodup_append]
    refine ⟨h, by simp, ?_⟩
    intro a ha b hb
    rintro rfl
    rw [List.mem_singleton] at hb
    exact hm (hb ▸ ha)

def addAll (names : Names) (more : List String) : Names :=
  more.foldl add names

@[simp]
theorem mem_addAll {names : Names} {more : List String} {other : String} :
    other ∈ names.addAll more ↔ other ∈ names ∨ other ∈ more := by
  induction more generalizing names with
  | nil => simp [addAll]
  | cons name more ih =>
    have := @ih (names.add name)
    simp only [addAll, mem_add] at this
    simp [addAll, this, or_assoc]

theorem nodup_addAll {names : Names} (h : names.Nodup) (more : List String) : (names.addAll more).Nodup := by
  induction more generalizing names with
  | nil => exact h
  | cons name more ih => exact ih (nodup_add h name)

def remove (names : Names) (name : String) : Names :=
  names.filter (· ≠ name)

end Names

abbrev Table (α : Type) : Type :=
  List (String × α)

namespace Table

variable {α : Type}

def get? (t : Table α) (key : String) : Option α :=
  t.lookup key

def has (t : Table α) (key : String) : Bool :=
  t.any (·.1 = key)

def keys (t : Table α) : List String :=
  t.map (·.1)

def put (key : String) (value : α) : Table α → Table α
  | [] => [(key, value)]
  | (k, v) :: rest => if k = key then (k, value) :: rest else (k, v) :: put key value rest

@[simp]
theorem get?_put_self (key : String) (value : α) (t : Table α) : (t.put key value).get? key = some value := by
  induction t with
  | nil => simp [put, get?]
  | cons entry rest ih =>
    obtain ⟨k, v⟩ := entry
    simp only [get?] at ih
    by_cases hk : k = key
    · simp [put, get?, hk]
    · simp [put, get?, hk, List.lookup_cons, beq_eq_false_iff_ne.mpr (Ne.symm hk), ih]

theorem get?_put_of_ne {key other : String} (h : other ≠ key) (value : α) (t : Table α) :
    (t.put key value).get? other = t.get? other := by
  induction t with
  | nil => simp [put, get?, h]
  | cons entry rest ih =>
    obtain ⟨k, v⟩ := entry
    simp only [get?] at ih
    by_cases hk : k = key
    · subst hk
      simp [put, get?, List.lookup_cons, beq_eq_false_iff_ne.mpr h]
    · simp [put, get?, hk, List.lookup_cons, ih]

theorem keys_put (key : String) (value : α) (t : Table α) :
    (t.put key value).keys = Names.add t.keys key := by
  induction t with
  | nil => simp [put, keys, Names.add]
  | cons entry rest ih =>
    obtain ⟨k, v⟩ := entry
    simp only [keys, Names.add] at ih
    by_cases hk : k = key
    · simp [put, keys, Names.add, hk]
    · by_cases hm : key ∈ rest.map (·.1)
      all_goals simp [put, keys, Names.add, hk, Ne.symm hk] at ih hm ⊢
      all_goals grind

def putNew (key : String) (value : α) (t : Table α) : Table α :=
  if t.has key then t else t ++ [(key, value)]

def adjust (key : String) (f : α → α) (t : Table α) : Table α :=
  t.map fun (k, v) => if k = key then (k, f v) else (k, v)

end Table

end DeviceForge
