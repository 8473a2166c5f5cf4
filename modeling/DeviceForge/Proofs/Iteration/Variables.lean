import DeviceForge.Iteration.Variables
import DeviceForge.Proofs.Table
/-!
# The roles of local variables

A variable is used where its name stands and no member operator before it, and assigned where `=` follows such a place.
-/

namespace DeviceForge

open List Option

variable {before ts : List Token} {name : String} {i : Nat}

/-! ## Places -/

/-- The token with index `i` is the variable itself, not a member with its name. -/
structure UsedAt (ts : List Token) (name : String) (i : Nat) : Prop where
  word : ∃ t, ts[i]? = some t ∧ t.kind = .identifier ∧ t.text = name
  bare : ∀ j t, j + 1 = i → ts[j]? = some t → t.text ≠ "->" ∧ t.text ≠ "."

def AssignedAt (ts : List Token) (i : Nat) : Prop :=
  ∃ t, ts[i + 1]? = some t ∧ t.text = "="

def Assigns (code name : String) : Prop :=
  ∃ i, UsedAt (Code.ofString code).tokens name i ∧ AssignedAt (Code.ofString code).tokens i

/-- The code uses the variable, and no assignment operator follows the first use. -/
def ReadsFirst (code name : String) : Prop :=
  ∃ i, UsedAt (Code.ofString code).tokens name i ∧ (∀ j < i, ¬UsedAt (Code.ofString code).tokens name j) ∧
    ¬AssignedAt (Code.ofString code).tokens i

section
variable (before : List Token) (t : Token) (ts : List Token)

lemma getElem?_passed : (before.reverse ++ t :: ts)[before.length]? = some t := by
  rw [getElem?_append_right (by simp)]
  simp

lemma assignedAt_passed : AssignedAt (before.reverse ++ t :: ts) before.length ↔ ts.head?.any (·.text = "=") := by
  have hnext : (before.reverse ++ t :: ts)[before.length + 1]? = ts.head? := by
    rw [getElem?_append_right (by simp), length_reverse, Nat.add_sub_cancel_left, getElem?_cons_succ, head?_eq_getElem?]
  rw [AssignedAt, hnext, Option.any_eq_true]
  simp only [decide_eq_true_eq]

lemma usedAt_passed (name : String) :
    UsedAt (before.reverse ++ t :: ts) name before.length ↔ (t.isIdentifier && t.text = name && !followsMember before) := by
  have hword : (∃ u, (before.reverse ++ t :: ts)[before.length]? = some u ∧ u.kind = .identifier ∧ u.text = name) ↔
      t.kind = .identifier ∧ t.text = name := by
    rw [getElem?_passed]
    exact ⟨fun ⟨u, hu, h⟩ => some.inj hu ▸ h, fun h => ⟨t, rfl, h⟩⟩
  have hbare : (∀ j u, j + 1 = before.length → (before.reverse ++ t :: ts)[j]? = some u → u.text ≠ "->" ∧ u.text ≠ ".") ↔
      followsMember before = false := by
    cases before with
    | nil => simp [followsMember]
    | cons p passed =>
      have hlast : ((p :: passed).reverse ++ t :: ts)[passed.length]? = some p := by
        rw [reverse_cons, append_assoc]
        exact getElem?_passed passed p (t :: ts)
      rw [followsMember, head?_cons, any_some, Token.reachesMember, Bool.or_eq_false_iff,
        decide_eq_false_iff_not, decide_eq_false_iff_not]
      constructor
      · exact fun h => h passed.length p rfl hlast
      · rintro h j u hj hu
        obtain rfl : j = passed.length := Nat.succ.inj hj
        rw [hlast] at hu
        exact some.inj hu ▸ h
  rw [Bool.and_eq_true, Bool.and_eq_true, Token.isIdentifier, decide_eq_true_eq, decide_eq_true_eq, Bool.not_eq_true', ← hword, ← hbare]
  exact ⟨fun h => ⟨h.word, h.bare⟩, fun h => ⟨h.1, h.2⟩⟩

end

lemma UsedAt.lt (h : UsedAt ts name i) : i < ts.length := by
  obtain ⟨t, ht, -⟩ := h.word
  exact (List.getElem?_eq_some_iff.1 ht).1

lemma passed_cons (before : List Token) (t : Token) (ts : List Token) : (t :: before).reverse ++ ts = before.reverse ++ t :: ts := by
  simp

lemma mem_assignments : (i, name) ∈ assignments before ts ↔
      before.length ≤ i ∧ UsedAt (before.reverse ++ ts) name i ∧ AssignedAt (before.reverse ++ ts) i := by
  induction ts generalizing before with
  | nil =>
    refine ⟨(nomatch ·), fun ⟨hle, huse, _⟩ => ?_⟩
    have := huse.lt
    simp at this
    omega
  | cons t ts ih =>
    -- the token at hand has the index `before.length`; what stands behind it is the induction hypothesis
    have hrest := @ih (t :: before)
    rw [passed_cons, length_cons] at hrest
    have hsplit : before.length ≤ i ↔ i = before.length ∨ before.length + 1 ≤ i := by omega
    have hhead : (t.isIdentifier && ts.head?.any (·.text = "=") && !followsMember before) ∧ name = t.text ↔
        UsedAt (before.reverse ++ t :: ts) name before.length ∧ AssignedAt (before.reverse ++ t :: ts) before.length := by
      rw [usedAt_passed, assignedAt_passed]
      simp only [Bool.and_eq_true, decide_eq_true_eq]
      exact ⟨fun ⟨⟨⟨h1, h2⟩, h3⟩, h4⟩ => ⟨⟨⟨h1, h4.symm⟩, h3⟩, h2⟩, fun ⟨⟨⟨h1, h4⟩, h3⟩, h2⟩ => ⟨⟨⟨h1, h2⟩, h3⟩, h4.symm⟩⟩
    rw [assignments, hsplit]
    split_ifs with hassigned
    · rw [mem_cons, hrest, Prod.mk.injEq]
      rw [hassigned] at hhead
      constructor
      · rintro (⟨rfl, hname⟩ | ⟨hle, h⟩)
        · exact ⟨.inl rfl, hhead.1 ⟨rfl, hname⟩⟩
        · exact ⟨.inr hle, h⟩
      · rintro ⟨rfl | hle, h⟩
        · exact .inl ⟨rfl, (hhead.2 h).2⟩
        · exact .inr ⟨hle, h⟩
    · rw [hrest]
      constructor
      · exact fun ⟨hle, h⟩ => ⟨.inr hle, h⟩
      · rintro ⟨rfl | hle, h⟩
        · exact absurd (hhead.2 h).1 hassigned
        · exact ⟨hle, h⟩

lemma firstUse?_eq_some_iff :
    firstUse? name before ts = some i ↔ before.length ≤ i ∧ UsedAt (before.reverse ++ ts) name i ∧
      ∀ j, before.length ≤ j → j < i → ¬UsedAt (before.reverse ++ ts) name j := by
  induction ts generalizing before with
  | nil =>
    refine ⟨(nomatch ·), fun ⟨hle, huse, _⟩ => ?_⟩
    have := huse.lt
    simp at this
    omega
  | cons t ts ih =>
    rw [firstUse?]
    split_ifs with hused
    · have huse := (usedAt_passed before t ts name).2 hused
      rw [some.injEq]
      constructor
      · rintro rfl
        exact ⟨Nat.le_refl _, huse, fun j hle hlt => absurd hlt (Nat.not_lt.2 hle)⟩
      · rintro ⟨hle, -, hfirst⟩
        by_contra hne
        exact hfirst _ (Nat.le_refl _) (Nat.lt_of_le_of_ne hle hne) huse
    · have hnot := mt (usedAt_passed before t ts name).1 hused
      rw [ih, passed_cons, length_cons]
      constructor
      · rintro ⟨hle, huse, hfirst⟩
        refine ⟨by omega, huse, fun j hj hlt => ?_⟩
        rcases Nat.eq_or_lt_of_le hj with rfl | hj
        · exact hnot
        · exact hfirst j hj hlt
      · rintro ⟨hle, huse, hfirst⟩
        refine ⟨?_, huse, fun j hj hlt => hfirst j (by omega) hlt⟩
        rcases Nat.eq_or_lt_of_le hle with rfl | hlt
        · exact absurd huse hnot
        · exact hlt

lemma find?_assignments (h : firstUse? name before ts = some i) :
    ((assignments before ts).find? (·.2 = name)).map (·.1) = some i ↔ AssignedAt (before.reverse ++ ts) i := by
  induction ts generalizing before with
  | nil => cases h
  | cons t ts ih =>
    rw [firstUse?] at h
    split_ifs at h with hused
    · obtain rfl := some.inj h
      simp only [Bool.and_eq_true, decide_eq_true_eq] at hused
      obtain ⟨⟨hword, htext⟩, hbare⟩ := hused
      rw [assignments, assignedAt_passed]
      by_cases heq : ts.head?.any (·.text = "=")
      · simp [hword, hbare, heq, htext]
      · -- every other assignment stands further behind
        have hrest : ∀ entry ∈ assignments (t :: before) ts, entry.1 ≠ before.length := by
          rintro ⟨j, other⟩ hmem
          have := (mem_assignments.1 hmem).1
          simp only [length_cons] at this
          dsimp only
          omega
        simp only [hword, hbare, heq, Bool.and_false, Bool.false_and, Bool.false_eq_true, if_false, iff_false]
        intro hfind
        obtain ⟨entry, hentry, hindex⟩ := map_eq_some_iff.1 hfind
        exact hrest entry (mem_of_find?_eq_some hentry) hindex
    · rw [← passed_cons, ← ih h, assignments]
      split_ifs with hassigned
      · have hother : t.text ≠ name := by
          rintro rfl
          simp only [Bool.and_eq_true] at hassigned
          simp [hassigned.1.1, hassigned.2] at hused
        rw [find?_cons_of_neg (by simpa using hother)]
      · rfl

lemma readsFirst_iff (code name : String) : readsFirst name (Code.ofString code).tokens ↔ ReadsFirst code name := by
  have hplace {i : Nat} := @firstUse?_eq_some_iff [] (Code.ofString code).tokens name i
  simp only [length_nil, reverse_nil, nil_append, Nat.zero_le, true_and, forall_const] at hplace
  rw [readsFirst]
  cases huse : firstUse? name [] (Code.ofString code).tokens with
  | none =>
    refine ⟨(nomatch ·), fun ⟨i, hi, hfirst, _⟩ => ?_⟩
    simp [hplace.2 ⟨hi, hfirst⟩] at huse
  | some i =>
    obtain ⟨hi, hfirst⟩ := hplace.1 huse
    simp only [ne_eq, decide_eq_true_eq]
    rw [find?_assignments huse, reverse_nil, nil_append]
    constructor
    · exact fun h => ⟨i, hi, hfirst, h⟩
    · rintro ⟨j, hj, hjfirst, h⟩
      have : i = j := some.inj (huse.symm.trans (hplace.2 ⟨hj, hjfirst⟩))
      exact this ▸ h

/-! ## Types -/

namespace Typing

variable {t : Typing} {type : LocalType}

lemma get?_scope (code name : String) :
    (scope code).get? name = ((Declarator.all code).find? (·.name = name)).map (·.type) := by
  have hfold (types : Table LocalType) (ds : List Declarator) :
      (ds.foldl (fun types d => types.putNew d.name d.type) types).get? name =
        (types.get? name).or ((ds.find? (·.name = name)).map (·.type)) := by
    induction ds generalizing types with
    | nil => simp
    | cons d ds ih =>
      rw [foldl_cons, ih, Table.get?_putNew, Option.or_assoc]
      by_cases hname : d.name = name
      · rw [if_pos hname.symm, find?_cons_of_pos (by simpa using hname), some_or, map_some]
      · rw [if_neg (Ne.symm hname), find?_cons_of_neg (by simpa using hname), none_or]
  exact (hfold [] _).trans (none_or)

lemma findSome?_scopes (loops : Loops) (name : String) :
    (Typing.ofLoops loops).scopes.findSome? (·.get? name) = loops.typeOf? name := by
  rw [ofLoops, findSome?_map, Loops.typeOf?]
  refine congrArg₂ _ (funext fun code => ?_) rfl
  exact get?_scope code name

structure Remembers (loops : Loops) (t : Typing) : Prop where
  scopes : t.scopes = (Typing.ofLoops loops).scopes
  types : ∀ name type, t.resolved.get? name = some type → type = (loops.typeOf? name).getD .real
  findings : ∀ f ∈ t.findings, ∃ name, f = .untypedVariable name
  count : ∀ name, t.findings.count (.untypedVariable name) =
    if name ∈ t.resolved.keys ∧ loops.typeOf? name = none then 1 else 0

lemma remembers_ofLoops (loops : Loops) : Remembers loops (.ofLoops loops) :=
  ⟨rfl, fun _ _ h => (nomatch h), fun _ h => (nomatch h), fun name => by simp [Typing.ofLoops, Table.keys]⟩

lemma infer_known (h : t.resolved.get? name = some type) : t.infer name = (type, t) := by
  rw [Typing.infer, h]

lemma infer_declared (hnew : t.resolved.get? name = none)
    (h : t.scopes.findSome? (·.get? name) = some type) :
    t.infer name = (type, { t with resolved := t.resolved.put name type }) := by
  rw [Typing.infer, hnew, h]

lemma infer_undeclared (hnew : t.resolved.get? name = none) (h : t.scopes.findSome? (·.get? name) = none) :
    t.infer name = (.real, { t with
      resolved := t.resolved.put name .real
      findings := t.findings ++ [.untypedVariable name] }) := by
  rw [Typing.infer, hnew, h]

lemma Remembers.put {loops : Loops} (h : Remembers loops t)
    (htype : type = (loops.typeOf? name).getD .real) (other : String) (found : LocalType)
    (hfound : (t.resolved.put name type).get? other = some found) : found = (loops.typeOf? other).getD .real := by
  rw [Table.get?_put] at hfound
  split_ifs at hfound with hother
  · rw [hother, ← htype]
    exact (some.inj hfound).symm
  · exact h.types other found hfound

lemma Remembers.infer {loops : Loops} (h : Remembers loops t) (name : String) :
    (t.infer name).1 = (loops.typeOf? name).getD .real ∧ Remembers loops (t.infer name).2 ∧
      ∀ other, other ∈ (t.infer name).2.resolved.keys ↔ other ∈ t.resolved.keys ∨ other = name := by
  have hscopes : t.scopes.findSome? (·.get? name) = loops.typeOf? name := by rw [h.scopes, findSome?_scopes]
  cases hknown : t.resolved.get? name with
  | some type =>
    rw [infer_known hknown]
    refine ⟨h.types name type hknown, h, fun other => ⟨.inl, ?_⟩⟩
    rintro (hmem | rfl)
    · exact hmem
    · exact Table.mem_keys_of_get? hknown
  | none =>
    cases htype : loops.typeOf? name with
    | some type =>
      rw [infer_declared hknown (hscopes.trans htype)]
      refine ⟨rfl, ⟨h.scopes, h.put (by rw [htype]; rfl), h.findings, fun other => ?_⟩, fun other => Table.mem_keys_put⟩
      simp only [h.count, Table.mem_keys_put]
      by_cases hother : other = name
      · simp [hother, htype]
      · simp [hother]
    | none =>
      rw [infer_undeclared hknown (hscopes.trans htype)]
      refine ⟨rfl, ⟨h.scopes, h.put (by rw [htype]; rfl), fun f hf => ?_, fun other => ?_⟩, fun other => Table.mem_keys_put⟩
      · rcases mem_append.1 hf with hf | hf
        · exact h.findings f hf
        · exact ⟨name, mem_singleton.1 hf⟩
      · have hnew : name ∉ t.resolved.keys := Table.get?_eq_none_iff.1 hknown
        simp only [count_append, h.count, Table.mem_keys_put]
        by_cases hother : other = name
        · simp [hother, htype, hnew]
        · have hne : Diagnostic.untypedVariable name ≠ .untypedVariable other := fun heq => hother (Diagnostic.untypedVariable.inj heq).symm
          simp [hother, hne]

end Typing

/-! ## Sorting -/

namespace Variables

variable {code deviceCode other : String} {loops : Loops} {done inModel inDevice : List String}
  {s : Variables × Typing}

lemma mem_assignedIn : name ∈ assignedIn code ↔ Assigns code name := by
  have hplace {i : Nat} := @mem_assignments [] (Code.ofString code).tokens name i
  simp only [length_nil, Nat.zero_le, reverse_nil, nil_append, true_and] at hplace
  rw [assignedIn, List.mem_map]
  constructor
  · rintro ⟨⟨i, _⟩, hmem, rfl⟩
    exact ⟨i, hplace.1 hmem⟩
  · exact fun ⟨i, hi⟩ => ⟨(i, name), hplace.2 hi, rfl⟩

/-- The code assigns a variable that it neither declares nor takes as an argument. -/
structure Sets (loops : Loops) (code name : String) : Prop where
  assigns : Assigns code name
  notArgument : name ∉ loops.arguments
  undeclared : ∀ d ∈ Declarator.all code, d.name ≠ name

structure Reads (deviceCode name : String) : Prop where
  undeclared : ∀ d ∈ Declarator.all deviceCode, d.name ≠ name
  first : ReadsFirst deviceCode name

lemma declares_eq_false_iff : declares code name = false ↔ ∀ d ∈ Declarator.all code, d.name ≠ name := by
  simp [declares]

lemma isShared_iff : isShared deviceCode name ↔ Reads deviceCode name := by
  rw [isShared, Bool.and_eq_true, Bool.not_eq_true', declares_eq_false_iff, readsFirst_iff]
  exact ⟨fun h => ⟨h.1, h.2⟩, fun h => ⟨h.undeclared, h.first⟩⟩

def Passed (loops : Loops) (code : String) (done : List String) (name : String) : Prop :=
  name ∈ done ∧ name ∉ loops.arguments ∧ declares code name = false

structure Typed (loops : Loops) (table : Table LocalType) : Prop where
  nodup : table.keys.Nodup
  types : ∀ entry ∈ table, entry.2 = (loops.typeOf? entry.1).getD .real

lemma Typed.put {table : Table LocalType} (h : Typed loops table) {type : LocalType}
    (htype : type = (loops.typeOf? name).getD .real) : Typed loops (table.put name type) := by
  refine ⟨Table.nodup_put h.nodup, fun entry hentry => ?_⟩
  rcases Table.mem_put hentry with rfl | hentry
  · exact htype
  · exact h.types entry hentry

structure Sorted (loops : Loops) (inModel inDevice : List String) (v : Variables) (typing : Typing) : Prop where
  remembers : typing.Remembers loops
  resolved : ∀ name, name ∈ typing.resolved.keys ↔ name ∈ v.model.keys ∨ name ∈ v.shared.keys ∨ name ∈ v.device.keys
  typedModel : Typed loops v.model
  typedShared : Typed loops v.shared
  typedDevice : Typed loops v.device
  model : ∀ name, name ∈ v.model.keys ↔ Passed loops loops.modelCode inModel name ∧ isShared loops.deviceCode name = false
  shared : ∀ name, name ∈ v.shared.keys ↔ Passed loops loops.modelCode inModel name ∧ isShared loops.deviceCode name = true
  device : ∀ name, name ∈ v.device.keys ↔ Passed loops loops.deviceCode inDevice name ∧ name ∉ v.shared.keys

lemma sorted_start (loops : Loops) : Sorted loops [] [] ⟨[], [], []⟩ (.ofLoops loops) := by
  have htyped : Typed loops [] := ⟨nodup_nil, fun _ h => (nomatch h)⟩
  refine ⟨Typing.remembers_ofLoops loops, ?_, htyped, htyped, htyped, ?_, ?_, ?_⟩
  all_goals
    intro name
    simp [Table.keys, Typing.ofLoops, Passed]

lemma passed_concat : Passed loops code (done ++ [name]) other ↔
      Passed loops code done other ∨ other = name ∧ name ∉ loops.arguments ∧ declares code name = false := by
  rw [Passed, Passed, mem_append, mem_singleton]
  constructor
  · rintro ⟨hmem | rfl, h⟩
    · exact .inl ⟨hmem, h⟩
    · exact .inr ⟨rfl, h⟩
  · rintro (⟨hmem, h⟩ | ⟨rfl, h⟩)
    · exact ⟨.inl hmem, h⟩
    · exact ⟨.inr rfl, h⟩

lemma addModel_eq (loops : Loops) (v : Variables) (typing : Typing) (name : String) :
    addModel loops (v, typing) name =
      if v.model.has name || v.shared.has name || loops.arguments.contains name || declares loops.modelCode name then (v, typing)
      else if isShared loops.deviceCode name then
        ({ v with shared := v.shared.put name (typing.infer name).1 }, (typing.infer name).2)
      else ({ v with model := v.model.put name (typing.infer name).1 }, (typing.infer name).2) := rfl

lemma addDevice_eq (loops : Loops) (v : Variables) (typing : Typing) (name : String) :
    addDevice loops (v, typing) name =
      if v.device.has name || v.shared.has name || loops.arguments.contains name || declares loops.deviceCode name then (v, typing)
      else ({ v with device := v.device.put name (typing.infer name).1 }, (typing.infer name).2) := rfl

section
variable {table : Table LocalType} {q : String → Prop}
  (h : ∀ other, other ∈ table.keys ↔ Passed loops code done other ∧ q other)

include h

lemma mem_keys_put_passed (hname : name ∉ loops.arguments ∧ declares code name = false) (hq : q name) (type : LocalType)
    (other : String) : other ∈ (table.put name type).keys ↔ Passed loops code (done ++ [name]) other ∧ q other := by
  rw [Table.mem_keys_put, h, passed_concat]
  constructor
  · rintro (⟨hp, hs⟩ | rfl)
    · exact ⟨.inl hp, hs⟩
    · exact ⟨.inr ⟨rfl, hname⟩, hq⟩
  · rintro ⟨hp | ⟨rfl, -⟩, hs⟩
    · exact .inl ⟨hp, hs⟩
    · exact .inr rfl

lemma mem_keys_passed (hname : name ∉ loops.arguments → declares code name = false → q name → name ∈ table.keys)
    (other : String) : other ∈ table.keys ↔ Passed loops code (done ++ [name]) other ∧ q other := by
  rw [h, passed_concat]
  refine ⟨fun ⟨hp, hs⟩ => ⟨.inl hp, hs⟩, ?_⟩
  rintro ⟨hp | ⟨rfl, hargument, hdeclared⟩, hs⟩
  · exact ⟨hp, hs⟩
  · exact (h other).1 (hname hargument hdeclared hs)

end

lemma Sorted.addModel (h : Sorted loops inModel [] s.1 s.2) (name : String) :
    Sorted loops (inModel ++ [name]) [] (addModel loops s name).1 (addModel loops s name).2 := by
  obtain ⟨v, typing⟩ := s
  rw [addModel_eq]
  split
  · rename_i hskip
    have hknown (hargument : name ∉ loops.arguments) (hdeclared : declares loops.modelCode name = false) :
        name ∈ v.model.keys ∨ name ∈ v.shared.keys := by
      simpa [Table.has_iff, hargument, hdeclared] using hskip
    refine ⟨h.remembers, h.resolved, h.typedModel, h.typedShared, h.typedDevice,
      mem_keys_passed h.model fun hargument hdeclared hs => (hknown hargument hdeclared).resolve_right fun hmem => ?_,
      mem_keys_passed h.shared fun hargument hdeclared hs => (hknown hargument hdeclared).resolve_left fun hmem => ?_, h.device⟩
    · simp [((h.shared name).1 hmem).2] at hs
    · simp [((h.model name).1 hmem).2] at hs
  · rename_i hskip
    simp only [Bool.or_eq_true, Table.has_iff, contains_iff_mem, not_or, Bool.not_eq_true] at hskip
    obtain ⟨htype, hremembers, hresolved⟩ := h.remembers.infer name
    have hdevice (other : String) : other ∉ v.device.keys := fun hmem => by
      simpa [Passed] using ((h.device other).1 hmem).1
    split
    · rename_i hshared
      refine ⟨hremembers, fun other => ?_, h.typedModel, h.typedShared.put htype, h.typedDevice,
        mem_keys_passed h.model fun _ _ hs => ?_, mem_keys_put_passed h.shared ⟨hskip.1.2, hskip.2⟩ hshared _,
        fun other => iff_of_false (hdevice other) (by simp [Passed])⟩
      · rw [hresolved, h.resolved, Table.mem_keys_put]
        tauto
      · simp [hshared] at hs
    · rename_i hshared
      refine ⟨hremembers, fun other => ?_, h.typedModel.put htype, h.typedShared, h.typedDevice,
        mem_keys_put_passed h.model ⟨hskip.1.2, hskip.2⟩ (by simpa using hshared) _,
        mem_keys_passed h.shared fun _ _ hs => absurd hs hshared, fun other => iff_of_false (hdevice other) (by simp [Passed])⟩
      rw [hresolved, h.resolved, Table.mem_keys_put]
      tauto

lemma Sorted.addDevice (h : Sorted loops inModel inDevice s.1 s.2) (name : String) :
    Sorted loops inModel (inDevice ++ [name]) (addDevice loops s name).1 (addDevice loops s name).2 := by
  obtain ⟨v, typing⟩ := s
  rw [addDevice_eq]
  split_ifs with hskip
  · refine ⟨h.remembers, h.resolved, h.typedModel, h.typedShared, h.typedDevice, h.model, h.shared,
      mem_keys_passed h.device fun hargument hdeclared hs => ?_⟩
    simpa [Table.has_iff, hargument, hdeclared, hs] using hskip
  · simp only [Bool.or_eq_true, Table.has_iff, contains_iff_mem, not_or, Bool.not_eq_true] at hskip
    obtain ⟨⟨⟨-, hshared⟩, hargument⟩, hdeclared⟩ := hskip
    obtain ⟨htype, hremembers, hresolved⟩ := h.remembers.infer name
    refine ⟨hremembers, fun other => ?_, h.typedModel, h.typedShared, h.typedDevice.put htype, h.model, h.shared,
      mem_keys_put_passed h.device ⟨hargument, hdeclared⟩ hshared _⟩
    rw [hresolved, h.resolved, Table.mem_keys_put]
    tauto

lemma Sorted.addModels (h : Sorted loops inModel [] s.1 s.2) (names : List String) :
    Sorted loops (inModel ++ names) [] (names.foldl (Variables.addModel loops) s).1
      (names.foldl (Variables.addModel loops) s).2 := by
  induction names generalizing inModel s with
  | nil => simpa using h
  | cons name names ih =>
    have := ih (h.addModel name)
    rwa [append_assoc] at this

lemma Sorted.addDevices (h : Sorted loops inModel inDevice s.1 s.2) (names : List String) :
    Sorted loops inModel (inDevice ++ names) (names.foldl (Variables.addDevice loops) s).1
      (names.foldl (Variables.addDevice loops) s).2 := by
  induction names generalizing inDevice s with
  | nil => simpa using h
  | cons name names ih =>
    have := ih (h.addDevice name)
    rwa [append_assoc] at this

lemma sorted_ofLoops (loops : Loops) :
    ∃ typing, Sorted loops (assignedIn loops.modelCode) (assignedIn loops.deviceCode) (ofLoops loops).1 typing ∧
      (ofLoops loops).2 = typing.findings :=
  ⟨_, (Sorted.addModels (s := (⟨[], [], []⟩, .ofLoops loops)) (sorted_start loops) _).addDevices _, rfl⟩

lemma passed_assignedIn : Passed loops code (assignedIn code) name ↔ Sets loops code name := by
  rw [Passed, mem_assignedIn, declares_eq_false_iff]
  exact ⟨fun h => ⟨h.1, h.2.1, h.2.2⟩, fun h => ⟨h.assigns, h.notArgument, h.undeclared⟩⟩

/-- The variables of a function with their roles and types, and the findings about them. -/
structure Classifies (loops : Loops) (v : Variables) (findings : List Diagnostic) : Prop where
  model_or_shared : ∀ name, name ∈ v.model.keys ∨ name ∈ v.shared.keys ↔ Sets loops loops.modelCode name
  shared : ∀ name, name ∈ v.shared.keys ↔ (name ∈ v.model.keys ∨ name ∈ v.shared.keys) ∧ Reads loops.deviceCode name
  device : ∀ name, name ∈ v.device.keys ↔ Sets loops loops.deviceCode name ∧ name ∉ v.shared.keys
  model_disjoint : v.model.keys.Disjoint v.shared.keys
  device_disjoint : v.shared.keys.Disjoint v.device.keys
  nodup : v.model.keys.Nodup ∧ v.shared.keys.Nodup ∧ v.device.keys.Nodup
  types : ∀ entry ∈ v.model ++ v.shared ++ v.device, entry.2 = (loops.typeOf? entry.1).getD .real
  only_untyped : ∀ f ∈ findings, ∃ name, f = .untypedVariable name
  count_untyped : ∀ name, findings.count (.untypedVariable name) =
    if (name ∈ v.model.keys ∨ name ∈ v.shared.keys ∨ name ∈ v.device.keys) ∧ loops.typeOf? name = none then 1 else 0

/-- The roles of the variables of a function are exactly those that the places in its code give them, each variable has
the type of its first declaration or is real, and there is one finding for each variable without declaration. -/
theorem ofLoops_classifies (loops : Loops) : Classifies loops (ofLoops loops).1 (ofLoops loops).2 := by
  obtain ⟨typing, h, hfindings⟩ := sorted_ofLoops loops
  have hmodel (name : String) : name ∈ (ofLoops loops).1.model.keys ∨ name ∈ (ofLoops loops).1.shared.keys ↔
      Sets loops loops.modelCode name := by
    rw [h.model, h.shared, passed_assignedIn]
    cases isShared loops.deviceCode name <;> simp
  refine ⟨hmodel, fun name => ?_, fun name => ?_, fun name hm hs => ?_, fun name hs hd => ?_, ?_, fun entry hentry => ?_, ?_, fun name => ?_⟩
  · rw [hmodel, h.shared, passed_assignedIn, isShared_iff]
  · rw [h.device, passed_assignedIn]
  · have hnot := ((h.model name).1 hm).2
    rw [((h.shared name).1 hs).2] at hnot
    cases hnot
  · exact ((h.device name).1 hd).2 hs
  · exact ⟨h.typedModel.nodup, h.typedShared.nodup, h.typedDevice.nodup⟩
  · simp only [mem_append] at hentry
    rcases hentry with (hentry | hentry) | hentry
    · exact h.typedModel.types entry hentry
    · exact h.typedShared.types entry hentry
    · exact h.typedDevice.types entry hentry
  · rw [hfindings]
    exact h.remembers.findings
  · rw [hfindings, h.remembers.count]
    simp only [h.resolved]

end Variables

end DeviceForge
