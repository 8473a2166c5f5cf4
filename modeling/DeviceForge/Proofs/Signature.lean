import DeviceForge.Signature
import DeviceForge.Proofs.Code.Nesting
import DeviceForge.Proofs.Code.Append
/-!
# Parameter lists

The tokens between two parentheses are cut at the commas. The parameters of a method are those of the first list behind its
name that is not refused (`parameters_listed`).
-/

namespace DeviceForge.Signature

open List Code

variable {t : Token} {ts first inside rest item : List Token} {more : List (List Token)} {done : List String}
  {current : Option String} {method : String}

/-! ## Lists -/

/-- The items between commas. -/
def items (inside : List Token) : List (List Token) :=
  inside.splitOnP (·.text = ",")

/-- The last word of an item. -/
def name? (item : List Token) : Option String :=
  (item.reverse.find? (·.isIdentifier)).map (·.text)

/-- A token that may stand in a list of parameters. -/
def IsPart (t : Token) : Prop :=
  t.text = "," ∨ t.isIdentifier ∨ t.text ∈ ["*", "&", "[", "]"]

/-- Words and marks between commas, with a word in each item. -/
structure Lists (inside : List Token) : Prop where
  parts : ∀ t ∈ inside, IsPart t
  words : ∀ item ∈ items inside, ∃ t ∈ item, t.isIdentifier

/-- A list is refused for a token that is no part of a parameter, and for an item without a word beside a comma. -/
def Faulty (inside : List Token) : Prop :=
  (∃ t ∈ inside, ¬IsPart t) ∨ 2 ≤ (items inside).length ∧ ∃ item ∈ items inside, ∀ t ∈ item, ¬t.isIdentifier

lemma name?_cons (t : Token) (item : List Token) :
    name? (t :: item) = (name? item).or (if t.isIdentifier then some t.text else none) := by
  rw [name?, reverse_cons, find?_append, Option.map_or, ← name?, find?_singleton]
  split <;> rfl

lemma name?_eq_none_iff : name? item = none ↔ ∀ t ∈ item, ¬t.isIdentifier := by
  simp [name?]

lemma exists_name (h : ∃ t ∈ item, t.isIdentifier) : ∃ w, name? item = some w := by
  refine Option.ne_none_iff_exists'.1 fun hnone => ?_
  obtain ⟨t, ht, hword⟩ := h
  exact name?_eq_none_iff.1 hnone t ht hword

lemma items_comma (h : t.text = ",") (hitems : items (t :: ts) = first :: more) :
    first = [] ∧ items ts = more ∧ ∃ item others, more = item :: others := by
  rw [items, splitOnP_cons_eq_if_modifyHead, if_pos (by simpa using h)] at hitems
  obtain ⟨rfl, rfl⟩ := cons.inj hitems
  exact ⟨rfl, rfl, exists_cons_of_ne_nil (splitOnP_ne_nil _ _)⟩

lemma items_cons (h : t.text ≠ ",") (hitems : items (t :: ts) = first :: more) :
    ∃ item, first = t :: item ∧ items ts = item :: more := by
  obtain ⟨item, others, hts⟩ := exists_cons_of_ne_nil (splitOnP_ne_nil (fun t : Token => t.text = ",") ts)
  rw [items, splitOnP_cons_eq_if_modifyHead, if_neg (by simpa using h), hts] at hitems
  obtain ⟨rfl, rfl⟩ := cons.inj hitems
  exact ⟨item, rfl, hts⟩

lemma names?_cons (done : List String) (current : Option String) (t : Token) (ts : List Token) :
    names? done current (t :: ts) =
      if t.text = "," then current.bind fun w => names? (done ++ [w]) none ts
      else if t.isIdentifier ∨ t.text ∈ ["*", "&", "[", "]"] then
        names? done ((if t.isIdentifier then some t.text else none).or current) ts
      else none := by
  cases current <;> simp only [names?] <;> split <;> cases t.isIdentifier <;> simp [or_assoc]

/-- `current` is the last word of what stands before the first item. -/
lemma names?_lists (hparts : ∀ t ∈ ts, IsPart t) (hitems : items ts = first :: more) {w : String}
    (hfirst : (name? first).or current = some w) (hmore : ∀ item ∈ more, ∃ t ∈ item, t.isIdentifier) : names? done current ts =
      some (if done ++ w :: more.filterMap name? = ["void"] then [] else done ++ w :: more.filterMap name?) := by
  induction ts generalizing done current first more w with
  | nil =>
    obtain ⟨rfl, rfl⟩ := cons.inj hitems
    obtain rfl : current = some w := hfirst
    cases done <;> simp [names?, apply_ite some]
  | cons t ts ih =>
    obtain ⟨hpart, hparts⟩ := forall_mem_cons.1 hparts
    rw [names?_cons]
    by_cases hcomma : t.text = ","
    · obtain ⟨rfl, hts, item, others, rfl⟩ := items_comma hcomma hitems
      obtain rfl : current = some w := hfirst
      obtain ⟨hitem, hmore⟩ := forall_mem_cons.1 hmore
      obtain ⟨w', hw⟩ := exists_name hitem
      rw [if_pos hcomma, Option.bind_some, ih hparts hts (by rw [hw, Option.some_or]) hmore, filterMap_cons_some hw]
      simp
    · obtain ⟨item, rfl, hts⟩ := items_cons hcomma hitems
      rw [name?_cons, Option.or_assoc] at hfirst
      rw [if_neg hcomma, if_pos (hpart.resolve_left hcomma), ih hparts hts hfirst hmore]

lemma names?_faulty (hitems : items ts = first :: more)
    (hempty : (name? first).or current = none ∨ ∃ item ∈ more, name? item = none) (hmany : done = [] → more ≠ []) :
    names? done current ts = none := by
  induction ts generalizing done current first more with
  | nil =>
    obtain ⟨rfl, rfl⟩ := cons.inj hitems
    obtain rfl : current = none := by simpa [name?] using hempty
    have hdone : done ≠ [] := fun hnil => hmany hnil rfl
    simp [names?, hdone]
  | cons t ts ih =>
    rw [names?_cons]
    split
    · obtain ⟨rfl, hts, item, others, rfl⟩ := items_comma ‹_› hitems
      cases current with
      | none => rfl
      | some w => exact ih hts (by simpa [name?] using hempty) (by simp)
    · obtain ⟨item, rfl, hts⟩ := items_cons ‹_› hitems
      rw [name?_cons, Option.or_assoc] at hempty
      rw [ih hts hempty hmany, ite_self]

lemma names?_other (ht : t ∈ ts) (hother : ¬IsPart t) : names? done current ts = none := by
  induction ts generalizing done current with
  | nil => cases ht
  | cons u ts ih =>
    rw [names?_cons]
    rcases mem_cons.1 ht with rfl | ht
    · obtain ⟨hcomma, hpart⟩ := not_or.1 hother
      rw [if_neg hcomma, if_neg hpart]
    · simp [ih ht]

lemma Faulty.names?_eq (h : Faulty inside) : names? [] none inside = none := by
  rcases h with ⟨t, ht, hother⟩ | ⟨hmany, item, hitem, hwords⟩
  · exact names?_other ht hother
  · obtain ⟨first, more, hitems⟩ := exists_cons_of_ne_nil (ne_nil_of_mem hitem)
    rw [hitems] at hmany hitem
    have hempty : ∃ item ∈ first :: more, name? item = none := ⟨item, hitem, name?_eq_none_iff.2 hwords⟩
    refine names?_faulty hitems (by simpa using hempty) fun _ hmore => ?_
    simp [hmore] at hmany

/-! ## The search -/

/-- What stands behind each `method (`. -/
def openings (method : String) : List Token → List (List Token)
  | t :: paren :: rest =>
    if t.isIdentifier && t.text = method && paren.text = "(" then rest :: openings method (paren :: rest)
    else openings method (paren :: rest)
  | _ => []

/-- The parenthesis is not closed, or the list up to its match is refused. -/
def Refused (rest : List Token) : Prop :=
  ∀ inside close after, enclosed? .round rest = some (inside, close, after) → Faulty inside

def read? (rest : List Token) : Option (List String) :=
  (enclosed? .round rest).bind fun x => names? [] none x.1

lemma find?_eq (method : String) (ts : List Token) : find? (some method) ts = (openings method ts).findSome? read? := by
  fun_induction openings method ts with
  | case1 t paren rest h ih =>
    rw [find?, findSome?_cons, ih]
    simp only [Option.all_some, eq_comm (a := method)]
    rw [if_pos (by simpa [and_assoc] using h), read?]
    cases enclosed? .round rest with
    | none => rfl
    | some x => cases hnames : names? [] none x.1 <;> simp [hnames]
  | case2 t paren rest h ih =>
    rw [find?, ih]
    simp only [Option.all_some, eq_comm (a := method)]
    rw [if_neg (by simpa [and_assoc] using h)]
  | case3 ts h =>
    rcases ts with _ | ⟨t, _ | ⟨paren, rest⟩⟩
    · rfl
    · rfl
    · exact absurd rfl (h t paren rest)

lemma Refused.read?_eq (h : Refused rest) : read? rest = none :=
  Option.bind_eq_none_iff.2 fun x hx => (h x.1 x.2.1 x.2.2 hx).names?_eq

lemma subset_of_mem_openings (h : rest ∈ openings method ts) : rest ⊆ ts := by
  fun_induction openings method ts with
  | case1 t paren ts _ ih =>
    rcases mem_cons.1 h with rfl | h
    · exact fun u hu => by simp [hu]
    · exact List.Subset.trans (ih h) (subset_cons_self _ _)
  | case2 t paren ts _ ih => exact List.Subset.trans (ih h) (subset_cons_self _ _)
  | case3 => cases h

lemma balanced_of_parts (hreads : ∀ t ∈ ts, ∃ cs, Token.Reads t cs) (hparts : ∀ t ∈ ts, IsPart t) : Balanced .round ts := by
  induction ts with
  | nil => rfl
  | cons t ts ih =>
    obtain ⟨⟨cs, ht⟩, hreads⟩ := forall_mem_cons.1 hreads
    obtain ⟨hpart, hparts⟩ := forall_mem_cons.1 hparts
    refine level_cons.2 ⟨0, ?_, ih hreads hparts⟩
    rcases hpart with hcomma | hword | hmark
    · simp [levelBehind, hcomma, Bracket.closing, Bracket.opening, Char.toString]
    · have hkind : t.kind ≠ .punct := by simp_all [Token.isIdentifier]
      rw [levelBehind, if_neg (text_ne ht hkind rfl (by decide)), if_neg (text_ne ht hkind rfl (by decide))]
    · simp only [mem_cons, not_mem_nil, or_false] at hmark
      rcases hmark with h | h | h | h <;> simp [levelBehind, h, Bracket.closing, Bracket.opening, Char.toString]

/-- The parameters of a method are the last words of the items in the first list behind its name that is not refused, and none
if the last word of a single item is `void` or if all lists are refused. -/
theorem parameters_listed (s method : String) :
    (∀ skipped more inside close rest, openings method (ofString s).tokens = skipped ++ (inside ++ close :: rest) :: more →
      (∀ other ∈ skipped, Refused other) → close.text = ")" → Lists inside → parameters s (some method) =
        if (items inside).filterMap name? = ["void"] then [] else (items inside).filterMap name?) ∧
    ((∀ other ∈ openings method (ofString s).tokens, Refused other) → parameters s (some method) = []) := by
  have hrefused {others : List (List Token)} (h : ∀ other ∈ others, Refused other) : others.findSome? read? = none :=
    findSome?_eq_none_iff.2 fun other hother => (h other hother).read?_eq
  refine ⟨fun skipped more inside close rest hopenings hskipped hclose hlists => ?_, fun hall => ?_⟩
  · have hmem : inside ++ close :: rest ∈ openings method (ofString s).tokens := by simp [hopenings]
    have hinside := balanced_of_parts (fun t ht => (opens_ofString s).reads t (subset_of_mem_openings hmem (mem_append_left _ ht)))
      hlists.parts
    cases hitems : items inside with
    | nil => exact absurd hitems (splitOnP_ne_nil _ _)
    | cons first others =>
      obtain ⟨hfirst, hothers⟩ := forall_mem_cons.1 (hitems ▸ hlists.words)
      obtain ⟨w, hw⟩ := exists_name hfirst
      rw [parameters, find?_eq, hopenings, findSome?_append, hrefused hskipped, Option.none_or, findSome?_cons, read?,
        enclosed?_append hinside hclose, Option.bind_some, names?_lists hlists.parts hitems (by rw [hw, Option.some_or]) hothers,
        filterMap_cons_some hw]
      rfl
  · rw [parameters, find?_eq, hrefused hall]
    rfl

/-- A call with a number is passed over. -/
theorem parameters_listed_behind_call :
    ∃ skipped inside close, openings "f" (ofString "f(1) f(T *a)").tokens = [skipped, inside ++ [close]] ∧ Refused skipped ∧
      parameters "f(1) f(T *a)" (some "f") = ["a"] := by
  have hopenings : openings "f" (ofString "f(1) f(T *a)").tokens =
      [⟨.number, "", "1"⟩ :: ⟨.punct, "", ")"⟩ :: [⟨.identifier, " ", "f"⟩, ⟨.punct, "", "("⟩, ⟨.identifier, "", "T"⟩,
        ⟨.punct, " ", "*"⟩, ⟨.identifier, "", "a"⟩, ⟨.punct, "", ")"⟩]] ++
      [[⟨.identifier, "", "T"⟩, ⟨.punct, " ", "*"⟩, ⟨.identifier, "", "a"⟩] ++ [⟨.punct, "", ")"⟩]] := by decide +kernel
  have hskipped (ts : List Token) : Refused (⟨.number, "", "1"⟩ :: ⟨.punct, "", ")"⟩ :: ts) := by
    intro inside close after h
    obtain ⟨rfl, -⟩ := Prod.mk.inj (Option.some.inj h)
    exact .inl ⟨_, mem_singleton_self _, by simp [IsPart, Token.isIdentifier]⟩
  refine ⟨_, _, _, hopenings, hskipped _, (parameters_listed _ "f").1 _ _ _ _ _ hopenings
    (forall_mem_singleton.2 (hskipped _)) rfl ⟨?_, ?_⟩⟩
  · simp [IsPart, Token.isIdentifier]
  · simp [items, splitOnP_cons_eq_if_modifyHead, Token.isIdentifier]

/-- A pointer without a name is taken for no parameter. -/
theorem not_parameters_pointer :
    openings "f" (ofString "f(void *)").tokens = [[⟨.identifier, "", "void"⟩, ⟨.punct, " ", "*"⟩] ++ [⟨.punct, "", ")"⟩]] ∧
      name? [⟨.identifier, "", "void"⟩, ⟨.punct, " ", "*"⟩] = some "void" ∧ parameters "f(void *)" (some "f") ≠ ["void"] := by
  decide +kernel

end DeviceForge.Signature
