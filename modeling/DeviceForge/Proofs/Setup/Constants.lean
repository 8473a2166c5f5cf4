import DeviceForge.Phase.StateConstant
import DeviceForge.Proofs.Table
import DeviceForge.Proofs.Token.Between
import Mathlib.Data.Nat.Digits.Defs
/-!
# Reading back the names of states

A `Definition` is what a line of a header says about a state.
-/

namespace DeviceForge.StateConstant

open List Token Text Option

variable {text line base : String}

/-- A name for the state that stands a decimal number of places behind the first one, or for the first one. -/
structure Definition where
  name : String
  base : String
  numeral? : Option String
  decimal : ∀ n ∈ numeral?, n.toList ≠ [] ∧ n.toList.all Char.isDigit = true
  /-- Parentheses stand around the sum. -/
  bracketed : Bool

namespace Definition

def sum (d : Definition) (n : String) : Shapes :=
  [word d.base, sign "+", (.number, n)]

/-- The tokens behind the word `define`. -/
def shapes (d : Definition) : Shapes :=
  match d.numeral?, d.bracketed with
  | none, _ => [word d.name, word d.base]
  | some n, false => word d.name :: d.sum n
  | some n, true => word d.name :: sign "(" :: (d.sum n ++ [sign ")"])

def offset (d : Definition) : Nat :=
  d.numeral?.elim 0 fun n => Nat.ofDigits 10 ((n.toList.map fun c => c.toNat - '0'.toNat).reverse)

/-- What the definition says about states behind `base`. An offset takes 64 bits. -/
def entry? (base : String) (d : Definition) : Option (String × Nat) :=
  if d.base = base ∧ d.offset < 2 ^ 64 then some (d.name, d.offset) else none

end Definition

lemma offset?_eq {n : String} (hne : n.toList ≠ []) (hdigits : n.toList.all Char.isDigit = true) :
    offset? n = let value := Nat.ofDigits 10 ((n.toList.map fun c => c.toNat - '0'.toNat).reverse)
      if value < 2 ^ 64 then some value else none := by
  have hvalue : n.toList.foldl (fun n c => 10 * n + (c.toNat - '0'.toNat)) 0 =
      Nat.ofDigits 10 ((n.toList.map fun c => c.toNat - '0'.toNat).reverse) := by
    rw [Nat.ofDigits_eq_foldr, foldr_reverse, foldl_map]
    simp only [Nat.cast_id, Nat.add_comm]
  rw [offset?, if_neg (by simp [hne, hdigits]), hvalue]
  rfl

/-! ## The patterns -/

lemma elements_patterns : patterns.map (·.elements) =
    [[.single .identifier "name", .single .identifier "base"],
      [.single .identifier "name", .single .identifier "base", .literal "+", .single .number "offset"],
      [.single .identifier "name", .literal "(", .single .identifier "base", .literal "+", .single .number "offset",
        .literal ")"]] := by
  decide +kernel

lemma findSome?_patterns (ts : List Token) : patterns.findSome? (·.matchAll? ts) =
    (patterns.map (·.elements)).findSome? fun es => Pattern.matchAll? ⟨es⟩ ts := by
  rw [findSome?_map]
  rfl

/-- The one pattern that fits binds the parts of the definition. -/
lemma exists_match (d : Definition) {ts : List Token} (h : ts.map bare = d.shapes) :
    ∃ m, patterns.findSome? (·.matchAll? ts) = some m ∧ m.text "name" = d.name ∧ m.text "base" = d.base ∧
      (m.capture? "offset").map Capture.text = d.numeral? := by
  obtain ⟨name, base, numeral?, decimal, bracketed⟩ := d
  rw [findSome?_patterns, elements_patterns]
  cases numeral? with
  | none =>
    simp only [Definition.shapes, map_eq_cons_iff, map_eq_nil_iff, bare, word, Prod.mk.injEq] at h
    obtain ⟨t, _, rfl, ⟨ht, rfl⟩, u, _, rfl, ⟨hu, rfl⟩, rfl⟩ := h
    refine ⟨⟨[], [t, u], [], [("name", ⟨0, [t]⟩), ("base", ⟨1, [u]⟩)]⟩, ?_, ?_⟩
    · simp [Pattern.matchAll?, Pattern.matchAt?, Pattern.matchElements, Pattern.Class.accepts,
        Pattern.bind, lookup_cons, ht, hu]
    · simp [Match.text, Match.capture?, Capture.text, Code.span, Code.spell, lookup_cons]
  | some n =>
    cases bracketed with
    | false =>
      simp only [Definition.shapes, Definition.sum, map_eq_cons_iff, map_eq_nil_iff, bare, word, sign, Prod.mk.injEq] at h
      obtain ⟨t, _, rfl, ⟨ht, rfl⟩, u, _, rfl, ⟨hu, rfl⟩, v, _, rfl, ⟨hv, hplus⟩, w, _, rfl, ⟨hw, rfl⟩, rfl⟩ := h
      refine ⟨⟨[], [t, u, v, w], [], [("name", ⟨0, [t]⟩), ("base", ⟨1, [u]⟩), ("offset", ⟨3, [w]⟩)]⟩, ?_, ?_⟩
      · simp [Pattern.matchAll?, Pattern.matchAt?, Pattern.matchElements, Pattern.Class.accepts,
          Pattern.bind, lookup_cons, ht, hu, hplus, hw]
      · simp [Match.text, Match.capture?, Capture.text, Code.span, Code.spell, lookup_cons]
    | true =>
      simp only [Definition.shapes, Definition.sum, map_eq_cons_iff, map_eq_nil_iff, bare, word, sign, Prod.mk.injEq,
        cons_append, nil_append] at h
      obtain ⟨t, _, rfl, ⟨ht, rfl⟩, o, _, rfl, ⟨ho, hopen⟩, u, _, rfl, ⟨hu, rfl⟩, v, _, rfl, ⟨hv, hplus⟩, w, _, rfl,
        ⟨hw, rfl⟩, c, _, rfl, ⟨hc, hclose⟩, rfl⟩ := h
      refine ⟨⟨[], [t, o, u, v, w, c], [], [("name", ⟨0, [t]⟩), ("base", ⟨2, [u]⟩), ("offset", ⟨4, [w]⟩)]⟩, ?_, ?_⟩
      · simp [Pattern.matchAll?, Pattern.matchAt?, Pattern.matchElements, Pattern.Class.accepts,
          Pattern.bind, lookup_cons, ht, ho, hopen, hu, hplus, hw, hclose]
      · simp [Match.text, Match.capture?, Capture.text, Code.span, Code.spell, lookup_cons]

lemma ofDefinition?_eq {body : String} {d : Definition} (h : Code.shapes body = d.shapes) (base : String) :
    ofDefinition? base body = d.entry? base := by
  obtain ⟨m, hm, hname, hbase, hoffset⟩ := exists_match d h
  simp only [ofDefinition?, hm, Option.bind_eq_bind, Option.bind_some, hbase, hname, Definition.entry?]
  by_cases hd : d.base = base
  · cases hn : d.numeral? with
    | none =>
      have hnone : m.capture? "offset" = none := by simpa [hn] using hoffset
      simp [hd, hnone, Definition.offset, hn]
    | some n =>
      obtain ⟨c, hc, rfl⟩ : ∃ c, m.capture? "offset" = some c ∧ c.text = n := by simpa [hn] using hoffset
      obtain ⟨hne, hdigits⟩ := d.decimal _ hn
      simp only [hd, hc, offset?_eq hne hdigits, Definition.offset, hn, apply_ite (Option.map _), Option.map_some,
        Option.map_none, Option.elim_some, true_and, ne_eq, not_true_eq_false, if_false]
  · simp [hd]

/-- The line defines this name, with any spaces around the number sign and whatever comments behind the word `define`. -/
def DefinedIn (line : String) (d : Definition) : Prop :=
  ∃ indent blanks body trail : List Char,
    line.toList = indent ++ ('#' :: (blanks ++ "define".toList ++ body) ++ trail) ∧
    (∀ c ∈ indent ++ blanks ++ trail, isSpace c = true) ∧ (∀ c ∈ body.getLast?, isSpace c = false) ∧
    Code.shapes (String.ofList body) = d.shapes

def Undefined (line : String) : Prop :=
  ∀ blanks rest : List Char, (∀ c ∈ blanks, isSpace c = true) →
    (trim line).toList ≠ '#' :: (blanks ++ "define".toList ++ rest)

/-- The line says this, or nothing. -/
def Says (line : String) : Option Definition → Prop
  | none => Undefined line
  | some d => DefinedIn line d

lemma after?_eq_some_iff {start s rest : String} : after? start s = some rest ↔ s.toList = start.toList ++ rest.toList := by
  have hlength : start.length = start.toList.length := String.length_toList.symm
  simp only [after?, isPrefixOf_iff_prefix, prefix_iff_eq_append, ite_none_right_eq_some, some.injEq, hlength]
  constructor
  · rintro ⟨h, rfl⟩
    rw [String.toList_ofList, h]
  · intro h
    simp [h]

lemma definition?_of_undefined (h : Undefined line) : definition? line = none := by
  rw [definition?, bind_eq_bind, bind_eq_none_iff]
  intro rest hrest
  rw [eq_none_iff_forall_ne_some]
  intro body hbody
  have hline := after?_eq_some_iff.1 hrest
  have hdefine := after?_eq_some_iff.1 hbody
  refine h (rest.toList.takeWhile isSpace) body.toList (fun c => mem_takeWhile_imp) ?_
  rw [hline, append_assoc, ← hdefine, trimStart, String.toList_ofList, String.toList_ofList, takeWhile_append_dropWhile]
  rfl

lemma definition?_of_definedIn {d : Definition} (h : DefinedIn line d) :
    ∃ body, definition? line = some body ∧ Code.shapes body = d.shapes := by
  obtain ⟨indent, blanks, body, trail, hline, hspaces, hlast, hshapes⟩ := h
  simp only [forall_mem_append] at hspaces
  obtain ⟨⟨hindent, hblanks⟩, htrail⟩ := hspaces
  refine ⟨String.ofList body, ?_, hshapes⟩
  have htrim : trim line = String.ofList ('#' :: (blanks ++ "define".toList ++ body)) := by
    rw [← String.ofList_toList (s := line), hline]
    refine trim_padded hindent htrail (by simp; decide) ?_ (cons_ne_nil _ _)
    show ∀ c ∈ ('#' :: blanks ++ "define".toList ++ body).getLast?, _
    rw [getLast?_append]
    cases hbody : body.getLast? with
    | none =>
      rw [getLast?_append]
      rintro c hc
      obtain rfl : 'e' = c := some.inj hc
      decide
    | some c => simpa [hbody] using hlast
  have hstart : trimStart (String.ofList (blanks ++ "define".toList ++ body)) = String.ofList ("define".toList ++ body) := by
    rw [trimStart, String.toList_ofList, append_assoc, dropWhile_append_of_pos hblanks]
    rfl
  have hhash : after? "#" (trim line) = some (String.ofList (blanks ++ "define".toList ++ body)) := by
    simp [after?_eq_some_iff, htrim]
  rw [definition?, hhash, bind_eq_bind, bind_some, hstart, after?_eq_some_iff]
  simp only [String.toList_ofList]

lemma entry?_of_says {d? : Option Definition} (h : Says line d?) (base : String) :
    (definition? line).bind (ofDefinition? base) = d?.bind (Definition.entry? base) := by
  cases d? with
  | none => rw [definition?_of_undefined h, bind_none, bind_none]
  | some d =>
    obtain ⟨body, hbody, hshapes⟩ := definition?_of_definedIn h
    rw [hbody, bind_some, bind_some, ofDefinition?_eq hshapes]

/-! ## Headers -/

/-- What the lines say about states behind `base`, in their order. -/
def entries (base : String) (said : List (Option Definition)) : List (String × Nat) :=
  said.filterMap (·.bind (Definition.entry? base))

def putAll (es : List (String × Nat)) (t : Table Nat) : Table Nat :=
  es.foldl (fun t e => t.put e.1 e.2) t

lemma ofText_eq {said : List (Option Definition)} (h : Forall₂ Says (lines text) said) (base : String) :
    ofText text base = putAll (entries base said) [] := by
  unfold ofText
  generalize ([] : Table Nat) = constants
  generalize lines text = lines at h
  induction h generalizing constants with
  | nil => rfl
  | cons h _ ih =>
    rw [foldl_cons, entry?_of_says h, ih, entries, entries, filterMap_cons]
    cases Option.bind _ _ <;> rfl

lemma keys_putAll (es : List (String × Nat)) (t : Table Nat) :
    (putAll es t).keys = Names.addAll t.keys (es.map (·.1)) := by
  induction es generalizing t with
  | nil => rfl
  | cons e es ih =>
    rw [putAll, foldl_cons, ← putAll, ih, Table.keys_put]
    rfl

lemma get?_putAll (es : List (String × Nat)) (t : Table Nat) (name : String) :
    (putAll es t).get? name = (es.reverse.lookup name).or (t.get? name) := by
  induction es generalizing t with
  | nil => rfl
  | cons e es ih =>
    rw [putAll, foldl_cons, ← putAll, ih, reverse_cons, lookup_append, Option.or_assoc, Table.get?_put]
    by_cases hname : name = e.1
    · rw [if_pos hname, hname, lookup_cons_self]
      rfl
    · rw [if_neg hname, lookup_cons, beq_eq_false_iff_ne.2 hname]
      rfl

/-- A header whose lines each give a name or none gives back the names, where they first stand, with what is said last. -/
theorem ofText_definitions {said : List (Option Definition)} (h : Forall₂ Says (lines text) said) (base : String) :
    (ofText text base).keys = ((entries base said).map (·.1)).eraseDups ∧
      ∀ name, (ofText text base).get? name = (entries base said).reverse.lookup name := by
  rw [ofText_eq h base]
  constructor
  · rw [keys_putAll]
    exact Names.addAll_nil_eq_eraseDups _
  · intro name
    rw [get?_putAll]
    exact or_none

def header : String :=
  "double q;\n# define Q D // first\n#define I (D+1)\n#define P B + 9\n #define Q D+2\n#define R D + 18446744073709551616"

def headerSays : List (Option Definition) :=
  [none, some ⟨"Q", "D", none, by decide, false⟩, some ⟨"I", "D", some "1", by decide, true⟩,
    some ⟨"P", "B", some "9", by decide, false⟩, some ⟨"Q", "D", some "2", by decide, false⟩,
    some ⟨"R", "D", some "18446744073709551616", by decide, false⟩]

lemma says_header : Forall₂ Says (lines header) headerSays := by
  have hlines : lines header = ["double q;", "# define Q D // first", "#define I (D+1)", "#define P B + 9", " #define Q D+2",
    "#define R D + 18446744073709551616"] := by decide +kernel
  have hfirst : Undefined "double q;" := by
    intro blanks rest _ h
    have hhead : (trim "double q;").toList.head? ≠ some '#' := by decide
    exact hhead (by rw [h, head?_cons])
  rw [hlines]
  refine .cons hfirst (.cons ⟨[], [' '], " Q D // first".toList, [], ?_⟩ (.cons ⟨[], [], " I (D+1)".toList, [], ?_⟩
    (.cons ⟨[], [], " P B + 9".toList, [], ?_⟩ (.cons ⟨[' '], [], " Q D+2".toList, [], ?_⟩
      (.cons ⟨[], [], " R D + 18446744073709551616".toList, [], ?_⟩ .nil)))))
  all_goals exact ⟨by decide, all_eq_true.1 (by decide), by rintro c ⟨⟩; decide, by decide +kernel⟩

theorem ofText_definitions_header : (ofText header "D").keys = ["Q", "I"] ∧ (ofText header "D").get? "Q" = some 2 := by
  have h := ofText_definitions says_header "D"
  have hentries : entries "D" headerSays = [("Q", 0), ("I", 1), ("Q", 2)] := by decide +kernel
  rw [hentries] at h
  exact ⟨h.1, h.2 "Q"⟩

end DeviceForge.StateConstant
