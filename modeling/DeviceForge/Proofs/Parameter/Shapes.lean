import DeviceForge.Proofs.Iteration.Fields
/-!
# Accessors that store or read one field

A body has a default shape if its tokens are those of one statement, or of two, before a terminator.
-/

namespace DeviceForge

open List Code

namespace Pattern

variable {es fs : List Element} {ts : List Token} {σ τ : String → String} {name rest : String} {p : Pattern} {m : Match}

def Element.text (σ : String → String) : Element → String
  | .literal text => text
  | .single _ name | .run name => σ name

def Element.isWord : Element → Bool
  | .literal _ | .single .identifier _ => true
  | _ => false

structure IsForm (es : List Element) : Prop where
  words : es.all (·.isWord) = true
  nodup : (names es).Nodup

structure Spells (es : List Element) (σ : String → String) (ts : List Token) : Prop where
  texts : ts.map (·.text) = es.map (·.text σ)
  words : ∀ name ∈ names es, Token.isIdentifierText (σ name) = true

lemma IsForm.isFixed (h : IsForm es) : IsFixed es := by
  refine ⟨all_eq_true.2 fun e he => ?_, h.nodup⟩
  have hword := all_eq_true.1 h.words e he
  cases e <;> simp_all [Element.isWord, Element.isRun]

lemma names_append (es fs : List Element) : names (es ++ fs) = names es ++ names fs := by
  induction es with
  | nil => rfl
  | cons e es ih => cases e <;> simp [names, ih]

lemma names_literals (texts : List String) : names (texts.map .literal) = [] := by
  induction texts with
  | nil => rfl
  | cons text texts ih => exact ih

lemma IsForm.append_literals (h : IsForm es) (texts : List String) : IsForm (es ++ texts.map .literal) := by
  refine ⟨?_, by rw [names_append, names_literals, append_nil]; exact h.nodup⟩
  rw [all_append, h.words, Bool.true_and, all_map]
  simp [Function.comp_def, Element.isWord]

lemma IsForm.exists_mem (h : IsForm es) (hname : name ∈ names es) : Element.single .identifier name ∈ es := by
  have hwords := h.words
  clear h
  induction es with
  | nil => cases hname
  | cons e es ih =>
    obtain ⟨he, hes⟩ := Bool.and_eq_true_iff.1 (all_cons ▸ hwords)
    rcases e with text | ⟨_ | _ | _, other⟩ | other
    · exact mem_cons_of_mem _ (ih hname hes)
    · rcases mem_cons.1 hname with rfl | hname
      · exact mem_cons_self
      · exact mem_cons_of_mem _ (ih hname hes)
    all_goals cases he

lemma spells_append_literals {texts : List String} : Spells (es ++ texts.map .literal) σ ts ↔
      ts.map (·.text) = es.map (·.text σ) ++ texts ∧ ∀ name ∈ names es, Token.isIdentifierText (σ name) := by
  have htexts : (es ++ texts.map Element.literal).map (·.text σ) = es.map (·.text σ) ++ texts := by
    simp [Function.comp_def, Element.text]
  have hnames : names (es ++ texts.map .literal) = names es := by rw [names_append, names_literals, append_nil]
  exact ⟨fun h => ⟨htexts ▸ h.texts, hnames ▸ h.words⟩, fun h => ⟨htexts ▸ h.1, hnames ▸ h.2⟩⟩

lemma Spells.agree (h : Spells (es ++ fs) σ ts) {fs' : List Element} (h' : Spells (es ++ fs') τ ts) (hes : IsForm es)
    (hname : name ∈ names es) : σ name = τ name := by
  have htexts := h.texts.symm.trans h'.texts
  rw [map_append, map_append] at htexts
  have hsame := (append_inj htexts (by simp)).1
  exact map_inj_left.1 hsame _ (hes.exists_mem hname)

lemma fits_of_spells (h : Spells es σ ts) (hes : IsForm es) (hopens : Opens ts rest) : fits es ts := by
  obtain ⟨htexts, hnames⟩ := h
  have hwords := hes.words
  clear hes
  induction es generalizing ts with
  | nil => simp [fits, agrees]
  | cons e es ih =>
    cases ts with
    | nil => cases htexts
    | cons t ts =>
      obtain ⟨he, hes⟩ := Bool.and_eq_true_iff.1 (all_cons ▸ hwords)
      obtain ⟨htext, hmore⟩ := cons.inj htexts
      rw [fits_cons]
      rcases e with text | ⟨_ | _ | _, name⟩ | name
      · exact ⟨decide_eq_true htext, ih hopens.2.2.2 hmore hnames hes⟩
      · obtain ⟨hname, hnames⟩ := forall_mem_cons.1 hnames
        refine ⟨?_, ih hopens.2.2.2 hmore hnames hes⟩
        exact Token.isIdentifier_of_reads hopens.2.2.1 ((congrArg Token.isIdentifierText htext).trans hname)
      all_goals cases he

lemma isSome_matchAll? (hp : IsForm p.elements) (hne : p.elements ≠ []) (hopens : Opens ts rest) (h : Spells p.elements σ ts) :
    (p.matchAll? ts).isSome := by
  obtain ⟨m, hm, hlen, -⟩ := matchAt?_fits hp.isFixed hne (fits_of_spells h hp hopens) []
  have hlength := congrArg length h.texts
  have htokens := congrArg length (of_matchAt? hm).2.1
  simp only [length_map, length_append] at hlength htokens
  have hafter : m.after = [] := length_eq_zero_iff.1 (by omega)
  simp [matchAll?, hm, hafter]

lemma spells_of_matchAll? (hp : IsForm p.elements) (hopens : Opens ts rest) (h : p.matchAll? ts = some m) :
    Spells p.elements m.text ts := by
  obtain ⟨hm, hafter⟩ := Option.filter_eq_some_iff.1 h
  have hne : p.elements ≠ [] := by
    intro hnil
    simp [matchAt?_eq_none hnil] at hm
  have hfits : fits p.elements ts := by
    by_contra hnot
    simp [matchAt?_not_fits hp.isFixed (by simpa using hnot)] at hm
  obtain ⟨m', hm', hlen, htext⟩ := matchAt?_fits hp.isFixed hne hfits []
  obtain rfl : m = m' := Option.some.inj (hm.symm.trans hm')
  have htokens := congrArg length (of_matchAt? hm).2.1
  rw [isEmpty_iff.1 hafter, append_nil, hlen] at htokens
  refine ⟨ext_getElem? fun i => ?_, fun name hname => ?_⟩
  · rw [getElem?_map, getElem?_map]
    cases he : p.elements[i]? with
    | none =>
      rw [getElem?_eq_none_iff] at he
      rw [getElem?_eq_none (by omega)]
      rfl
    | some e =>
      obtain ⟨t, ht, htakes⟩ := takes_of_fits hfits he
      rw [ht]
      cases e with
      | literal text => exact congrArg some (of_decide_eq_true htakes)
      | single cls name => exact congrArg some (htext i cls name t he ht).symm
      | run name => cases htakes
  · obtain ⟨i, hi⟩ := getElem?_of_mem (hp.exists_mem hname)
    obtain ⟨t, ht, htakes⟩ := takes_of_fits hfits hi
    rw [htext i _ name t hi ht]
    exact hopens.isIdentifierText (mem_of_getElem? ht) htakes

lemma elements_space (a b : String) : (ofString (a ++ " " ++ b)).elements = (ofString a).elements ++ (ofString b).elements := by
  simp [ofString, Text.words_space]

end Pattern

namespace Parameter.Accessor

open Pattern

variable {es : List Element} {σ : String → String} {pattern body here value field given : String} {m : Match} {a : Accessor}

/-! ## Whole bodies -/

def endings : List (List String) :=
  [["return", "(", "OK", ")", ";"], ["break", ";"]]

/-- The texts of the tokens of a body. -/
def texts (body : String) : List String :=
  (Code.ofString body).tokens.map (·.text)

lemma elements_terminators :
    terminators.map (fun s => (Pattern.ofString s).elements) = endings.map (·.map .literal) := by
  decide +kernel

structure Has (es : List Element) (σ : String → String) (body : String) : Prop where
  words : ∀ name ∈ names es, Token.isIdentifierText (σ name) = true
  scalar : σ "tag" ∈ scalarMembers
  texts : ∃ ending ∈ endings, texts body = es.map (·.text σ) ++ ending

section
variable (hpattern : (Pattern.ofString pattern).elements = es) (hes : IsForm es)

include hpattern

lemma elements_terminated {terminator : String} {ending : List String}
    (h : (Pattern.ofString terminator).elements = ending.map .literal) :
    (Pattern.ofString s!"{pattern} {terminator}").elements = es ++ ending.map .literal := by
  rw [show s!"{pattern} {terminator}" = pattern ++ " " ++ terminator by simp [toString], elements_space, hpattern, h]

include hes

lemma has_of_exactly? (h : exactly? pattern body = some m) : Has es m.text body := by
  obtain ⟨terminator, hterminator, hm⟩ := exists_of_findSome?_eq_some h
  obtain ⟨hm, htag⟩ := Option.filter_eq_some_iff.1 hm
  have hmem := mem_map_of_mem (f := fun s => (Pattern.ofString s).elements) hterminator
  rw [elements_terminators] at hmem
  obtain ⟨ending, hending, heq⟩ := mem_map.1 hmem
  have helements := elements_terminated hpattern heq.symm
  have hspells := spells_of_matchAll? (p := Pattern.ofString s!"{pattern} {terminator}")
    (by rw [helements]; exact hes.append_literals ending) (opens_ofString body) hm
  rw [helements] at hspells
  obtain ⟨htexts, hwords⟩ := spells_append_literals.1 hspells
  exact ⟨hwords, by simpa using htag, ending, hending, htexts⟩

lemma exists_exactly? (htag : "tag" ∈ names es) (h : Has es σ body) :
    ∃ m, exactly? pattern body = some m ∧ ∀ name ∈ names es, m.text name = σ name := by
  obtain ⟨hwords, hscalar, ending, hending, htexts⟩ := h
  have hspells := spells_append_literals.2 ⟨htexts, hwords⟩
  have hmem := mem_map_of_mem (f := fun texts => texts.map Element.literal) hending
  rw [← elements_terminators] at hmem
  obtain ⟨terminator, hterminator, heq⟩ := mem_map.1 hmem
  have helements := elements_terminated hpattern heq
  have hform : IsForm (Pattern.ofString s!"{pattern} {terminator}").elements := by
    rw [helements]
    exact hes.append_literals ending
  have hne : (Pattern.ofString s!"{pattern} {terminator}").elements ≠ [] := by
    intro hnil
    rw [helements, append_eq_nil_iff] at hnil
    rw [hnil.1] at htag
    cases htag
  have hsome := isSome_matchAll? hform hne (opens_ofString body) (by rwa [helements])
  obtain ⟨m, hm⟩ := Option.isSome_iff_exists.1 hsome
  have hown := spells_of_matchAll? hform (opens_ofString body) hm
  rw [helements] at hown
  -- another terminator may be found first, but then the names stand for the same texts
  have hfound : (exactly? pattern body).isSome = true := by
    rw [exactly?, findSome?_isSome_iff]
    refine ⟨terminator, hterminator, ?_⟩
    simp [hm, Option.filter, hown.agree hspells hes htag, hscalar]
  obtain ⟨m, hm⟩ := Option.isSome_iff_exists.1 hfound
  obtain ⟨hwords', -, ending', -, htexts'⟩ := has_of_exactly? hpattern hes hm
  exact ⟨m, hm, fun name hname => (spells_append_literals.2 ⟨htexts', hwords'⟩).agree hspells hes hname⟩

end

/-! ## Default shapes -/

def storeForm (here value : String) : List Element :=
  [.literal here, .literal "->", .single .identifier "field", .literal "=", .literal value, .literal "->",
    .single .identifier "tag", .literal ";"]

def flagForm (here : String) : List Element :=
  [.literal here, .literal "->", .single .identifier "given", .literal "=", .literal "TRUE", .literal ";"]

def readForm (here value : String) : List Element :=
  [.literal value, .literal "->", .single .identifier "tag", .literal "=", .literal here, .literal "->",
    .single .identifier "field", .literal ";"]

lemma elements_store (hhere : Token.isIdentifierText here) (hvalue : Token.isIdentifierText value) :
    (Pattern.ofString s!"{here} -> $field = {value} -> $tag ;").elements = storeForm here value := by
  rw [elements_words [here, "->", "$field", "=", value, "->", "$tag", ";"] (String.toList_injective (by simp [toString]))
    (by simp [words_identifier hhere, words_identifier hvalue]; decide +kernel)]
  simp only [map_cons, ofWord_identifier hhere, ofWord_identifier hvalue]
  rfl

lemma elements_flag (hhere : Token.isIdentifierText here) :
    (Pattern.ofString (here ++ " " ++ "-> $given = TRUE ;")).elements = flagForm here := by
  rw [elements_words [here, "->", "$given", "=", "TRUE", ";"] (String.toList_injective (by simp))
    (by simp [words_identifier hhere]; decide +kernel)]
  simp only [map_cons, ofWord_identifier hhere]
  rfl

lemma elements_paired (hhere : Token.isIdentifierText here) (hvalue : Token.isIdentifierText value) :
    (Pattern.ofString s!"{here} -> $field = {value} -> $tag ; {here} -> $given = TRUE ;").elements =
      storeForm here value ++ flagForm here := by
  have htext : s!"{here} -> $field = {value} -> $tag ; {here} -> $given = TRUE ;" =
      s!"{here} -> $field = {value} -> $tag ;" ++ " " ++ (here ++ " " ++ "-> $given = TRUE ;") :=
    String.toList_injective (by simp [toString])
  rw [htext, elements_space, elements_store hhere hvalue, elements_flag hhere]

lemma elements_read (hhere : Token.isIdentifierText here) (hvalue : Token.isIdentifierText value) :
    (Pattern.ofString s!"{value} -> $tag = {here} -> $field ;").elements = readForm here value := by
  rw [elements_words [value, "->", "$tag", "=", here, "->", "$field", ";"] (String.toList_injective (by simp [toString]))
    (by simp [words_identifier hhere, words_identifier hvalue]; decide +kernel)]
  simp only [map_cons, ofWord_identifier hhere, ofWord_identifier hvalue]
  rfl

lemma isForm_store (here value : String) : IsForm (storeForm here value) :=
  ⟨rfl, show ["field", "tag"].Nodup by decide⟩

lemma isForm_paired (here value : String) : IsForm (storeForm here value ++ flagForm here) :=
  ⟨rfl, show ["field", "tag", "given"].Nodup by decide⟩

lemma isForm_read (here value : String) : IsForm (readForm here value) :=
  ⟨rfl, show ["tag", "field"].Nodup by decide⟩

/-- A body stores a scalar in the field and raises the flag. -/
def IsPaired (here value field given : String) (words : List String) : Prop :=
  ∃ tag ∈ scalarMembers, ∃ ending ∈ endings,
    words = [here, "->", field, "=", value, "->", tag, ";", here, "->", given, "=", "TRUE", ";"] ++ ending

/-- A body stores a scalar in the field. -/
def IsStore (here value field : String) (words : List String) : Prop :=
  ∃ tag ∈ scalarMembers, ∃ ending ∈ endings, words = [here, "->", field, "=", value, "->", tag, ";"] ++ ending

/-- A body reads the field as a scalar. -/
def IsRead (here value field : String) (words : List String) : Prop :=
  ∃ tag ∈ scalarMembers, ∃ ending ∈ endings, words = [value, "->", tag, "=", here, "->", field, ";"] ++ ending

lemma isIdentifierText_scalar : ∀ tag ∈ scalarMembers, Token.isIdentifierText tag := by
  decide

section
variable (hhere : Token.isIdentifierText a.here) (hvalue : Token.isIdentifierText a.value) {known : Table String}

include hhere hvalue

lemma withGiven_iff : a.setterShape body known = .withGiven field given ↔
      Token.isIdentifierText field ∧ Token.isIdentifierText given ∧ isGivenFlag given ∧
        IsPaired a.here a.value field given (texts body) := by
  have helements := elements_paired hhere hvalue
  have hform := isForm_paired a.here a.value
  have hnames : names (storeForm a.here a.value ++ flagForm a.here) = ["field", "tag", "given"] := rfl
  constructor
  · intro h
    rw [setterShape] at h
    split at h
    · rename_i m hm
      obtain ⟨hm, hgiven⟩ := Option.filter_eq_some_iff.1 hm
      obtain ⟨rfl, rfl⟩ := SetterShape.withGiven.inj h
      obtain ⟨hwords, htag, ending, hending, htexts⟩ := has_of_exactly? helements hform hm
      rw [hnames] at hwords
      exact ⟨hwords _ (by simp), hwords _ (by simp), hgiven, _, htag, ending, hending, htexts⟩
    · split at h
      · cases h
      · split at h <;> cases h
  · rintro ⟨hfield, hgiven, hflag, tag, htag, ending, hending, hwords⟩
    have htagword := isIdentifierText_scalar tag htag
    obtain ⟨m, hm, htext⟩ := exists_exactly? helements hform (by simp [hnames])
      (σ := fun name => if name = "field" then field else if name = "tag" then tag else given)
      ⟨by simp [hnames, hfield, htagword, hgiven], htag, ending, hending, hwords⟩
    rw [hnames] at htext
    have hf := htext "field" (by simp)
    have hg := htext "given" (by simp)
    simp [setterShape, hm, hf, hg, hflag, Option.filter]

lemma setterPlain_iff :
    a.setterShape body known = .plain field ↔ Token.isIdentifierText field ∧ IsStore a.here a.value field (texts body) := by
  have helements := elements_store hhere hvalue
  have hform := isForm_store a.here a.value
  have hnames : names (storeForm a.here a.value) = ["field", "tag"] := rfl
  constructor
  · intro h
    rw [setterShape] at h
    split at h
    · cases h
    split at h
    · rename_i m hm
      obtain rfl := SetterShape.plain.inj h
      obtain ⟨hwords, htag, ending, hending, htexts⟩ := has_of_exactly? helements hform hm
      rw [hnames] at hwords
      exact ⟨hwords _ (by simp), _, htag, ending, hending, htexts⟩
    · split at h <;> cases h
  · rintro ⟨hfield, tag, htag, ending, hending, hwords⟩
    have htagword := isIdentifierText_scalar tag htag
    obtain ⟨m, hm, htext⟩ := exists_exactly? helements hform (by simp [hnames])
      (σ := fun name => if name = "field" then field else tag)
      ⟨by simp [hnames, hfield, htagword], htag, ending, hending, hwords⟩
    have hf := htext "field" (by simp [hnames])
    -- a body with a flag has more tokens
    have hpaired : exactly? s!"{a.here} -> $field = {a.value} -> $tag ; {a.here} -> $given = TRUE ;" body = none := by
      rw [Option.eq_none_iff_forall_ne_some]
      intro m' hm'
      obtain ⟨-, -, ending', hending', htexts⟩ := has_of_exactly? (elements_paired hhere hvalue) (isForm_paired _ _) hm'
      have hlength := congrArg length (hwords.symm.trans htexts)
      simp only [endings, mem_cons, not_mem_nil, or_false] at hending hending'
      rcases hending with rfl | rfl <;> rcases hending' with rfl | rfl <;> simp [storeForm, flagForm] at hlength
    simp [setterShape, hpaired, hm, hf]

lemma getterPlain_iff :
    a.getterShape body = .plain field ↔ Token.isIdentifierText field ∧ IsRead a.here a.value field (texts body) := by
  have helements := elements_read hhere hvalue
  have hform := isForm_read a.here a.value
  have hnames : names (readForm a.here a.value) = ["tag", "field"] := rfl
  constructor
  · intro h
    rw [getterShape] at h
    split at h
    · rename_i m hm
      obtain rfl := GetterShape.plain.inj h
      obtain ⟨hwords, htag, ending, hending, htexts⟩ := has_of_exactly? helements hform hm
      rw [hnames] at hwords
      exact ⟨hwords _ (by simp), _, htag, ending, hending, htexts⟩
    · dsimp only at h
      split at h <;> cases h
  · rintro ⟨hfield, tag, htag, ending, hending, hwords⟩
    have htagword := isIdentifierText_scalar tag htag
    obtain ⟨m, hm, htext⟩ := exists_exactly? helements hform (by simp [hnames])
      (σ := fun name => if name = "field" then field else tag)
      ⟨by simp [hnames, hfield, htagword], htag, ending, hending, hwords⟩
    have hf := htext "field" (by simp [hnames])
    simp [getterShape, hm, hf]

end

/-! ## What is collected -/

def storeStart (here : String) : List Element :=
  [.literal here, .literal "->", .single .identifier "var", .literal "="]

lemma elements_single (hhere : Token.isIdentifierText here) :
    (Pattern.ofString s!"{here} -> $var = ...value ;").elements = storeStart here ++ [.run "value", .literal ";"] := by
  rw [elements_words [here, "->", "$var", "=", "...value", ";"] (String.toList_injective (by simp [toString]))
    (by simp [words_identifier hhere]; decide +kernel)]
  simp only [map_cons, ofWord_identifier hhere]
  rfl

lemma elements_pair (hhere : Token.isIdentifierText here) :
    (Pattern.ofString s!"{here} -> $var = ...value ; {here} -> $given = TRUE ;").elements =
      storeStart here ++ .run "value" :: .literal ";" :: flagForm here := by
  have htext : s!"{here} -> $var = ...value ; {here} -> $given = TRUE ;" =
      s!"{here} -> $var = ...value ;" ++ " " ++ (here ++ " " ++ "-> $given = TRUE ;") :=
    String.toList_injective (by simp [toString])
  rw [htext, elements_space, elements_single hhere, elements_flag hhere]
  rfl

section
variable {p : Pattern} {ts : List Token} (hp : p.elements = storeStart here ++ es) (h : ∀ t ∈ ts.drop 3, t.text ≠ "=")

include hp h

lemma matchAt?_quiet (before : List Token) : p.matchAt? before ts = none := by
  have hfits : fits (storeStart here) ts = false := by
    refine Bool.eq_false_iff.2 fun hfits => ?_
    obtain ⟨t, ht, htakes⟩ := takes_of_fits hfits (i := 3) rfl
    exact h t (mem_of_getElem? (i := 0) (by rw [getElem?_drop]; exact ht)) (of_decide_eq_true htakes)
  rw [matchAt?, hp, matchElements_not_fits rfl hfits]
  simp

lemma findAllFrom_quiet (before : List Token) : p.findAllFrom 0 before ts = [] := by
  induction ts generalizing before with
  | nil => rfl
  | cons t ts ih =>
    rw [findAllFrom, matchAt?_quiet hp h]
    exact ih (fun u hu => h u (mem_of_mem_drop (i := 1) (by rwa [drop_drop]))) _

lemma replacePieces_quiet {σ : Type} (rule : σ → Match → σ × Option String) (state : σ) (before : List Token) :
    (p.replacePieces rule state 0 before ts).1 = state ∧ String.join (p.replacePieces rule state 0 before ts).2 = spell ts := by
  induction ts generalizing before with
  | nil => exact ⟨rfl, rfl⟩
  | cons t ts ih =>
    obtain ⟨hstate, hpieces⟩ := ih (fun u hu => h u (mem_of_mem_drop (i := 1) (by rwa [drop_drop]))) (t :: before)
    rw [replacePieces, matchAt?_quiet hp h]
    refine ⟨hstate, ?_⟩
    rw [spell_cons, ← hpieces]
    simp

end

lemma plain_of_identifier {t : Token} (h : Token.isIdentifierText t.text) :
    t.isOpening = false ∧ t.isClosing = false ∧ t.text ≠ ";" ∧ t.text ≠ "=" := by
  have hne (w : String) (hw : Token.isIdentifierText w = false) : t.text ≠ w := by
    rintro rfl
    simp [h] at hw
  simp [Token.isOpening, Token.isClosing, hne "(" rfl, hne "[" rfl, hne "\x7b" rfl, hne ")" rfl, hne "]" rfl, hne "\x7d" rfl,
    hne ";" rfl, hne "=" rfl]

structure IsStored (here : String) (h a f e v b g s : Token) : Prop where
  here_eq : h.text = here
  arrow : a.text = "->"
  field : f.isIdentifier = true
  assigns : e.text = "="
  value : Token.isIdentifierText v.text = true
  reaches : b.text = "->"
  tag : Token.isIdentifierText g.text = true
  ends : s.text = ";"

lemma matchElements_store {h a f e v b g s : Token} (hstored : IsStored here h a f e v b g s) (es : List Element) (rest : List Token) :
    matchElements (storeStart here ++ .run "value" :: .literal ";" :: es) 0 (h :: a :: f :: e :: v :: b :: g :: s :: rest) [] =
      matchElements es 8 rest [("var", ⟨2, [f]⟩), ("value", ⟨4, [v, b, g]⟩)] := by
  obtain ⟨hh, ha, hf, he, hv, hb, hg, hs⟩ := hstored
  have hkind : f.kind = .identifier := by simpa [Token.isIdentifier] using hf
  have hrun : runLength (some ";") 0 false (v :: b :: g :: s :: rest) = some 3 := by
    obtain ⟨hvo, hvc, hvs, -⟩ := plain_of_identifier hv
    obtain ⟨hgo, hgc, hgs, -⟩ := plain_of_identifier hg
    have hbo : b.isOpening = false ∧ b.isClosing = false := by simp [Token.isOpening, Token.isClosing, hb]
    simp [runLength, hvo, hvc, hvs, hbo, hb, hgo, hgc, hgs, hgs.symm, hs]
  have hnew (c : Capture) : lookup "value" [("var", c)] = none := rfl
  simp [storeStart, matchElements, hh, ha, hkind, he, Class.accepts, Pattern.bind, stopOf, hrun, hs, hnew]

lemma exists_stored {ts : List Token} {tag : String} {more : List String} {tail : String} (hopens : Opens ts tail)
    (hfield : Token.isIdentifierText field) (hvalue : Token.isIdentifierText value) (htag : Token.isIdentifierText tag)
    (hts : ts.map (·.text) = here :: "->" :: field :: "=" :: value :: "->" :: tag :: ";" :: more) :
    ∃ h a f e v b g s rest, ts = h :: a :: f :: e :: v :: b :: g :: s :: rest ∧ IsStored here h a f e v b g s ∧ f.text = field ∧
      v.text = value ∧ g.text = tag ∧ rest.map (·.text) = more := by
  simp only [map_eq_cons_iff] at hts
  obtain ⟨h, _, rfl, hh, a, _, rfl, ha, f, _, rfl, hf, e, _, rfl, he, v, _, rfl, hv, b, _, rfl, hb, g, _, rfl, hg, s, rest, rfl, hs, hrest⟩ :=
    hts
  refine ⟨h, a, f, e, v, b, g, s, rest, rfl, ?_, hf, hv, hg, hrest⟩
  exact ⟨hh, ha, hopens.isIdentifier (by simp) hfield hf, he, by rw [hv]; exact hvalue, hb, by rw [hg]; exact htag, hs⟩

lemma ending_quiet {ending : List String} (hending : ending ∈ endings) {rest : List Token} (h : rest.map (·.text) = ending) :
    ∀ t ∈ rest, t.text ≠ "=" := by
  have hnot : ∀ ending ∈ endings, "=" ∉ ending := by decide
  intro t ht heq
  exact hnot ending hending (h ▸ heq ▸ mem_map_of_mem ht)

lemma matchElements_flag {rest : List Token} (h : ∀ t ∈ rest, t.text ≠ "=") (n : Nat) (captures : List (String × Capture)) :
    matchElements (flagForm here) n rest captures = none := by
  refine (append_nil (flagForm here)).symm ▸ matchElements_not_fits rfl ?_ [] n captures
  refine Bool.eq_false_iff.2 fun hfits => ?_
  obtain ⟨t, ht, htakes⟩ := takes_of_fits hfits (i := 3) rfl
  exact h t (mem_of_getElem? ht) (of_decide_eq_true htakes)

lemma written_quiet {lead tail more : String} {ts rest : List Token} (hlead : Trivia lead) (hfield : Token.isIdentifierText field)
    (hts : Opens ts more) (hcode : ∀ t ∈ ts, t.kind.segment = .code) (hrest : Opens rest tail) (htail : (Code.ofString tail).tokens = [])
    (hquiet : ∀ t ∈ ts ++ rest, t.text ≠ "=") :
    ∀ t ∈ (Code.ofString (lead ++ (s!"{field}.Set({Code.span ts});" ++ (spell rest ++ tail)))).tokens, t.text ≠ "=" := by
  generalize htext : lead ++ (s!"{field}.Set({Code.span ts});" ++ (spell rest ++ tail)) = written
  replace htext : written = spell (Change.dotted lead [field, "Set"]) ++ ("(" ++ (Code.span ts ++ (")" ++ (";" ++ (spell rest ++ tail))))) :=
    htext.symm.trans (String.toList_injective (by simp [toString, Change.dotted, spell_cons, spell_nil]))
  have hname : ∀ w ∈ [field, "Set"], Token.isIdentifierText w = true := by simp [hfield]; decide
  have hdotted : Opens (Change.dotted lead [field, "Set"]) ("(" ++ (Code.span ts ++ (")" ++ (";" ++ (spell rest ++ tail))))) :=
    Change.opens_dotted hlead hname (by simp; decide)
  have hclose := halts_single (w := ")") rfl (by decide) (";" ++ (spell rest ++ tail))
  have hshapes : shapes written = [(.identifier, field), (.punct, "."), (.identifier, "Set"), (.punct, "(")] ++ (ts.map Token.bare ++
        [(.punct, ")"), (.punct, ";")] ++ rest.map Token.bare) := by
    rw [htext, shapes_opens hdotted, shapes_single (w := "(") rfl (by decide), spelled_span hts hcode _ hclose,
      shapes_single (w := ")") rfl (by decide), shapes_single (w := ";") rfl (by decide), shapes_opens hrest, shapes, htail]
    simp [Change.dotted, Token.bare]
  have hne : field ≠ "=" := (plain_of_identifier (t := ⟨.identifier, "", field⟩) hfield).2.2.2
  obtain ⟨hts, hrest⟩ := forall_mem_append.1 hquiet
  have hall : ∀ x ∈ shapes written, x.2 ≠ "=" := by
    rw [hshapes, forall_mem_append, forall_mem_append, forall_mem_append, forall_mem_map, forall_mem_map]
    exact ⟨by simp [hne], ⟨hts, by simp⟩, hrest⟩
  exact fun t ht => hall t.bare (mem_map_of_mem ht)

section
variable (hhere : Token.isIdentifierText a.here) (hvalue : Token.isIdentifierText a.value) {known : Table String}

include hhere hvalue

lemma stores?_store (hfield : Token.isIdentifierText field) (hknown : known.has field = false)
    (h : IsStore a.here a.value field (texts body)) : a.stores? body known = some ⟨[field], [], body⟩ := by
  obtain ⟨tag, htag, ending, hending, hwords⟩ := h
  obtain ⟨h, arrow, f, e, v, b, g, s, rest, hts, hstored, rfl, -, -, hrest⟩ :=
    exists_stored (opens_ofString body) hfield hvalue (isIdentifierText_scalar tag htag) hwords
  have hquiet := ending_quiet hending hrest
  have helements := elements_pair hhere
  have hsingle := elements_single hhere
  rw [stores?]
  generalize Pattern.ofString s!"{a.here} -> $var = ...value ; {a.here} -> $given = TRUE ;" = pair at helements ⊢
  generalize Pattern.ofString s!"{a.here} -> $var = ...value ;" = single at hsingle ⊢
  have hbehind : ∀ t ∈ (arrow :: f :: e :: v :: b :: g :: s :: rest).drop 3, t.text ≠ "=" := by
    change ∀ t ∈ [v, b, g, s] ++ rest, _
    refine forall_mem_append.2 ⟨?_, hquiet⟩
    simp [plain_of_identifier hstored.value, plain_of_identifier hstored.tag, hstored.reaches, hstored.ends]
  have hreplace {σ : Type} (rule : σ → Match → σ × Option String) (state : σ) : pair.replaceWith rule state body = (state, body) := by
    have hnone : pair.matchAt? [] (h :: arrow :: f :: e :: v :: b :: g :: s :: rest) = none := by
      rw [matchAt?, helements, matchElements_store hstored, matchElements_flag hquiet]
      simp
    obtain ⟨hstate, hpieces⟩ := replacePieces_quiet helements hbehind rule state [h]
    have htext := toString_ofString body
    rw [Code.toString, hts, spell_cons, ← hpieces] at htext
    rw [replaceWith, hts, replacePieces, hnone]
    refine Prod.ext hstate ?_
    simpa [String.append_assoc] using htext
  have hmatch : single.matchAt? [] (h :: arrow :: f :: e :: v :: b :: g :: s :: rest) =
      some ⟨[], [h, arrow, f, e, v, b, g, s], rest, [("var", ⟨2, [f]⟩), ("value", ⟨4, [v, b, g]⟩)]⟩ := by
    rw [matchAt?, hsingle, matchElements_store hstored]
    simp [storeStart, matchElements]
  have hfound : single.findAll (Code.ofString body).tokens =
      [⟨[], [h, arrow, f, e, v, b, g, s], rest, [("var", ⟨2, [f]⟩), ("value", ⟨4, [v, b, g]⟩)]⟩] := by
    rw [findAll, hts, findAllFrom, hmatch]
    exact congrArg (_ :: ·) (findAllFrom_quiet hsingle (fun t ht => hquiet t (mem_of_mem_drop ht)) _)
  have hempty : Table.has ([] : Table String) f.text = false := rfl
  simp only [hreplace, hfound]
  simp [Match.text, Match.capture?, Capture.text, Code.span, spell_nil, Match.isMember, followsMember, hknown, hempty,
    Names.addAll, Names.add]

lemma stores?_paired (hfield : Token.isIdentifierText field) (hgiven : Token.isIdentifierText given)
    (hflag : isGivenFlag given) (h : IsPaired a.here a.value field given (texts body)) :
    ∃ written, a.stores? body known = some ⟨[field], [(given, field)], written⟩ := by
  obtain ⟨tag, htag, ending, hending, hwords⟩ := h
  have hopens := opens_ofString body
  obtain ⟨h, arrow, f, e, v, b, g, s, more, hts, hstored, rfl, -, -, hmore⟩ :=
    exists_stored hopens hfield hvalue (isIdentifierText_scalar tag htag) hwords
  simp only [append_eq, cons_append, nil_append, map_eq_cons_iff] at hmore
  obtain ⟨h', _, rfl, hh, arrow', _, rfl, ha, f', _, rfl, rfl, e', _, rfl, he, w, _, rfl, hw, s', rest, rfl, hs, hrest⟩ := hmore
  have hquiet := ending_quiet hending hrest
  rw [hts] at hopens
  have hkind : f'.kind = .identifier := by
    simpa [Token.isIdentifier] using hopens.isIdentifier (t := f') (by simp) hgiven rfl
  have helements := elements_pair hhere
  rw [stores?]
  generalize Pattern.ofString s!"{a.here} -> $var = ...value ; {a.here} -> $given = TRUE ;" = pair at helements ⊢
  have hnew (c c' : Capture) : lookup "given" [("var", c), ("value", c')] = none := rfl
  obtain ⟨m, hmatch, hwindow, hmember, hvar, hvalue, hflagText⟩ : ∃ m : Match,
      pair.matchAt? [] (h :: arrow :: f :: e :: v :: b :: g :: s :: h' :: arrow' :: f' :: e' :: w :: s' :: rest) = some m ∧ m.window.length = 14 ∧
      m.isMember = false ∧ m.text "var" = f.text ∧ m.text "value" = Code.span [v, b, g] ∧ m.text "given" = f'.text := by
    rw [matchAt?, helements, matchElements_store hstored]
    simp [storeStart, flagForm, matchElements, hh, ha, hkind, he, hw, hs, Class.accepts, Pattern.bind, hnew, Match.isMember,
      followsMember, Match.text, Match.capture?, Capture.text, lookup_cons, Code.span, spell_nil]
  have hreplace {σ : Type} (rule : σ → Match → σ × Option String) (state : σ) (new : String) (hrule : (rule state m).2 = some new) :
      pair.replaceWith rule state body = ((rule state m).1, h.lead ++ (new ++ (spell rest ++ (Code.ofString body).tail))) := by
    obtain ⟨hstate, hpieces⟩ := replacePieces_quiet helements (fun t ht => hquiet t (mem_of_mem_drop ht)) rule
      (rule state m).1 [s', w, e', f', arrow', h', s, g, b, v, e, f, arrow, h]
    have hnext : rule state m = ((rule state m).1, some new) := Prod.ext rfl hrule
    rw [replaceWith, hts, replacePieces, hmatch]
    simp only
    rw [hnext]
    simp only [hwindow]
    refine Prod.ext hstate ?_
    rw [← hpieces]
    simp [String.append_assoc, replacePieces]
  have hparts := hopens
  rw [show h :: arrow :: f :: e :: v :: b :: g :: s :: h' :: arrow' :: f' :: e' :: w :: s' :: rest =
    [h, arrow, f, e] ++ ([v, b, g] ++ ([s, h', arrow', f', e', w, s'] ++ rest)) from rfl, opens_append, opens_append, opens_append] at hparts
  obtain ⟨-, hvalueOpens, -, hrestOpens⟩ := hparts
  have hcode : ∀ t ∈ [v, b, g], t.kind.segment = .code := by
    have hword {t : Token} (ht : t ∈ [v, b, g]) (hid : Token.isIdentifierText t.text) : t.kind.segment = .code := by
      have := hvalueOpens.isIdentifier ht hid rfl
      rw [show t.kind = .identifier by simpa [Token.isIdentifier] using this]
      rfl
    obtain ⟨cs, hreads⟩ := hvalueOpens.reads b (by simp)
    have hpunct := Token.kind_of_head hreads (c := '-') (by rw [hstored.reaches]; rfl) (by decide)
    exact forall_mem_cons.2 ⟨hword (by simp) hstored.value, forall_mem_cons.2 ⟨by rw [hpunct]; rfl,
      forall_mem_singleton.2 (hword (by simp) hstored.tag)⟩⟩
  have hbehind : ∀ t ∈ [v, b, g] ++ rest, t.text ≠ "=" := by
    refine forall_mem_append.2 ⟨?_, hquiet⟩
    simp [plain_of_identifier hstored.value, plain_of_identifier hstored.tag, hstored.reaches]
  have hwritten := written_quiet hopens.1 hfield hvalueOpens hcode hrestOpens (tokens_tail body) hbehind
  have hnone := findAllFrom_quiet (elements_single hhere) (fun t ht => hwritten t (mem_of_mem_drop ht)) []
  refine ⟨h.lead ++ (s!"{f.text}.Set({Code.span [v, b, g]});" ++ (spell rest ++ (Code.ofString body).tail)), ?_⟩
  simp only
  rw [hreplace _ _ s!"{f.text}.Set({Code.span [v, b, g]});"]
  · simp only [findAll, hnone]
    simp [storePair, hmember, hflagText, hflag, hvar, Names.add, Names.addAll, Table.putNew, Table.has]
  · simp [storePair, hmember, hflagText, hflag, hvar, hvalue]

omit hhere hvalue in
lemma reads_quiet {ts : List Token} (h : ∀ t ∈ ts, t.text ≠ "=") (before : List Token) : reads here false before ts = [] := by
  induction ts generalizing before with
  | nil => rfl
  | cons t ts ih =>
    obtain ⟨ht, hts⟩ := forall_mem_cons.1 h
    simp [reads, ht, ih hts]

lemma readFields_read (hfield : Token.isIdentifierText field) (h : IsRead a.here a.value field (texts body)) :
    a.readFields body = [field] := by
  obtain ⟨tag, htag, ending, hending, hwords⟩ := h
  -- the same tokens as in a store, with the object and the value changed places
  obtain ⟨v, b, g, e, h, arrow, f, s, rest, hts, hstored, hg, hh, rfl, hrest⟩ :=
    exists_stored (opens_ofString body) (isIdentifierText_scalar tag htag) hhere hfield hwords
  have hquiet := ending_quiet hending hrest
  obtain ⟨hv, hb, -, he, -, ha, -, hs⟩ := hstored
  have hopens := opens_ofString body
  rw [hts] at hopens
  have hid : f.isIdentifier := hopens.isIdentifier (by simp) hfield rfl
  have hne {w : String} (hw : Token.isIdentifierText w) :
      w ≠ ";" ∧ w ≠ "\x7b" ∧ w ≠ "\x7d" ∧ w ≠ "=" ∧ "=" ≠ w ∧ w ≠ "->" ∧ "->" ≠ w ∧ w ≠ "." ∧ ";" ≠ w := by
    refine ⟨?_, ?_, ?_, ?_, ?_, ?_, ?_, ?_, ?_⟩ <;> rintro rfl <;> cases hw
  have hreads : reads a.here false [] (v :: b :: g :: e :: h :: arrow :: f :: s :: rest) = [f.text] := by
    simp [reads, readField?, hv, hb, hg, he, hh, ha, hs, hid, followsMember, Token.reachesMember, hne hvalue, hne hhere, hne hfield,
      hne (isIdentifierText_scalar tag htag), reads_quiet hquiet]
  rw [readFields, hts, hreads]
  rfl

end

/-- The default shapes are those of the bodies with these tokens and no others, in any layout. What is collected from such a
body, where a setter and a getter do not fit together, is the field of the shape, with its flag if it has one. -/
theorem shapes_exact (a : Accessor) (hhere : Token.isIdentifierText a.here = true) (hvalue : Token.isIdentifierText a.value = true)
    (body : String) (known : Table String) :
    (∀ field given, a.setterShape body known = .withGiven field given ↔
      Token.isIdentifierText field = true ∧ Token.isIdentifierText given = true ∧ isGivenFlag given = true ∧
        IsPaired a.here a.value field given (texts body)) ∧
    (∀ field, a.setterShape body known = .plain field ↔
      Token.isIdentifierText field = true ∧ IsStore a.here a.value field (texts body)) ∧
    (∀ field, a.getterShape body = .plain field ↔
      Token.isIdentifierText field = true ∧ IsRead a.here a.value field (texts body)) ∧
    (∀ field given, a.setterShape body known = .withGiven field given →
      ∃ written, a.stores? body known = some ⟨[field], [(given, field)], written⟩) ∧
    (∀ field, a.setterShape body known = .plain field → known.has field = false →
      a.stores? body known = some ⟨[field], [], body⟩) ∧
    ∀ field, a.getterShape body = .plain field → a.readFields body = [field] := by
  refine ⟨fun _ _ => withGiven_iff hhere hvalue, fun _ => setterPlain_iff hhere hvalue, fun _ => getterPlain_iff hhere hvalue,
    fun field given h => ?_, fun field h hknown => ?_, fun field h => ?_⟩
  · obtain ⟨hfield, hgiven, hflag, hpaired⟩ := (withGiven_iff hhere hvalue).1 h
    exact stores?_paired hhere hvalue hfield hgiven hflag hpaired
  · obtain ⟨hfield, hstore⟩ := (setterPlain_iff hhere hvalue).1 h
    exact stores?_store hhere hvalue hfield hknown hstore
  · obtain ⟨hfield, hread⟩ := (getterPlain_iff hhere hvalue).1 h
    exact readFields_read hhere hvalue hfield hread

/-- A flag that is raised behind a comment, in a body over several lines. -/
theorem shapes_exact_commented :
    let a : Accessor := ⟨"P", [], "here", "value", none⟩
    let body := "here->R=value /* set */ ->rValue;\n  here -> RGiven = TRUE; // given\n  return(OK);"
    a.setterShape body [] = .withGiven "R" "RGiven" ∧ ∃ written, a.stores? body [] = some ⟨["R"], [("RGiven", "R")], written⟩ := by
  intro a body
  obtain ⟨hpaired, -, -, hstores, -⟩ := shapes_exact a (by decide) (by decide) body []
  have hshape : a.setterShape body [] = .withGiven "R" "RGiven" :=
    (hpaired "R" "RGiven").2 ⟨by decide, by decide, by decide +kernel, "rValue", by decide, ["return", "(", "OK", ")", ";"], by decide,
      by decide +kernel⟩
  exact ⟨hshape, hstores "R" "RGiven" hshape⟩

end Parameter.Accessor

end DeviceForge
