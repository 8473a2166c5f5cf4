import DeviceForge.Device
import DeviceForge.Proofs.Directive.Document
import DeviceForge.Proofs.Iteration.Loops
/-!
# Reading back a device literal

`Literal` is the text of an interface file that holds the literal of one device and nothing else, in any layout.
-/

namespace DeviceForge

open List Token Text Segment

/-! ## Texts of literals and simple code -/

namespace Segment

def Simple (p : Char → Bool) (cs : List Char) : Prop :=
  ∃ ms : List (Char × Kind), ms.map (·.1) = cs ∧ (∀ rest, marked (cs ++ rest) = ms ++ marked rest) ∧
    ∀ x ∈ ms, x.2 = .quoted ∨ x.2 = .code ∧ p x.1 = true

section Simple
variable {p : Char → Bool} {cs ds : List Char}

lemma simple_code (h : ∀ c ∈ cs, isPlain c ∧ p c) : Simple p cs := by
  refine ⟨cs.map (·, .code), by simp [Function.comp_def], fun rest => marked_plain (fun c hc => (h c hc).1) rest, ?_⟩
  intro x hx
  obtain ⟨c, hc, rfl⟩ := mem_map.1 hx
  exact .inr ⟨rfl, (h c hc).2⟩

lemma endsQuoted_string (h : ∀ c ∈ cs, c ≠ '"' ∧ c ≠ '\\') : Lexeme.endsQuoted '"' (cs ++ ['"']) := by
  induction cs with
  | nil => rfl
  | cons c cs ih =>
    obtain ⟨hc, hcs⟩ := forall_mem_cons.1 h
    rw [cons_append, Lexeme.endsQuoted_plain hc.2, if_neg hc.1, ih hcs]

lemma simple_string (h : ∀ c ∈ cs, c ≠ '"' ∧ c ≠ '\\') : Simple p ('"' :: (cs ++ ['"'])) := by
  refine ⟨('"' :: (cs ++ ['"'])).map (·, .quoted), by simp [Function.comp_def], fun rest => ?_, ?_⟩
  · have hext : extent '"' ((cs ++ ['"']) ++ rest) = (.quoted, (cs ++ ['"']).length) := by
      rw [extent, if_pos (by decide), Lexeme.quoted_append (by decide) rest _ (endsQuoted_string h)]
    rw [cons_append, marked_cons, hext, take_left, drop_left]
  · intro x hx
    obtain ⟨c, -, rfl⟩ := mem_map.1 hx
    exact .inl rfl

lemma Simple.append (h : Simple p cs) (h' : Simple p ds) : Simple p (cs ++ ds) := by
  obtain ⟨ms, rfl, hmarked, hms⟩ := h
  obtain ⟨ns, rfl, hmarked', hns⟩ := h'
  refine ⟨ms ++ ns, map_append, fun rest => ?_, fun x hx => ?_⟩
  · rw [append_assoc, hmarked, hmarked', append_assoc]
  · rcases mem_append.1 hx with hx | hx
    · exact hms x hx
    · exact hns x hx

lemma Simple.imp {q : Char → Bool} (h : Simple p cs) (hpq : ∀ c, p c → q c) : Simple q cs := by
  obtain ⟨ms, hcs, hmarked, hms⟩ := h
  exact ⟨ms, hcs, hmarked, fun x hx => (hms x hx).imp_right fun hx => ⟨hx.1, hpq _ hx.2⟩⟩

lemma simple_flatten {css : List (List Char)} (h : ∀ cs ∈ css, Simple p cs) : Simple p css.flatten := by
  induction css with
  | nil => exact simple_code (by simp)
  | cons cs css ih =>
    obtain ⟨hcs, hcss⟩ := forall_mem_cons.1 h
    exact hcs.append (ih hcss)

lemma Simple.mem_marked (h : Simple p cs) : ∀ x ∈ marked cs, x.2 = .quoted ∨ x.2 = .code ∧ p x.1 := by
  obtain ⟨ms, -, hmarked, hms⟩ := h
  have hall := hmarked []
  rw [append_nil, show marked [] = [] by simp [marked, ofChars], append_nil] at hall
  rwa [hall]

lemma Simple.code (h : Simple p cs) {x : Char × Kind} (hx : x ∈ marked cs) (hcode : x.2 = .code) : p x.1 := by
  rcases h.mem_marked x hx with hquoted | hcode
  · simp [hcode] at hquoted
  · exact hcode.2

lemma text_ne_nil (cs : List Char) : ∀ seg ∈ ofChars cs, seg.text ≠ [] := by
  fun_induction ofChars cs with
  | case1 => simp
  | case2 c cs kind n he ih => exact forall_mem_cons.2 ⟨cons_ne_nil _ _, ih⟩

lemma Simple.removeComments {s : String} (h : Simple p s.toList) : removeComments s = s := by
  have hkeep : ∀ seg ∈ ofChars s.toList, decide (seg.kind ≠ .comment) := by
    intro seg hseg
    obtain ⟨c, text, htext⟩ := exists_cons_of_ne_nil (text_ne_nil _ seg hseg)
    have hmem : (c, seg.kind) ∈ marked s.toList := mem_flatMap.2 ⟨seg, hseg, by simp [htext]⟩
    rcases h.mem_marked _ hmem with hkind | ⟨hkind, -⟩ <;> simp [show seg.kind = _ from hkind]
  rw [Segment.removeComments, filter_eq_self.2 hkeep, flatMap_text_ofChars, String.ofList_toList]

lemma Simple.closingIn {b : Bracket} (h : Simple p cs) (hclosing : p b.closing = false) (hopening : p b.opening = false)
    (level : Nat) (rest : List Char) :
    closingIn b level (marked (cs ++ rest)) = (closingIn b level (marked rest)).map (· + cs.length) := by
  obtain ⟨ms, rfl, hmarked, hms⟩ := h
  rw [hmarked, closingIn_skip, length_map]
  intro x hx hcode
  rcases hms x hx with hquoted | ⟨-, hp⟩
  · simp [hcode] at hquoted
  · exact ⟨fun hc => by simp [hc, hclosing] at hp, fun hc => by simp [hc, hopening] at hp⟩

lemma Simple.enclosed? {b : Bracket} (h : Simple p cs) (hclosing : p b.closing = false) (hopening : p b.opening = false)
    (rest : List Char) : enclosed? b (cs ++ b.closing :: rest) = some (cs, rest) := by
  have hcode : marked (b.closing :: rest) = (b.closing, .code) :: marked rest :=
    marked_code (extent_plain (by cases b <;> decide) _)
  have hclose : Segment.closingIn b 1 (marked (cs ++ b.closing :: rest)) = some cs.length := by
    rw [h.closingIn hclosing hopening, hcode, Segment.closingIn, if_pos ⟨rfl, rfl⟩, if_pos rfl, Option.map_some, Nat.zero_add]
  rw [Segment.enclosed?, hclose, Option.map_some, take_left, ← drop_drop, drop_left, drop_one, tail_cons]

end Simple

end Segment

lemma Directive.resolve_simple {p : Char → Bool} (hp : p '#' = false) {s : String} (h : Segment.Simple p s.toList)
    (defined : List String) : resolve defined s = s := by
  have hnone : ofChars s.toList = [] := by
    have hunmarked : ∀ x ∈ marked s.toList, x.2 = .code → x.1 ≠ '#' := by
      intro x hx hcode hmark
      have hx := h.code hx hcode
      simp [hmark, hp] at hx
    have hfound := found_unmarked hunmarked 0 (Nat.zero_le _) []
    rw [append_nil, found_nil] at hfound
    rw [ofChars_eq, hfound]
  have hdrop : dropDefinitions s.toList = s.toList := by rw [dropDefinitions, hnone, foldr_nil]
  rw [resolve, hdrop, resolveBlocks, hnone, resolveBlock?, String.ofList_toList]

lemma Code.operator_not_mem {p : Char → Bool} {c : Char} (hp : p c = false) (hc : isPlain c) {s : String}
    (h : Segment.Simple p s.toList) : ∀ t ∈ (ofString s).tokens, t.text ≠ String.singleton c := by
  intro t ht htext
  have hmem : t.bare ∈ Token.shapes s.toList := by
    have hshape : t.bare ∈ shapes s := mem_map_of_mem ht
    rw [shapes_eq] at hshape
    exact (mem_filter.1 hshape).1
  obtain ⟨u, hu, hbare⟩ := mem_map.1 hmem
  have hchars : u.text.toList = [c] := by
    rw [show u.text = t.text from (Prod.mk.inj hbare).2, htext, String.toList_singleton]
  have hcode : u.kind.segment = .code := by
    obtain ⟨rest, hreads⟩ := (legible_of_scan (Prod.eta (scan s.toList)).symm).reads u hu
    simp only [isPlain, Bool.not_eq_true', Bool.or_eq_false_iff, decide_eq_false_iff_not] at hc
    exact code_of_text hreads hchars ⟨hc.1.1, hc.1.2, hc.2⟩
  have hmarked : (c, .code) ∈ marked s.toList := by
    rw [marked_scan (Prod.eta (scan s.toList)).symm]
    refine mem_append_left _ (mem_flatMap.2 ⟨u, hu, mem_append_right _ ?_⟩)
    rw [hchars, hcode]
    exact mem_singleton_self _
  have hfalse := h.code hmarked rfl
  simp [hp] at hfalse

namespace Device

variable {w s : String} {c : Char} {cs : List Char}

/-! ## Items between commas -/

/-- An item of a list with the blanks around it. -/
structure Item where
  before : String
  text : String
  after : String
  blank : Token.Blank before.toList ∧ Token.Blank after.toList

namespace Item

variable {items : List Item}

def render (i : Item) : String :=
  i.before ++ i.text ++ i.after

/-- The item as a string. -/
def quoted (i : Item) : Item :=
  ⟨i.before, "\"" ++ i.text ++ "\"", i.after, i.blank⟩

def isTrimmed (i : Item) : Bool :=
  i.text.toList.head?.any (!Text.isSpace ·) && i.text.toList.getLast?.any (!Text.isSpace ·)

def isItemChar (c : Char) : Bool :=
  c ∉ ['\x7b', '\x7d', '=', '#']

structure Plain (i : Item) : Prop where
  trimmed : i.isTrimmed = true
  simple : Segment.Simple isItemChar i.text.toList
  no_comma : ',' ∉ i.text.toList

lemma simple_blank {p : Char → Bool} (hp : ∀ c, isBlank c → p c) (h : Token.Blank cs) :
    Segment.Simple p cs :=
  simple_code fun c hc => ⟨plain_of_blank (h c hc), hp c (h c hc)⟩

lemma isItemChar_of_blank (h : isBlank c) : isItemChar c := by
  simp only [isBlank, Bool.or_eq_true, decide_eq_true_eq] at h
  rcases h with (((rfl | rfl) | rfl) | rfl) | rfl <;> decide

lemma toList_render (i : Item) : i.render.toList = i.before.toList ++ (i.text.toList ++ i.after.toList) := by
  simp [render]

namespace Plain
variable {i : Item} (h : i.Plain)
include h

lemma simple_render : Segment.Simple isItemChar i.render.toList := by
  rw [toList_render]
  exact (simple_blank (fun _ => isItemChar_of_blank) i.blank.1).append
    (h.simple.append (simple_blank (fun _ => isItemChar_of_blank) i.blank.2))

lemma no_comma_render : ',' ∉ i.render.toList := by
  have hblank {cs : List Char} (hcs : Token.Blank cs) : ',' ∉ cs := fun hmem => absurd (hcs _ hmem) (by decide)
  rw [toList_render, mem_append, mem_append, not_or, not_or]
  exact ⟨hblank i.blank.1, h.no_comma, hblank i.blank.2⟩

lemma text_ne_nil : i.text.toList ≠ [] := by
  intro hnil
  have htrimmed := h.trimmed
  simp [isTrimmed, hnil] at htrimmed

lemma trim_render : trim i.render = i.text := by
  have htrimmed := h.trimmed
  simp only [isTrimmed, Bool.and_eq_true] at htrimmed
  have hhead : ∀ c ∈ i.text.toList.head?, Text.isSpace c = false := by
    intro c hc
    simpa [show i.text.toList.head? = some c from hc] using htrimmed.1
  have hlast : ∀ c ∈ i.text.toList.getLast?, Text.isSpace c = false := by
    intro c hc
    simpa [show i.text.toList.getLast? = some c from hc] using htrimmed.2
  have htrim := trim_padded (fun c hc => Text.isSpace_of_isBlank (i.blank.1 c hc))
    (fun c hc => Text.isSpace_of_isBlank (i.blank.2 c hc)) hhead hlast h.text_ne_nil
  rwa [← toList_render, String.ofList_toList, String.ofList_toList] at htrim

end Plain

lemma simple_flatMap (h : ∀ i ∈ items, i.Plain) :
    Segment.Simple isItemChar ((items.map (·.render.toList)).flatMap (',' :: ·)) := by
  refine simple_flatten fun cs hcs => ?_
  obtain ⟨ds, hds, rfl⟩ := mem_map.1 hcs
  obtain ⟨i, hi, rfl⟩ := mem_map.1 hds
  have hcomma : Segment.Simple isItemChar [','] := simple_code (forall_mem_singleton.2 (by decide))
  exact hcomma.append (h i hi).simple_render

lemma simple_intercalate (h : ∀ i ∈ items, i.Plain) :
    Segment.Simple isItemChar ([','].intercalate (items.map (·.render.toList))) := by
  cases items with
  | nil => exact simple_code (by simp)
  | cons i items =>
    obtain ⟨hi, hitems⟩ := forall_mem_cons.1 h
    rw [map_cons, intercalate_cons]
    exact hi.simple_render.append (simple_flatMap hitems)

lemma splitItems_intercalate (h : ∀ i ∈ items, i.Plain) :
    Info.splitItems ([','].intercalate (items.map (·.render.toList))) = items.map (·.text) := by
  by_cases hnil : items = []
  · subst hnil
    decide +kernel
  have hsimple := simple_intercalate h
  have hsplit : splitAtChars (· == ',') ([','].intercalate (items.map (·.render.toList))) = items.map (·.render.toList) := by
    rw [splitAtChars_eq_splitOnP, ← splitOn_eq_splitOnP, splitOn_intercalate _ _ (by simpa using hnil)]
    intro cs hcs
    obtain ⟨i, hi, rfl⟩ := mem_map.1 hcs
    exact (h i hi).no_comma_render
  have htrim : (items.map (·.render.toList)).map (fun cs => trim (String.ofList cs)) = items.map (·.text) := by
    rw [map_map]
    refine map_congr_left fun i hi => ?_
    rw [Function.comp_apply, String.ofList_toList]
    exact (h i hi).trim_render
  have hkeep : ∀ s ∈ items.map (·.text), (!s.isEmpty) := by
    intro s hs
    obtain ⟨i, hi, rfl⟩ := mem_map.1 hs
    have hne : i.text ≠ "" := fun hempty => (h i hi).text_ne_nil (by rw [hempty]; rfl)
    simpa [String.isEmpty_iff] using hne
  rw [← String.toList_ofList (l := intercalate _ _)] at hsimple
  rw [Info.splitItems, hsimple.removeComments, split, String.toList_ofList, hsplit, map_map]
  rw [show (trim ∘ String.ofList) = fun cs => trim (String.ofList cs) from rfl, htrim, filter_eq_self]
  exact hkeep

end Item

/-! ## Literals -/

/-- An interface file with the literal of one device. -/
structure Literal where
  object : String
  /-- Blanks before the words up to the first brace, counted from the last word. -/
  gap : Nat → String
  name : Item
  description : Item
  terms : Item
  nameCount : Item
  termNames : Item
  parameterCount : Item
  parameterTable : Item
  modelParameterCount : Item
  modelParameterTable : Item
  flags : Item
  methods : List Item
  /-- Blanks before the block of fields and behind it, behind the literal and at the end of the file. -/
  opening : String
  closing : String
  ending : String
  rest : String
  blank_gap : ∀ i, Token.Blank (gap i).toList
  /-- The name of the object is a word of its own. -/
  gap_object : gap 2 ≠ ""
  blank : ∀ s ∈ [opening, closing, ending, rest], Token.Blank s.toList
  identifier_object : Token.isIdentifierText object = true
  identifiers : ∀ i ∈ parameterTable :: modelParameterTable :: methods, Token.isIdentifierText i.text = true
  strings : ∀ i ∈ [name, description], ∀ c ∈ i.text.toList, c ≠ '"' ∧ c ≠ '\\'
  /-- The other fields are simple code. -/
  others : ∀ i ∈ [terms, nameCount, termNames, parameterCount, modelParameterCount, flags], i.isTrimmed = true ∧
    ∀ c ∈ i.text.toList, Segment.isPlain c = true ∧ Item.isItemChar c = true ∧ c ≠ ','

namespace Literal

variable {i : Item} {l : Literal}

def words (l : Literal) : List String :=
  ["SPICEdev", l.object, "=", "\x7b"]

def fields (l : Literal) : List Item :=
  [l.name.quoted, l.description.quoted, l.terms, l.nameCount, l.termNames, l.parameterCount, l.parameterTable,
    l.modelParameterCount, l.modelParameterTable, l.flags]

def inside (l : Literal) : String :=
  l.opening ++ ("\x7b" ++ (",".intercalate (l.fields.map Item.render) ++ ("\x7d" ++ (l.closing ++
    String.join (l.methods.map ("," ++ ·.render))))))

def text (l : Literal) : String :=
  Text.spread l.gap l.words ++ (l.inside ++ ("\x7d" ++ (l.ending ++ (";" ++ l.rest))))

/-- No comma stands in the strings. -/
def CommaFree (l : Literal) : Prop :=
  ∀ i ∈ [l.name, l.description], ',' ∉ i.text.toList

def block (l : Literal) : List Char :=
  [','].intercalate (l.fields.map (·.render.toList))

def behind (l : Literal) : List Char :=
  l.closing.toList ++ (l.methods.map (·.render.toList)).flatMap (',' :: ·)

lemma toList_inside (l : Literal) : l.inside.toList = l.opening.toList ++ '\x7b' :: (l.block ++ '\x7d' :: l.behind) := by
  simp [inside, block, behind, String.toList_intercalate, String.toList_join, flatMap_map, Function.comp_def]

/-! ### Items of a literal -/

lemma not_mem_of_identifier (h : isIdentifierText w) (hc : isWordChar c = false) : c ∉ w.toList := by
  intro hmem
  simp [Pattern.wordChar_of_identifier h c hmem] at hc

lemma plain_identifier (h : isIdentifierText i.text) : i.Plain := by
  have hspace (c : Char) (hc : c ∈ i.text.toList) : Text.isSpace c = false :=
    Pattern.not_space_of_wordChar (Pattern.wordChar_of_identifier h c hc)
  have hne {c d : Char} (hc : c ∈ i.text.toList) (hd : isWordChar d = false) : c ≠ d := by
    rintro rfl
    exact not_mem_of_identifier h hd hc
  obtain ⟨c, cs, hcs, -⟩ := exists_letter h
  refine ⟨?_, simple_code fun c hc => ⟨?_, ?_⟩, not_mem_of_identifier h rfl⟩
  · obtain ⟨d, hd⟩ : ∃ d, i.text.toList.getLast? = some d := by simp [hcs, getLast?_cons]
    have hfirst := hspace c (by simp [hcs])
    have hlast := hspace d (mem_of_mem_getLast? hd)
    rw [Item.isTrimmed, hd]
    simp [hcs, hfirst, hlast]
  · simp only [isPlain, Bool.not_eq_true', Bool.or_eq_false_iff, decide_eq_false_iff_not]
    exact ⟨⟨hne hc rfl, hne hc rfl⟩, hne hc rfl⟩
  · simp only [Item.isItemChar, mem_cons, not_mem_nil, or_false, not_or, decide_eq_true_eq]
    exact ⟨hne hc rfl, hne hc rfl, hne hc rfl, hne hc rfl⟩

lemma plain_quoted (h : ∀ c ∈ i.text.toList, c ≠ '"' ∧ c ≠ '\\') (hcomma : ',' ∉ i.text.toList) :
    i.quoted.Plain := by
  have htext : i.quoted.text.toList = '"' :: (i.text.toList ++ ['"']) := by simp [Item.quoted]
  refine ⟨?_, ?_, ?_⟩
  · rw [Item.isTrimmed, htext, head?_cons, ← cons_append, getLast?_concat]
    decide
  · rw [htext]
    exact simple_string h
  · simp [htext, hcomma]

lemma plain_fields (hl : l.CommaFree) : ∀ i ∈ l.fields, i.Plain := by
  have hstring (i : Item) (hi : i ∈ [l.name, l.description]) : i.quoted.Plain := plain_quoted (l.strings i hi) (hl i hi)
  have htable (i : Item) (hi : i ∈ [l.parameterTable, l.modelParameterTable]) : i.Plain :=
    plain_identifier (l.identifiers i (by simp at hi ⊢; tauto))
  have hother (i : Item) (hi : i ∈ [l.terms, l.nameCount, l.termNames, l.parameterCount, l.modelParameterCount, l.flags]) : i.Plain := by
    obtain ⟨htrimmed, hchars⟩ := l.others i hi
    exact ⟨htrimmed, simple_code fun c hc => ⟨(hchars c hc).1, (hchars c hc).2.1⟩, fun hc => (hchars _ hc).2.2 rfl⟩
  simp only [fields, forall_mem_cons]
  refine ⟨hstring _ (by simp), hstring _ (by simp), hother _ (by simp), hother _ (by simp), hother _ (by simp), hother _ (by simp),
    htable _ (by simp), hother _ (by simp), htable _ (by simp), hother _ (by simp), by simp⟩

lemma plain_methods (l : Literal) : ∀ i ∈ l.methods, i.Plain :=
  fun i hi => plain_identifier (l.identifiers i (by simp [hi]))

lemma splitItems_behind (l : Literal) :
    Info.splitItems ((l.behind.dropWhile Text.isSpace).dropWhile (· = ',')) = l.methods.map (·.text) := by
  have hclosing : ∀ c ∈ l.closing.toList, Text.isSpace c :=
    fun c hc => Text.isSpace_of_isBlank (l.blank l.closing (by simp) c hc)
  rw [behind, dropWhile_append_of_pos hclosing]
  cases hmethods : l.methods with
  | nil => decide +kernel
  | cons m ms =>
    have hplain := l.plain_methods
    rw [hmethods] at hplain
    have hm := hplain m mem_cons_self
    have hdrop : (m.render.toList ++ (ms.map (·.render.toList)).flatMap (',' :: ·)).dropWhile (· = ',') =
        m.render.toList ++ (ms.map (·.render.toList)).flatMap (',' :: ·) := by
      have hcomma := hm.no_comma_render
      obtain ⟨c, cs, hcs⟩ : ∃ c cs, m.render.toList = c :: cs :=
        exists_cons_of_ne_nil (by rw [Item.toList_render]; simp [by simpa using hm.text_ne_nil])
      rw [hcs, mem_cons, not_or] at hcomma
      rw [hcs, cons_append, dropWhile_cons_of_neg (by simpa using Ne.symm hcomma.1)]
    rw [map_cons, flatMap_cons, cons_append, dropWhile_cons_of_neg (by decide),
      dropWhile_cons_of_pos (by decide), hdrop, ← intercalate_cons]
    have hsplit := Item.splitItems_intercalate hplain
    rwa [map_cons] at hsplit

lemma splitBlocks_inside (hl : l.CommaFree) :
    Info.splitBlocks l.inside.toList = .ok (l.fields.map (·.text), l.methods.map (·.text)) := by
  have hopening : ∀ c ∈ l.opening.toList, decide (c ≠ '\x7b') = true := by
    intro c hc
    exact decide_eq_true (ne_bracket_of_blank (by decide) (l.blank l.opening (by simp) c hc))
  have hdrop : l.inside.toList.dropWhile (· ≠ '\x7b') = '\x7b' :: (l.block ++ '\x7d' :: l.behind) := by
    rw [toList_inside, dropWhile_append_of_pos hopening, dropWhile_cons_of_neg (by decide)]
  have henclosed : enclosed? .curly (l.block ++ '\x7d' :: l.behind) = some (l.block, l.behind) :=
    (Item.simple_intercalate (plain_fields hl)).enclosed? (by decide) (by decide) l.behind
  have hblock : Info.splitItems l.block = l.fields.map (·.text) := Item.splitItems_intercalate (plain_fields hl)
  unfold Info.splitBlocks
  simp only [hdrop, henclosed, hblock, splitItems_behind]

/-! ### Finding the literal -/

def tail (l : Literal) : String :=
  l.inside ++ ("\x7d" ++ (l.ending ++ (";" ++ l.rest)))

lemma tokens_text (l : Literal) :
    (Code.ofString l.text).tokens = laid l.gap l.words ++ (Code.ofString l.tail).tokens := by
  have hchain : [l.object, "=", "\x7b"].IsChain Token.Meets := by
    have hbrace : Token.Meets "=" "\x7b" := meets_stop (by decide) rfl (by decide)
    simp [meets_operator l.identifier_object (by decide : "=" ∈ loopOperators), hbrace]
  have hopens : Token.Opens (laid l.gap [l.object, "=", "\x7b"]) l.tail.toList := by
    refine opens_laid l.blank_gap hchain fun w hw lead => ?_
    obtain rfl : "\x7b" = w := by simpa using hw
    exact ⟨'\x7b', [], by simp [ofWord], by decide, extent_bracket (by decide) _⟩
  have hfirst : Token.Reads (ofWord (l.gap 3) "SPICEdev")
      (chars (laid l.gap [l.object, "=", "\x7b"]) ++ l.tail.toList) := by
    have hidentifier : isIdentifierText "SPICEdev" := by decide
    refine reads_identifier (by simp [ofWord, hidentifier]) hidentifier fun c hc => ?_
    obtain ⟨d, ds, hd⟩ : ∃ d ds, (l.gap 2).toList = d :: ds := exists_cons_of_ne_nil (by simpa using l.gap_object)
    have hblank := l.blank_gap 2 d (by simp [hd])
    obtain rfl : d = c := by simpa [laid, ofWord, hd] using hc
    simp only [isBlank, Bool.or_eq_true, decide_eq_true_eq] at hblank
    rcases hblank with (((rfl | rfl) | rfl) | rfl) | rfl <;> decide
  have hall : Token.Opens (laid l.gap l.words) l.tail.toList := ⟨l.blank_gap 3, hfirst, hopens⟩
  have h := Code.ofString_opens (Code.opens_of_blank hall not_comment_laid)
  rw [Code.spell_laid] at h
  exact congrArg Code.tokens h

lemma findAll_words (l : Literal) {us : List Token} (hus : ∀ t ∈ us, t.text ≠ "=") :
    ∃ captures, (Pattern.ofString "SPICEdev $name = \x7b").findAll (laid l.gap l.words ++ us) =
      [⟨[], laid l.gap l.words, us, captures⟩] := by
  have helements : Pattern.ofString "SPICEdev $name = \x7b" =
      ⟨[.literal "SPICEdev", .single .identifier "name", .literal "=", .literal "\x7b"]⟩ := by decide +kernel
  have hnil (before : List Token) : (Pattern.ofString "SPICEdev $name = \x7b").findAllFrom 0 before us = [] := by
    rw [helements]
    exact Pattern.findAllFrom_eq_nil rfl (i := 2) rfl (fun t ht => by simpa [Pattern.Element.takes] using hus t ht) before
  refine ⟨[("name", ⟨1, [ofWord (l.gap 2) l.object]⟩)], ?_⟩
  have hmatch : (Pattern.ofString "SPICEdev $name = \x7b").matchAt? [] (laid l.gap l.words ++ us) =
      some ⟨[], laid l.gap l.words, us, [("name", ⟨1, [ofWord (l.gap 2) l.object]⟩)]⟩ := by
    rw [helements]
    simp [Pattern.matchAt?, Pattern.matchElements, words, laid, Pattern.Class.accepts, l.identifier_object, Pattern.bind,
      ofWord]
  have hcons : laid l.gap l.words ++ us = ofWord (l.gap 3) "SPICEdev" :: ofWord (l.gap 2) l.object ::
      ofWord (l.gap 1) "=" :: ofWord (l.gap 0) "\x7b" :: us := rfl
  rw [Pattern.findAll]
  rw [hcons] at hmatch ⊢
  rw [Pattern.findAllFrom, hmatch]
  have hlen : (laid l.gap l.words).length - 1 = 3 := rfl
  simp only [hlen, Pattern.findAllFrom, hnil]

lemma simple_behind (l : Literal) : Segment.Simple Item.isItemChar l.behind :=
  (Item.simple_blank (fun _ => Item.isItemChar_of_blank) (l.blank l.closing (by simp))).append (Item.simple_flatMap l.plain_methods)

lemma closingIn_inside (hl : l.CommaFree) (rest : List Char) : closingIn .curly 1 (marked (l.inside.toList ++ rest)) =
      (closingIn .curly 1 (marked rest)).map (· + l.inside.toList.length) := by
  have hcode (c : Char) (hc : isPlain c) (cs : List Char) :
      marked (c :: cs) = (c, .code) :: marked cs := marked_code (extent_plain hc cs)
  have hopening : Segment.Simple Item.isItemChar l.opening.toList :=
    Item.simple_blank (fun _ => Item.isItemChar_of_blank) (l.blank l.opening (by simp))
  have hblock : Segment.Simple Item.isItemChar l.block := Item.simple_intercalate (plain_fields hl)
  rw [toList_inside]
  simp only [append_assoc, cons_append]
  rw [hopening.closingIn (by decide) (by decide), hcode _ (by decide), closingIn, if_neg (by decide), if_pos (by decide),
    hblock.closingIn (by decide) (by decide), hcode _ (by decide), closingIn, if_pos (by decide), if_neg (by decide),
    l.simple_behind.closingIn (by decide) (by decide)]
  simp only [Option.map_map, length_append, length_cons]
  congr 1
  funext n
  simp only [Function.comp_apply]
  omega

lemma simple_tail (hl : l.CommaFree) : Segment.Simple (fun c => c ∉ ['=', '#']) l.tail.toList := by
  have hitem {c : Char} (h : Item.isItemChar c = true) : decide (c ∉ ['=', '#']) = true := by
    simp only [Item.isItemChar, mem_cons, not_mem_nil, or_false, not_or, decide_eq_true_eq] at h ⊢
    exact h.2.2
  have hblank {s : String} (hs : s ∈ [l.opening, l.closing, l.ending, l.rest]) :
      Segment.Simple (fun c => c ∉ ['=', '#']) s.toList :=
    Item.simple_blank (fun c hc => hitem (Item.isItemChar_of_blank hc)) (l.blank s hs)
  have hmark (c : Char) (hc : c ∈ ['\x7b', '\x7d', ';']) : Segment.Simple (fun c => c ∉ ['=', '#']) [c] := by
    refine simple_code fun d hd => ?_
    obtain rfl := mem_singleton.1 hd
    simp only [mem_cons, not_mem_nil, or_false] at hc
    rcases hc with rfl | rfl | rfl <;> decide
  have hblock := (Item.simple_intercalate (plain_fields hl)).imp fun _ => hitem
  have hbehind := l.simple_behind.imp fun _ => hitem
  have htail : l.tail.toList = l.opening.toList ++ (['\x7b'] ++ (l.block ++ (['\x7d'] ++ (l.behind ++ (['\x7d'] ++ (l.ending.toList ++
      ([';'] ++ l.rest.toList))))))) := by
    rw [tail, String.toList_append, toList_inside]
    simp
  rw [htail]
  exact (hblank (by simp)).append ((hmark _ (by simp)).append (hblock.append ((hmark _ (by simp)).append
    (hbehind.append ((hmark _ (by simp)).append ((hblank (by simp)).append ((hmark _ (by simp)).append (hblank (by simp)))))))))

lemma find_text (hl : l.CommaFree) (file : String) : Info.find l.text file = .ok l.inside.toList := by
  have hus : ∀ t ∈ (Code.ofString l.tail).tokens, t.text ≠ "=" :=
    Code.operator_not_mem (c := '=') (by decide) (by decide) (simple_tail hl)
  obtain ⟨captures, hfound⟩ := findAll_words l hus
  obtain ⟨pre, hpre⟩ : ∃ pre, (spread l.gap l.words).toList = pre ++ ['\x7b'] := by
    refine ⟨(l.gap 3 ++ "SPICEdev" ++ l.gap 2 ++ l.object ++ l.gap 1 ++ "=" ++ l.gap 0).toList, ?_⟩
    simp [spread, words]
  have hwidth : Code.width (laid l.gap l.words) = byteLength pre + 1 := by
    rw [Code.width_eq, ← Code.toList_spell, Code.spell_laid, hpre, byteLength_append]
    rfl
  have hclosing : closingIn .curly 1 (marked l.tail.toList) = some l.inside.toList.length := by
    have hplain : isPlain '\x7d' = true := by decide
    have hcode := marked_code (extent_plain hplain (l.ending ++ (";" ++ l.rest)).toList)
    rw [tail, String.toList_append, closingIn_inside hl, String.toList_append, show "\x7d".toList = ['\x7d'] from rfl,
      singleton_append, hcode, closingIn, if_pos (by decide), if_pos rfl, Option.map_some, Nat.zero_add]
  have htext : l.text.toList = pre ++ Bracket.opening .curly :: l.tail.toList := by
    rw [text, String.toList_append, hpre, append_assoc, singleton_append, ← tail]
    rfl
  have htake : l.tail.toList.take l.inside.toList.length = l.inside.toList := by rw [tail, String.toList_append, take_left]
  have hstop : Match.stop ⟨[], laid l.gap l.words, (Code.ofString l.tail).tokens, captures⟩ - 1 = byteLength pre := by
    rw [Match.stop, hwidth]
    simp [Code.width]
  rw [Info.find, tokens_text]
  simp only [hfound]
  rw [hstop, enclosed_eq htext, hclosing]
  exact congrArg Except.ok htake

lemma resolve_text (hl : l.CommaFree) (defined : List String) : Directive.resolve defined l.text = l.text := by
  have hblank (c : Char) (hc : isBlank c) : decide (c ≠ '#') := by
    simp only [decide_eq_true_eq]
    rintro rfl
    cases hc
  have hgap (i : Nat) : Segment.Simple (fun c => c ≠ '#') (l.gap i).toList := Item.simple_blank hblank (l.blank_gap i)
  have hobject : Segment.Simple (fun c => c ≠ '#') l.object.toList := by
    have hplain := (plain_identifier (i := ⟨"", l.object, "", by simp [Token.Blank]⟩) l.identifier_object).simple
    refine hplain.imp fun c hc => ?_
    simp only [Item.isItemChar, mem_cons, not_or, decide_eq_true_eq] at hc ⊢
    exact hc.2.2.2.1
  have hword (w : String) (hw : w ∈ ["SPICEdev", "=", "\x7b"]) : Segment.Simple (fun c => c ≠ '#') w.toList := by
    refine simple_code fun c hc => ?_
    have hall : ["SPICEdev", "=", "\x7b"].all (fun w => w.toList.all fun c => isPlain c && decide (c ≠ '#')) = true := by decide
    simpa using all_eq_true.1 (all_eq_true.1 hall w hw) c hc
  have htail : Segment.Simple (fun c => c ≠ '#') l.tail.toList :=
    (simple_tail hl).imp fun c hc => by simp only [mem_cons, not_or, decide_eq_true_eq] at hc ⊢; exact hc.2.1
  have htext : l.text.toList = (l.gap 3).toList ++ ("SPICEdev".toList ++ ((l.gap 2).toList ++ (l.object.toList ++ ((l.gap 1).toList ++
      ("=".toList ++ ((l.gap 0).toList ++ ("\x7b".toList ++ l.tail.toList))))))) := by
    simp [text, tail, spread, words]
  refine Directive.resolve_simple (p := fun c => c ≠ '#') (by decide) ?_ defined
  rw [htext]
  exact (hgap 3).append ((hword _ (by simp)).append ((hgap 2).append (hobject.append ((hgap 1).append ((hword _ (by simp)).append
    ((hgap 0).append ((hword _ (by simp)).append htail)))))))

end Literal

lemma lower_identifier (h : isIdentifierText w) : lower w = w.toLower := by
  have hlower (cs : List Char) (hcs : ∀ c ∈ cs, isWordChar c) (before : List Char) :
      lowerChars before cs = cs.map Char.toLower := by
    induction cs generalizing before with
    | nil => rfl
    | cons c cs ih =>
      obtain ⟨hc, hcs⟩ := forall_mem_cons.1 hcs
      have hsigma : c ≠ 'Σ' := by
        rintro rfl
        revert hc
        decide
      have hascii : c.toNat < 128 := Nat.lt_of_le_of_lt (Pattern.toNat_of_wordChar hc).2 (by decide)
      rw [lowerChars, if_neg hsigma, lowerChar, if_pos hascii, ih hcs, map_cons, singleton_append]
  rw [lower, hlower _ (Pattern.wordChar_of_identifier h)]
  apply String.toList_injective
  rw [String.toList_ofList]
  exact String.toList_map.symm

def methodAt? (methods : List String) (e : EntryPoint) : Option String :=
  (methods[e.index]?).filter (·.toLower ≠ "null")

lemma entryPointsOf_eq {methods : List String} (h : ∀ m ∈ methods, isIdentifierText m) :
    Info.entryPointsOf methods = EntryPoint.all.filterMap fun e => (methodAt? methods e).map (e, ·) := by
  refine filterMap_congr fun e _ => ?_
  rw [methodAt?]
  cases hm : methods[e.index]? with
  | none => rfl
  | some m =>
    have hidentifier := h m (mem_of_getElem? hm)
    have hne : m ≠ "" := by
      rintro rfl
      cases hidentifier
    by_cases hnull : m.toLower = "null"
    · simp [lower_identifier hidentifier, hnull, Option.filter]
    · simp [lower_identifier hidentifier, hnull, hne, Option.filter]

lemma find?_entryPoints (f : EntryPoint → Option String) (e : EntryPoint) :
    ((EntryPoint.all.filterMap fun e => (f e).map (e, ·)).find? (·.1 = e)).map (·.2) = f e := by
  have hpred : (fun a => ((f a).map (a, ·)).any (·.1 = e)) = fun a => decide (a = e) && (f a).isSome := by
    funext a
    cases f a <;> simp
  rw [find?_filterMap, hpred]
  cases hfind : EntryPoint.all.find? fun a => decide (a = e) && (f a).isSome with
  | none =>
    have hnone := find?_eq_none.1 hfind e (EntryPoint.mem_all e)
    simp only [decide_true, Bool.true_and, Option.not_isSome_iff_eq_none] at hnone
    rw [hnone]
    rfl
  | some a =>
    have hfound := find?_some hfind
    simp only [Bool.and_eq_true, decide_eq_true_eq] at hfound
    obtain ⟨rfl, -⟩ := hfound
    simp [Function.comp_def]

lemma dropWhile_of_not_mem (h : c ∉ cs) : cs.dropWhile (· = c) = cs := by
  cases cs with
  | nil => rfl
  | cons d cs => exact dropWhile_cons_of_neg (by simpa using fun hd => h (by simp [hd]))

lemma dropWhileEnd_of_not_mem (h : c ∉ cs) : dropWhileEnd (· = c) cs = cs := by
  refine dropWhileEnd_eq_self fun d hd => decide_eq_false ?_
  rintro rfl
  exact h (mem_of_mem_getLast? hd)

lemma trimChar_of_not_mem (h : c ∉ s.toList) : Info.trimChar c s = s := by
  rw [Info.trimChar, dropWhile_of_not_mem h, dropWhileEnd_of_not_mem h, String.ofList_toList]

lemma trimCharStart_of_not_mem (h : c ∉ s.toList) : Info.trimCharStart c s = s := by
  rw [Info.trimCharStart, dropWhile_of_not_mem h, String.ofList_toList]

lemma trimChar_quoted {i : Item} (h : '"' ∉ i.text.toList) : Info.trimChar '"' i.quoted.text = i.text := by
  have htext : i.quoted.text.toList = '"' :: (i.text.toList ++ ['"']) := by simp [Item.quoted]
  have hdrop : (i.text.toList ++ ['"']).dropWhile (· = '"') = [] ∧ i.text.toList = [] ∨
      (i.text.toList ++ ['"']).dropWhile (· = '"') = i.text.toList ++ ['"'] := by
    cases hcs : i.text.toList with
    | nil => exact .inl ⟨rfl, rfl⟩
    | cons c cs =>
      rw [hcs] at h
      exact .inr (dropWhile_cons_of_neg (by simpa using fun hc => h (by simp [hc])))
  rw [Info.trimChar, htext, dropWhile_cons_of_pos (by decide)]
  rcases hdrop with ⟨hdrop, hnil⟩ | hdrop
  · rw [hdrop, ← hnil, dropWhileEnd_of_not_mem h, String.ofList_toList]
  · rw [hdrop, dropWhileEnd_append_right _ (by simp), dropWhileEnd_of_not_mem h, String.ofList_toList]

namespace Literal

def info (l : Literal) : Info where
  name := l.name.text
  description := l.description.text
  parameterTable := l.parameterTable.text
  modelParameterTable := l.modelParameterTable.text
  entryPoints := Info.entryPointsOf (l.methods.map (·.text))

lemma ofText_text {l : Literal} (hl : l.CommaFree) (file : String) : Info.ofText l.text file = .ok l.info := by
  have hstring (i : Item) (hi : i ∈ [l.name, l.description]) : Info.trimChar '"' i.quoted.text = i.text :=
    trimChar_quoted fun hc => (l.strings i hi _ hc).1 rfl
  have htable (i : Item) (hi : i ∈ [l.parameterTable, l.modelParameterTable]) :
      Info.trimChar '"' i.text = i.text ∧ Info.trimCharStart '&' i.text = i.text := by
    have hidentifier := l.identifiers i (by simp at hi ⊢; tauto)
    exact ⟨trimChar_of_not_mem (not_mem_of_identifier hidentifier rfl),
      trimCharStart_of_not_mem (not_mem_of_identifier hidentifier rfl)⟩
  simp only [Info.ofText, find_text hl, splitBlocks_inside hl, bind, Except.bind, pure, Except.pure, Info.field, fields, map_cons,
    getElem?_cons_zero, getElem?_cons_succ, hstring l.name (by simp), hstring l.description (by simp),
    (htable l.parameterTable (by simp)).1, (htable l.parameterTable (by simp)).2, (htable l.modelParameterTable (by simp)).1,
    (htable l.modelParameterTable (by simp)).2, info]

end Literal

/-! ## Devices -/

/-- Reading the literal of a device gives back what it was built from, under any symbols: the two strings without their quotes,
the two tables, and for each entry point the function in its place, unless that is a `null` in any letter case. -/
theorem ofSources_text (l : Literal) (hl : l.CommaFree) {sources : Sources}
    (hread : sources.folder.read sources.interfaceFile = .ok l.text) :
    ∃ d, ofSources sources = .ok d ∧ d.sources = sources ∧ d.info.name = l.name.text ∧ d.info.description = l.description.text ∧
      d.info.parameterTable = l.parameterTable.text ∧ d.info.modelParameterTable = l.modelParameterTable.text ∧
      ∀ (e : EntryPoint) (name : String), d.entryPoint? e = some name ↔
        (l.methods.map (·.text))[e.index]? = some name ∧ name.toLower ≠ "null" := by
  have hmethods : ∀ m ∈ l.methods.map (·.text), Token.isIdentifierText m = true := by
    intro m hm
    obtain ⟨i, hi, rfl⟩ := List.mem_map.1 hm
    exact l.identifiers i (by simp [hi])
  have hok : ofSources sources = .ok ⟨sources, l.info⟩ := by
    simp only [ofSources, hread, bind, Except.bind, pure, Except.pure, Literal.resolve_text hl, Literal.ofText_text hl]
  refine ⟨_, hok, rfl, rfl, rfl, rfl, rfl, fun e name => ?_⟩
  rw [entryPoint?, Literal.info, entryPointsOf_eq hmethods, find?_entryPoints, methodAt?, Option.filter_eq_some_iff]
  simp

/-- An item without blanks around it. -/
def Item.bare (text : String) : Item :=
  ⟨"", text, "", by simp [Token.Blank]⟩

/-- A literal on one line. -/
def Literal.small (description : String) (h : description.toList.all (fun c => c ≠ '"' && c ≠ '\\') = true) : Literal where
  object := "d"
  gap := fun _ => " "
  name := .bare "D"
  description := .bare description
  terms := .bare "&t"
  nameCount := .bare "1"
  termNames := .bare "n"
  parameterCount := .bare "1"
  parameterTable := .bare "p"
  modelParameterCount := .bare "2"
  modelParameterTable := .bare "m"
  flags := .bare "0"
  methods := [.bare "f", .bare "nULl", .bare "g"]
  opening := ""
  closing := ""
  ending := ""
  rest := "\n"
  blank_gap := by simp [Token.Blank, Text.isBlank]
  gap_object := by decide
  blank := by simp [Token.Blank, Text.isBlank]
  identifier_object := by decide
  identifiers := by decide
  strings := by
    have hname : "D".toList.all (fun c => c ≠ '"' && c ≠ '\\') = true := by decide
    refine List.forall_mem_cons.2 ⟨fun c hc => ?_, List.forall_mem_singleton.2 fun c hc => ?_⟩
    · simpa using List.all_eq_true.1 hname c hc
    · simpa using List.all_eq_true.1 h c hc
  others := by
    have hall : [Item.bare "&t", .bare "1", .bare "n", .bare "1", .bare "2", .bare "0"].all (fun i => i.isTrimmed &&
        i.text.toList.all fun c => Segment.isPlain c && Item.isItemChar c && c ≠ ',') = true := by decide
    intro i hi
    simpa [and_assoc] using List.all_eq_true.1 hall i hi

/-- The sources of a device with this text in its interface file. -/
def Sources.single (text : String) : Sources :=
  ⟨⟨"d", true, [("i", text.toUTF8.data.toList)], []⟩, "i", "h", [], none⟩

/-- Braces and marks of comments in a string are characters of the string. -/
theorem ofSources_text_braces :
    let l := Literal.small "\x7b/* #" (by decide)
    l.CommaFree ∧ (Sources.single l.text).folder.read (Sources.single l.text).interfaceFile = .ok l.text ∧
      ∃ d, ofSources (Sources.single l.text) = .ok d ∧ d.info.name = "D" ∧ d.info.description = "\x7b/* #" ∧
        d.info.parameterTable = "p" ∧ d.info.modelParameterTable = "m" ∧ d.entryPoint? .load = some "g" := by
  intro l
  have hl : l.CommaFree := by unfold Literal.CommaFree; decide
  have hread : (Sources.single l.text).folder.read (Sources.single l.text).interfaceFile = .ok l.text := by decide +kernel
  obtain ⟨d, hd, -, hname, hdescription, hp, hm, hentry⟩ := ofSources_text l hl hread
  exact ⟨hl, hread, d, hd, hname, hdescription, hp, hm, (hentry .load "g").2 (by decide +kernel)⟩

/-- A comma in a string ends an item and moves all fields behind it. -/
theorem not_ofSources_text_comma :
    let l := Literal.small "a,b" (by decide)
    (Sources.single l.text).folder.read (Sources.single l.text).interfaceFile = .ok l.text ∧
      (ofSources (Sources.single l.text)).map (fun d => (d.info.description, d.info.parameterTable, d.info.modelParameterTable)) =
        .ok ("a", "1", "2") ∧
      (l.description.text, l.parameterTable.text, l.modelParameterTable.text) = ("a,b", "p", "m") := by
  intro l
  exact ⟨by decide +kernel, by decide +kernel, rfl⟩

end Device

end DeviceForge
