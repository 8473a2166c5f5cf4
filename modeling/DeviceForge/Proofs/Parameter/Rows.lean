import DeviceForge.Parameter.Descriptor
import DeviceForge.Proofs.Code.Parts
import DeviceForge.Proofs.Pattern.Fixed
import DeviceForge.Proofs.Segment.Uncommented
import DeviceForge.Proofs.Table
/-!
# Reading back parameter tables

An `Entry` is a row of a parameter table as it is meant.
-/

namespace DeviceForge.Parameter

open List Option Segment Text String Code Pattern Token

open Token (Shapes word sign)

variable {ds : List Descriptor} {d old : Descriptor} {id name w s tail flag object : String}
  {t brace close stop comma : Token} {ts as rest body bs us fs before : List Token} {f v : List Char}
  {e : Entry} {entries : List Entry} {trailing : Bool}

/-! ## Rows with one id -/

def Row.descriptor (r : Row) (type : ValueType) : Descriptor :=
  ⟨r.id, r.access, [r.name], type, r.description⟩

/-- What descriptors say about one id: the first of them decides on everything but the names. -/
def describe? (ds : List Descriptor) (id : String) : Option (String × Descriptor) :=
  (ds.find? (·.id = id)).map fun d => (id, { d with names := ((ds.filter (·.id = id)).flatMap (·.names)).eraseDups })

/-- One descriptor for each id, in the order of the first one with this id. -/
def grouped (ds : List Descriptor) : Table Descriptor :=
  (ds.map (·.id)).eraseDups.filterMap (describe? ds)

lemma describe?_concat_of_ne (h : id ≠ d.id) : describe? (ds ++ [d]) id = describe? ds id := by
  have hne : d.id ≠ id := Ne.symm h
  simp [describe?, List.find?_append, filter_append, hne]

lemma describe?_concat_self (hname : d.names = [name]) (h : describe? ds d.id = some (d.id, old)) :
    describe? (ds ++ [d]) d.id = some (d.id, { old with names := Names.add old.names name }) := by
  obtain ⟨first, hfind, hold⟩ := map_eq_some_iff.1 h
  obtain rfl := (Prod.mk.inj hold).2
  rw [describe?, List.find?_append, hfind, some_or, map_some, filter_append, flatMap_append]
  simp [hname, Names.eraseDups_concat]

lemma exists_describe? (h : id ∈ ds.map (·.id)) : ∃ d, describe? ds id = some (id, d) := by
  obtain ⟨d, hd, rfl⟩ := mem_map.1 h
  have hsome : (ds.find? (·.id = d.id)).isSome := find?_isSome.2 ⟨d, hd, by simp⟩
  obtain ⟨first, hfirst⟩ := isSome_iff_exists.1 hsome
  exact ⟨_, by rw [describe?, hfirst]; rfl⟩

lemma keys_grouped (ds : List Descriptor) : (grouped ds).keys = (ds.map (·.id)).eraseDups := by
  have hfst : ∀ id ∈ (ds.map (·.id)).eraseDups, (describe? ds id).map (·.1) = some id := by
    intro id hid
    obtain ⟨d, hd⟩ := exists_describe? (mem_eraseDups.1 hid)
    rw [hd]
    rfl
  rw [Table.keys, grouped, map_filterMap, filterMap_congr hfst, filterMap_some]

lemma addRow_grouped (ds : List Descriptor) (r : Row) (type : ValueType) :
    addRow (grouped ds) r type = grouped (ds ++ [r.descriptor type]) := by
  have hids : r.id ∈ (grouped ds).keys ↔ r.id ∈ ds.map (·.id) := by rw [keys_grouped, mem_eraseDups]
  have hmore : ((ds ++ [r.descriptor type]).map (·.id)).eraseDups = Names.add (ds.map (·.id)).eraseDups r.id := by
    rw [map_append, map_singleton, Names.eraseDups_concat]
    rfl
  have hothers : ∀ id, id ≠ r.id → describe? (ds ++ [r.descriptor type]) id = describe? ds id :=
    fun id hid => describe?_concat_of_ne hid
  unfold addRow Table.putNew
  by_cases hold : r.id ∈ ds.map (·.id)
  · rw [if_pos (Table.has_iff.2 (hids.2 hold)), grouped, grouped, hmore, Names.add,
      if_pos (contains_iff_mem.2 (mem_eraseDups.2 hold)), Table.adjust, map_filterMap]
    refine filterMap_congr fun id hid => ?_
    obtain ⟨old, hentry⟩ := exists_describe? (mem_eraseDups.1 hid)
    by_cases heq : id = r.id
    · subst heq
      have hself : describe? (ds ++ [r.descriptor type]) r.id = _ := describe?_concat_self (d := r.descriptor type) rfl hentry
      rw [hentry, hself]
      simp [Row.descriptor]
    · rw [hothers id heq, hentry]
      simp [heq]
  · have hlast : describe? (ds ++ [r.descriptor type]) r.id = some (r.id, r.descriptor type) := by
      have hnone : ds.find? (fun d => decide (d.id = r.id)) = none :=
        find?_eq_none.2 fun d hd => by simpa using fun heq => hold (mem_map.2 ⟨d, hd, heq⟩)
      have hempty : ds.filter (fun d => decide (d.id = r.id)) = [] :=
        filter_eq_nil_iff.2 fun d hd => by simpa using fun heq => hold (mem_map.2 ⟨d, hd, heq⟩)
      simp [describe?, List.find?_append, filter_append, hnone, hempty, Row.descriptor, eraseDups_cons]
    rw [if_neg (fun h => hold (hids.1 (Table.has_iff.1 h))), Table.adjust_append,
      Table.adjust_of_not_mem (fun h => hold (hids.1 h)), grouped, grouped, hmore, Names.add,
      if_neg (fun h => hold (mem_eraseDups.1 (contains_iff_mem.1 h))), filterMap_append]
    congr 1
    · refine filterMap_congr fun id hid => (hothers id fun heq => hold (heq ▸ mem_eraseDups.1 hid)).symm
    · rw [filterMap_cons_some hlast]
      simp [Table.adjust, Names.add, Row.descriptor]

lemma ofRows_eq (rows : List Row) : ofRows rows = (grouped (rows.filterMap fun r => r.type?.map r.descriptor),
      (rows.filter fun r => r.type?.isNone).map fun r => .unknownTypeFlag r.flags r.name) := by
  induction rows using reverseRecOn with
  | nil => rfl
  | append_singleton rows r ih =>
    unfold ofRows at ih ⊢
    rw [foldl_append, ih, foldl_cons, foldl_nil, filterMap_append, filter_append, map_append]
    cases htype : r.type? with
    | none => simp [htype]
    | some type => simp [htype, addRow_grouped]

/-- A row of a table as it is meant. The name and the description are what stands between the quotes. -/
structure Entry where
  access : String
  name : String
  id : String
  /-- The id is a number and not a word. -/
  numeric : Bool
  /-- The first flag and the others. -/
  flag : String
  others : List String
  description : String
  deriving DecidableEq

def string (s : String) : Token.Kind × String :=
  (.str, "\"" ++ s ++ "\"")

namespace Entry

/-- The first flag that names a type gives the type. -/
def type? (e : Entry) : Option ValueType :=
  (e.flag :: e.others).findSome? ValueType.ofFlag?

/-- What the entry says by itself, if it has a type. -/
def descriptor? (e : Entry) : Option Descriptor :=
  e.type?.map fun type => ⟨e.id, e.access, [e.name], type, e.description⟩

def flagShapes (e : Entry) : Shapes :=
  word e.flag :: e.others.flatMap fun flag => [sign "|", word flag]

def idShape (e : Entry) : Token.Kind × String :=
  (if e.numeric then .number else .identifier, e.id)

def shapes (e : Entry) : Shapes :=
  [word e.access, sign "(", string e.name, sign ",", e.idShape, sign ","] ++ e.flagShapes ++
    [sign ",", string e.description, sign ")"]

end Entry

def rowShapes (entries : List Entry) (trailing : Bool) : Shapes :=
  [sign ","].intercalate (entries.map Entry.shapes) ++ if trailing then [sign ","] else []

/-- The declaration of a table. -/
def tableShapes (object : String) (entries : List Entry) (trailing : Bool) : Shapes :=
  [word "IFparm", word object, sign "[", sign "]", sign "=", sign "\x7b"] ++ rowShapes entries trailing ++ [sign "\x7d", sign ";"]

/-- A word or a number. -/
def isWord (x : Token.Kind × String) : Bool :=
  x.1 = .identifier || x.1 = .number

def Apart (x y : Token.Kind × String) : Prop :=
  isWord x = true ∧ isWord y = true ∨ Token.joins x y = true

lemma apart_single (h : isSingle w) (y : Token.Kind × String) : Apart (sign w) y := by
  simp [Apart, joins, sign, h]

lemma single_apart (h : w.toList.head?.any isStop) (x : Token.Kind × String) : Apart x (sign w) := by
  simp [Apart, joins, sign, h]

lemma isChain_single (h : isSingle w) (h' : w.toList.head?.any isStop)
    {as bs : Shapes} (has : as.IsChain Apart) (hbs : bs.IsChain Apart) : (as ++ sign w :: bs).IsChain Apart := by
  refine has.append (hbs.cons fun y _ => apart_single h y) fun x _ y hy => ?_
  obtain rfl := some.inj hy
  exact single_apart h' x

lemma isChain_flags (flag : String) (others : List String) :
    (word flag :: others.flatMap fun flag => [sign "|", word flag]).IsChain Apart := by
  induction others generalizing flag with
  | nil => exact .singleton _
  | cons other others ih =>
    have hbar : Apart (word flag) (sign "|") := by simp [Apart, joins, word, sign]
    have hword : Apart (sign "|") (word other) := by simp [Apart, joins, word, sign]
    exact .cons_cons hbar (.cons_cons hword (ih other))

lemma isChain_entry (e : Entry) : e.shapes.IsChain Apart := by
  have hflags := isChain_flags e.flag e.others
  have hname := isChain_single (w := ",") rfl rfl (.singleton (string e.name)) (isChain_single (w := ",") rfl rfl (.singleton e.idShape)
    (isChain_single (w := ",") rfl rfl hflags (isChain_single (w := ")") rfl rfl (.singleton (string e.description)) .nil)))
  have hall := isChain_single (w := "(") rfl rfl (.singleton (word e.access)) hname
  simpa [Entry.shapes, Entry.flagShapes] using hall

lemma isChain_rows (entries : List Entry) (trailing : Bool) : (rowShapes entries trailing).IsChain Apart := by
  have hrows : ([sign ","].intercalate (entries.map Entry.shapes)).IsChain Apart := by
    induction entries with
    | nil => exact .nil
    | cons e entries ih =>
      cases entries with
      | nil => simpa using isChain_entry e
      | cons e' entries => simpa using isChain_single (w := ",") rfl rfl (isChain_entry e) ih
  cases trailing with
  | false => simpa [rowShapes] using hrows
  | true => exact isChain_single (w := ",") rfl rfl hrows .nil

lemma isChain_table (object : String) (entries : List Entry) (trailing : Bool) :
    (tableShapes object entries trailing).IsChain Apart := by
  have hhead : [word "IFparm", word object].IsChain Apart := .cons_cons (.inl ⟨rfl, rfl⟩) (.singleton _)
  have hblock := isChain_single (w := "\x7b") rfl rfl (.singleton (sign "="))
    (isChain_single (w := "\x7d") rfl rfl (isChain_rows entries trailing) (isChain_single (w := ";") rfl rfl .nil .nil))
  have hall := isChain_single (w := "[") rfl rfl hhead (isChain_single (w := "]") rfl rfl .nil hblock)
  simpa [tableShapes] using hall

/-! ## The block of a table -/

lemma findCode_skip {p : Char → Bool} {xs : List (Char × Segment.Kind)} (h : ∀ x ∈ xs, x.2 = .code → p x.1 = false) (pos : Nat)
    (ys : List (Char × Segment.Kind)) :
    findCode p pos (xs ++ ys) = findCode p (pos + byteLength (xs.map (·.1))) ys := by
  induction xs generalizing pos with
  | nil => rfl
  | cons x xs ih =>
    obtain ⟨hx, hxs⟩ := forall_mem_cons.1 h
    rw [cons_append, findCode, if_neg (fun hcode => by rw [hx hcode.1] at hcode; cases hcode.2), ih hxs, map_cons,
      byteLength_cons, Nat.add_assoc]

lemma starts_iff_brace (c : Char) : (utf8EncodeChar c).head? = some '\x7b'.toNat.toUInt8 ↔ c = '\x7b' := by
  constructor
  · intro h
    exact (mem_utf8EncodeChar_of_ascii (by decide) c).1 (mem_of_mem_head? h)
  · rintro rfl
    decide

lemma ne_bracket_of_labelled {rest : List Char} (hlead : Token.Blank t.lead.toList)
    (hreads : Token.Reads t rest) {d : Char} (hd : isBracket d) (htext : t.text ≠ d.toString) :
    ∀ x ∈ labelledToken kind .code t, x.2 = .code → x.1 ≠ d := by
  intro x hx hcode
  rw [labelledToken, mem_append, List.mem_map, List.mem_map] at hx
  rcases hx with ⟨c, hc, rfl⟩ | ⟨c, hc, rfl⟩
  · exact ne_bracket_of_blank hd (hlead c hc)
  · rintro rfl
    exact htext (text_of_bracket hreads hcode hd hc)

lemma map_fst_labelled (ts : List Token) : (ts.flatMap (labelledToken kind .code)).map (·.1) = Token.chars ts := by
  rw [map_flatMap, Token.chars]
  refine flatMap_congr fun t _ => ?_
  simp [labelledToken, spelling, Function.comp_def]

lemma foldComments_code (h : ∀ t ∈ ts, t.isComment = false) (tail : String) :
    foldComments "" ts tail = ⟨ts, tail⟩ := by
  induction ts with
  | nil => simp [foldComments]
  | cons t ts ih =>
    obtain ⟨ht, hts⟩ := forall_mem_cons.1 h
    simp [foldComments, ht, ih hts]

lemma after_zero (cs : List Char) : Text.after 0 cs = (0, cs) := by
  cases cs <;> rfl

lemma marked_bracket {d : Char} (hall : Token.Legible (as ++ brace :: rest) tail.toList) (hbrace : brace.bare = sign d.toString) :
    ∃ xs ys, marked (chars (as ++ brace :: rest) ++ tail.toList) = xs ++ (d, .code) :: ys ∧
      xs.map (·.1) = Token.chars as ++ brace.lead.toList ∧
      ∀ c, isBracket c → (∀ t ∈ as, t.text ≠ c.toString) → ∀ x ∈ xs, x.2 = .code → x.1 ≠ c := by
  obtain ⟨hkind, htext⟩ := Prod.mk.inj hbrace
  refine ⟨as.flatMap (labelledToken kind .code) ++ brace.lead.toList.map (·, .code),
    rest.flatMap (labelledToken kind .code) ++ tail.toList.map (·, .code), ?_, ?_, fun c hc has x hx hcode => ?_⟩
  · rw [marked_scan (scan_of_legible hall), flatMap_append, flatMap_cons, labelledToken, htext, hkind]
    simp [Token.Kind.segment, Char.toString]
  · rw [map_append, map_fst_labelled]
    simp [Function.comp_def]
  · rcases mem_append.1 hx with hx | hx
    · obtain ⟨t, ht, hx⟩ := mem_flatMap.1 hx
      obtain ⟨more, hreads⟩ := hall.reads t (mem_append_left _ ht)
      exact ne_bracket_of_labelled (hall.blank t (mem_append_left _ ht)) hreads hc (has t ht) x hx hcode
    · obtain ⟨b, hb, rfl⟩ := List.mem_map.1 hx
      exact ne_bracket_of_blank hc (hall.blank brace (by simp) b hb)

lemma find?_brace (hscan : scan s.toList = (as ++ brace :: rest, tail))
    (hbrace : brace.bare = sign "\x7b") (has : ∀ t ∈ as, t.text ≠ "\x7b") :
    Segment.find? s 0 '\x7b'.toNat.toUInt8 = some (byteLength (Token.chars as ++ brace.lead.toList)) := by
  obtain ⟨xs, ys, hmarked, hxs, hne⟩ := marked_bracket (d := '\x7b') (legible_of_scan hscan) hbrace
  have hskip : ∀ x ∈ xs, x.2 = .code → decide ((utf8EncodeChar x.1).head? = some '\x7b'.toNat.toUInt8) = false :=
    fun x hx hcode => decide_eq_false fun hstarts => hne '\x7b' (by decide) has x hx hcode ((starts_iff_brace x.1).1 hstarts)
  rw [Segment.find?, after_zero]
  simp only [if_true]
  rw [chars_scan hscan, hmarked, findCode_skip hskip, findCode, if_pos ⟨rfl, by decide⟩, hxs, Nat.zero_add]

lemma closingIn_brace (hall : Token.Legible (body ++ close :: bs) tail.toList)
    (hclose : close.bare = sign "\x7d") (hbody : ∀ t ∈ body, t.text ≠ "\x7b" ∧ t.text ≠ "\x7d") :
    closingIn .curly 1 (marked (chars (body ++ close :: bs) ++ tail.toList)) =
      some (Token.chars body ++ close.lead.toList).length := by
  obtain ⟨xs, ys, hmarked, hxs, hne⟩ := marked_bracket (d := '\x7d') hall hclose
  rw [hmarked, closingIn_skip, Segment.closingIn, if_pos ⟨rfl, rfl⟩, if_pos rfl, ← hxs, List.length_map]
  · simp
  · exact fun x hx hcode => ⟨hne '\x7d' (by decide) (fun t ht => (hbody t ht).2) x hx hcode,
      hne '\x7b' (by decide) (fun t ht => (hbody t ht).1) x hx hcode⟩

lemma readTable_block (hscan : Token.scan (removeComments s).toList = (as ++ brace :: (body ++ close :: bs), tail))
    (hbrace : brace.bare = sign "\x7b") (hclose : close.bare = sign "\x7d")
    (has : ∀ t ∈ as, t.text ≠ "\x7b") (hbody : ∀ t ∈ body, t.text ≠ "\x7b" ∧ t.text ≠ "\x7d")
    (hlegible : Token.Legible body close.lead.toList) (hcode : ∀ t ∈ body, t.isComment = false) :
    readTable s = .ok (ofRows ((rowPattern.findAll body).map Row.ofMatch)) := by
  have hrest := (Token.legible_of_scan hscan).drop
  have htext : (removeComments s).toList =
      Token.chars as ++ brace.lead.toList ++ Bracket.curly.opening :: (Token.chars (body ++ close :: bs) ++ tail.toList) := by
    rw [Token.chars_scan hscan, Token.chars_append, Token.chars_cons, (Prod.mk.inj hbrace).2]
    simp [Bracket.opening]
  have henclosed : enclosed (removeComments s) (byteLength (Token.chars as ++ brace.lead.toList)) =
      .ok (Token.chars body ++ close.lead.toList) := by
    have hpost : Token.chars (body ++ close :: bs) ++ tail.toList =
        Token.chars body ++ close.lead.toList ++ (close.text.toList ++ (Token.chars bs ++ tail.toList)) := by simp
    rw [enclosed_eq htext, closingIn_brace hrest.2.2 hclose hbody, hpost]
    exact congrArg Except.ok take_left
  have hblock : Code.ofString (ofList (Token.chars body ++ close.lead.toList)) = ⟨body, close.lead⟩ := by
    rw [Code.ofString, toList_ofList, Token.scan_of_legible hlegible, ofList_toList]
    exact foldComments_code hcode _
  unfold readTable
  simp only [find?_brace hscan hbrace has, henclosed]
  change Except.ok _ = _
  rw [hblock]

/-! ## Flags -/

structure Laid (ts : List Token) : Prop where
  tokens : ∀ t ∈ ts, Token.Blank t.lead.toList ∧ (∃ rest, Token.Reads t rest) ∧ t.isComment = false
  closed : ∀ t ∈ ts, t.isClosed = true
  chain : ts.IsChain fun t u => u.lead = "" → Token.joins t.bare u.bare = true

lemma Laid.legible (h : Laid ts) {tail : List Char} (htail : Token.Blank tail) : Token.Legible ts tail :=
  legible_of_joins h.tokens h.closed htail h.chain

lemma Laid.within (h : Laid ts) (hus : us <:+: ts) : Laid us :=
  ⟨fun t ht => h.tokens t (hus.subset ht), fun t ht => h.closed t (hus.subset ht), h.chain.infix hus⟩

lemma Laid.identifier (h : Laid ts) (ht : t ∈ ts) (hw : t.bare = word w) : isIdentifierText w := by
  obtain ⟨hkind, rfl⟩ := Prod.mk.inj hw
  obtain ⟨rest, hreads⟩ := (h.tokens t ht).2.1
  exact isIdentifierText_of_reads hreads hkind

lemma trim_identifier {w : List Char} (hw : Token.Blank w) (hv : Token.Blank v) (hf : isIdentifierText (ofList f)) :
    Text.trim (ofList (w ++ (f ++ v))) = ofList f := by
  have hchars := wordChar_of_identifier hf
  rw [toList_ofList] at hchars
  have hspace {c : Char} (hc : c ∈ f) : isSpace c = false := not_space_of_wordChar (hchars c hc)
  refine trim_padded hw.spaces hv.spaces (fun c hc => hspace (mem_of_mem_head? hc)) (fun c hc => hspace (mem_of_getLast? hc)) ?_
  rintro rfl
  cases hf

lemma bar_not_mem {w : List Char} (hw : Token.Blank w) (hv : Token.Blank v)
    (hf : isIdentifierText (ofList f)) : ∀ c ∈ w ++ (f ++ v), (c == '|') = false := by
  have hblank {u : List Char} (hu : Token.Blank u) : ∀ c ∈ u, (c == '|') = false := by
    intro c hc
    have hbar : c ≠ '|' := by rintro rfl; cases hu _ hc
    simpa using hbar
  have hchars := wordChar_of_identifier hf
  rw [toList_ofList] at hchars
  intro c hc
  rcases mem_append.1 hc with hc | hc
  · exact hblank hw c hc
  rcases mem_append.1 hc with hc | hc
  · have hbar : c ≠ '|' := by rintro rfl; cases hchars _ hc
    simpa using hbar
  · exact hblank hv c hc

lemma split_flags {w : List Char} (hw : Token.Blank w) {f : Token} {others : List String}
    (hf : f.bare = word flag) (hfs : fs.map bare = others.flatMap fun flag => [sign "|", word flag])
    (h : Laid (f :: fs)) :
    (splitOnP (· == '|') (w ++ (f.text.toList ++ Token.chars fs))).map (fun cs => Text.trim (ofList cs)) = flag :: others := by
  have hflag := h.identifier mem_cons_self hf
  obtain ⟨-, rfl⟩ := Prod.mk.inj hf
  rw [← ofList_toList (s := f.text)] at hflag
  induction others generalizing w f fs with
  | nil =>
    obtain rfl : fs = [] := map_eq_nil_iff.1 hfs
    have hnil : Token.Blank [] := by simp [Token.Blank]
    rw [chars_nil, splitOnP_eq_singleton (bar_not_mem hw hnil hflag), map_singleton, trim_identifier hw hnil hflag,
      ofList_toList]
  | cons other others ih =>
    obtain ⟨bar, g, gs, rfl, hbar, hg, hgs⟩ : ∃ bar g gs, fs = bar :: g :: gs ∧ bar.bare = sign "|" ∧ g.bare = word other ∧
        gs.map bare = others.flatMap fun flag => [sign "|", word flag] := by
      rw [flatMap_cons, cons_append, cons_append, nil_append, map_eq_cons_iff] at hfs
      obtain ⟨bar, fs, rfl, hbar, hfs⟩ := hfs
      obtain ⟨g, gs, rfl, hg, hgs⟩ := map_eq_cons_iff.1 hfs
      exact ⟨bar, g, gs, rfl, hbar, hg, hgs⟩
    have hrest : Laid (g :: gs) := h.within ⟨[f, bar], [], by simp⟩
    have hbarlead := (h.tokens bar (by simp)).1
    have hchars : w ++ (f.text.toList ++ chars (bar :: g :: gs)) =
        w ++ (f.text.toList ++ bar.lead.toList) ++ '|' :: (g.lead.toList ++ (g.text.toList ++ chars gs)) := by
      rw [chars_cons, (Prod.mk.inj hbar).2]
      simp
    have hother := hrest.identifier mem_cons_self hg
    obtain ⟨-, rfl⟩ := Prod.mk.inj hg
    rw [← ofList_toList (s := g.text)] at hother
    rw [hchars, splitOnP_append_cons_of_forall_mem (bar_not_mem hw hbarlead hflag) '|' rfl, map_cons,
      trim_identifier hw hbarlead hflag, ofList_toList, ih (hrest.tokens g mem_cons_self).1 hgs hrest hg hother]

lemma mem_flagShapes {x : Token.Kind × String} (h : x ∈ e.flagShapes) :
    (∃ w, x = word w) ∨ x = sign "|" := by
  rcases mem_cons.1 h with rfl | h
  · exact .inl ⟨_, rfl⟩
  · obtain ⟨w, -, h⟩ := mem_flatMap.1 h
    rcases mem_cons.1 h with rfl | h
    · exact .inr rfl
    · exact .inl ⟨w, mem_singleton.1 h⟩

lemma type?_of_flags (h : fs.map bare = e.flagShapes) (hlaid : Laid fs) (access name id description : String) :
    (Row.mk access name id (Code.span fs) description).type? = e.type? := by
  obtain ⟨f, fs, rfl, hf, hfs⟩ := map_eq_cons_iff.1 h
  have hsplit := split_flags (w := []) (by simp [Token.Blank]) hf hfs hlaid
  have hspan : (span (f :: fs)).toList = [] ++ (f.text.toList ++ chars fs) := by
    rw [Code.span, toList_append, toList_spell, nil_append]
  rw [Row.type?, Text.split, hspan, splitAtChars_eq_splitOnP, findSome?_map, Entry.type?, ← hsplit, findSome?_map]
  rfl

lemma shapes_of_flags (h : fs.map bare = e.flagShapes) (hlaid : Laid fs) : shapes (span fs) = e.flagShapes := by
  have hnil : Token.Blank [] := by simp [Token.Blank]
  have hopens : Code.Opens fs "" := opens_of_blank (hlaid.legible hnil).opens fun t ht => (hlaid.tokens t ht).2.2
  have hcode : ∀ t ∈ fs, t.kind.segment = .code := by
    intro t ht
    have hshape : t.bare ∈ e.flagShapes := h ▸ mem_map_of_mem ht
    rcases mem_flagShapes hshape with ⟨w, hw⟩ | hbar
    · rw [(Prod.mk.inj hw).1]
      rfl
    · rw [(Prod.mk.inj hbar).1]
      rfl
  have hspelled := spelled_span hopens hcode "" (by simp [Token.Halts])
  rw [append_empty] at hspelled
  rw [hspelled, h, shapes_empty, append_nil]

/-! ## Matching a row -/

lemma elements_rowPattern : rowPattern.elements =
    [.single .identifier "access", .literal "(", .run "name", .literal ",", .single .atom "id", .literal ",", .run "ty", .literal ",",
      .run "desc", .literal ")"] := by
  decide +kernel

lemma isSingle_word (h : isIdentifierText w) : isSingle w = false := by
  have hchars := wordChar_of_identifier h
  unfold isSingle
  split
  · next c hc =>
    have hword := hchars c (by simp [hc])
    refine decide_eq_false fun hmem => ?_
    simp only [mem_cons, not_mem_nil, or_false] at hmem
    rcases hmem with rfl | rfl | rfl | rfl | rfl | rfl | rfl | rfl <;> cases hword
  · rfl

lemma isSingle_string (s : String) : isSingle (string s).2 = false := by
  unfold isSingle
  split
  · next c hc => simp [string] at hc
  · rfl

lemma isRun_plain {w : List Token} (hw : w ≠ []) (h : ∀ t ∈ w, isSingle t.text = false)
    (hstop : isSingle stop.text) (rest : List Token) : Pattern.IsRun [] (some stop.text) w (stop :: rest) := by
  refine isRun_flat hw (fun t ht => ?_) rest
  have hne {s : String} (hs : isSingle s) : t.text ≠ s := by
    rintro rfl
    simp [h t ht] at hs
  refine ⟨?_, ?_, hne rfl, hne hstop⟩
  · simp [isOpening, hne (s := "(") rfl, hne (s := "[") rfl, hne (s := "\x7b") rfl]
  · simp [isClosing, hne (s := ")") rfl, hne (s := "]") rfl, hne (s := "\x7d") rfl]

structure Row.Spells (r : Row) (e : Entry) : Prop where
  access : r.access = e.access
  name : r.name = e.name
  id : r.id = e.id
  type? : r.type? = e.type?
  flags : Code.shapes r.flags = e.flagShapes
  description : r.description = e.description

lemma unquote_string (s : String) : unquote ("\"" ++ s ++ "\"") = s := by
  have hquote : Text.isSpace '"' = false := by decide
  have htrim : Text.trim (ofList ('"' :: s.toList ++ ['"'])) = ofList ('"' :: s.toList ++ ['"']) := by
    have hpad : Text.trim (ofList ([] ++ (('"' :: s.toList ++ ['"']) ++ []))) = ofList ('"' :: s.toList ++ ['"']) :=
      trim_padded (by simp) (by simp) (by simp [hquote]) (by rw [getLast?_concat]; simp [hquote]) (by simp)
    simpa using hpad
  have hstring : "\"" ++ s ++ "\"" = ofList ('"' :: s.toList ++ ['"']) := by
    apply toList_injective
    simp
  rw [unquote, hstring, htrim]
  simp

lemma flat_string (h : t.bare = string s) : ∀ u ∈ [t], isSingle u.text = false := by
  intro u hu
  rw [mem_singleton.1 hu]
  change isSingle t.bare.2 = false
  rw [h]
  exact isSingle_string s

lemma flat_flags (h : fs.map bare = e.flagShapes) (hlaid : Laid fs) : ∀ t ∈ fs, isSingle t.text = false := by
  intro t ht
  have hshape : t.bare ∈ e.flagShapes := h ▸ mem_map_of_mem ht
  rcases mem_flagShapes hshape with ⟨w, hw⟩ | hbar
  · have hword := isSingle_word (hlaid.identifier ht hw)
    rwa [← (Prod.mk.inj hw).2] at hword
  · rw [(Prod.mk.inj hbar).2]
    rfl

lemma bindAll_row (access opening name comma id comma' comma'' description closing : Token) (flags : List Token) :
    bindAll [] (bindings 0 rowPattern.elements
      [[access], [opening], [name], [comma], [id], [comma'], flags, [comma''], [description], [closing]]) =
      some [("access", ⟨0, [access]⟩), ("name", ⟨2, [name]⟩), ("id", ⟨4, [id]⟩), ("ty", ⟨6, flags⟩),
        ("desc", ⟨7 + flags.length, [description]⟩)] := by
  have hbindings : bindings 0 rowPattern.elements
      [[access], [opening], [name], [comma], [id], [comma'], flags, [comma''], [description], [closing]] =
      [("access", ⟨0, [access]⟩), ("name", ⟨2, [name]⟩), ("id", ⟨4, [id]⟩), ("ty", ⟨6, flags⟩),
        ("desc", ⟨7 + flags.length, [description]⟩)] := by
    rw [elements_rowPattern]
    simp [bindings, captured]
    omega
  rw [hbindings]
  simp [bindAll_cons, lookup_cons]
  rfl

lemma ofMatch_row (before window rest flags : List Token) (access name id description : Token) (n : Nat) :
    Row.ofMatch ⟨before, window, rest, [("access", ⟨0, [access]⟩), ("name", ⟨2, [name]⟩), ("id", ⟨4, [id]⟩), ("ty", ⟨6, flags⟩),
      ("desc", ⟨n, [description]⟩)]⟩ = ⟨access.text, unquote name.text, id.text, Code.span flags, unquote description.text⟩ := by
  simp [Row.ofMatch, Match.text, Match.capture?, Capture.text, Code.span, spell_nil, lookup_cons]

lemma matchAt?_entry (h : ts.map bare = e.shapes) (hlaid : Laid ts) (before rest : List Token) :
    ∃ m, rowPattern.matchAt? before (ts ++ rest) = some m ∧ m.window = ts ∧ (Row.ofMatch m).Spells e := by
  simp only [Entry.shapes, cons_append, nil_append] at h
  obtain ⟨access, ts, rfl, haccess, h⟩ := map_eq_cons_iff.1 h
  obtain ⟨opening, ts, rfl, hopening, h⟩ := map_eq_cons_iff.1 h
  obtain ⟨name, ts, rfl, hname, h⟩ := map_eq_cons_iff.1 h
  obtain ⟨comma, ts, rfl, hcomma, h⟩ := map_eq_cons_iff.1 h
  obtain ⟨id, ts, rfl, hid, h⟩ := map_eq_cons_iff.1 h
  obtain ⟨comma', ts, rfl, hcomma', h⟩ := map_eq_cons_iff.1 h
  obtain ⟨flags, ts, rfl, hflags, h⟩ := map_eq_append_iff.1 h
  obtain ⟨comma'', ts, rfl, hcomma'', h⟩ := map_eq_cons_iff.1 h
  obtain ⟨description, ts, rfl, hdescription, h⟩ := map_eq_cons_iff.1 h
  obtain ⟨closing, rfl, hclosing⟩ := map_eq_singleton_iff.1 h
  have hne : flags ≠ [] := by
    rintro rfl
    cases hflags
  have hlaidFlags : Laid flags := hlaid.within ⟨[access, opening, name, comma, id, comma'], [comma'', description, closing], by simp⟩
  have hrun {w : List Token} (hw : w ≠ []) (hflat : ∀ t ∈ w, isSingle t.text = false) {t : Token} {stop : String}
      (ht : t.bare = sign stop) (hstop : isSingle stop) (rest : List Token) : Pattern.IsRun [] (some stop) w (t :: rest) := by
    obtain ⟨-, rfl⟩ := Prod.mk.inj ht
    exact isRun_plain hw hflat hstop rest
  have hwindows : Windows rowPattern.elements
      [[access], [opening], [name], [comma], [id], [comma'], flags, [comma''], [description], [closing]] rest := by
    rw [elements_rowPattern]
    refine ⟨⟨access, rfl, ?_⟩, ⟨opening, rfl, (Prod.mk.inj hopening).2⟩, hrun (by simp) (flat_string hname) hcomma rfl _,
      ⟨comma, rfl, (Prod.mk.inj hcomma).2⟩, ⟨id, rfl, ?_⟩, ⟨comma', rfl, (Prod.mk.inj hcomma').2⟩,
      hrun hne (flat_flags hflags hlaidFlags) hcomma'' rfl _, ⟨comma'', rfl, (Prod.mk.inj hcomma'').2⟩,
      hrun (by simp) (flat_string hdescription) hclosing rfl _, ⟨closing, rfl, (Prod.mk.inj hclosing).2⟩, trivial⟩
    · rw [(Prod.mk.inj haccess).1]
      rfl
    · rw [(Prod.mk.inj hid).1]
      cases e.numeric <;> rfl
  have hbind := bindAll_row access opening name comma id comma' comma'' description closing flags
  refine ⟨_, (matchAt?_eq_some_iff (by simp [elements_rowPattern])).2 ⟨_, rest, _, ?_, hwindows, hbind, rfl⟩, ?_, ?_⟩
  · simp
  · simp
  · rw [ofMatch_row]
    refine ⟨(Prod.mk.inj haccess).2, ?_, (Prod.mk.inj hid).2, type?_of_flags hflags hlaidFlags _ _ _ _, shapes_of_flags hflags hlaidFlags, ?_⟩
    · dsimp only
      rw [(Prod.mk.inj hname).2, unquote_string]
    · dsimp only
      rw [(Prod.mk.inj hdescription).2, unquote_string]

/-! ## All rows -/

lemma findAllFrom_nil (p : Pattern) (n : Nat) (before : List Token) : p.findAllFrom n before [] = [] := by
  rw [findAllFrom]

lemma findAllFrom_skip (p : Pattern) (us before rest : List Token) :
    p.findAllFrom us.length before (us ++ rest) = p.findAllFrom 0 (us.reverse ++ before) rest := by
  induction us generalizing before with
  | nil => rfl
  | cons u us ih =>
    rw [length_cons, cons_append, findAllFrom, ih, reverse_cons, List.append_assoc]
    rfl

lemma findAllFrom_match {p : Pattern} {m : Match} (h : p.matchAt? before (us ++ rest) = some m)
    (hwindow : m.window = us) (hne : us ≠ []) :
    p.findAllFrom 0 before (us ++ rest) = m :: p.findAllFrom 0 (us.reverse ++ before) rest := by
  cases us with
  | nil => exact absurd rfl hne
  | cons u us =>
    rw [cons_append] at h ⊢
    rw [findAllFrom, h]
    simp only [hwindow, length_cons, Nat.add_sub_cancel]
    rw [findAllFrom_skip, reverse_cons, List.append_assoc]
    rfl

lemma findAllFrom_comma (h : comma.bare = sign ",") (before rest : List Token) :
    rowPattern.findAllFrom 0 before (comma :: rest) = rowPattern.findAllFrom 0 (comma :: before) rest := by
  have hnone : rowPattern.matchAt? before (comma :: rest) = none := by
    rw [matchAt?, elements_rowPattern, matchElements, (Prod.mk.inj h).1]
    rfl
  rw [findAllFrom, hnone]

lemma rowShapes_cons (e : Entry) (entries : List Entry) (trailing : Bool) :
    rowShapes (e :: entries) trailing = e.shapes ∧ entries = [] ∨
      ∃ trailing', rowShapes (e :: entries) trailing = e.shapes ++ sign "," :: rowShapes entries trailing' := by
  cases entries with
  | nil =>
    cases trailing with
    | false => exact .inl ⟨by simp [rowShapes], rfl⟩
    | true => exact .inr ⟨false, by simp [rowShapes]⟩
  | cons e' entries => exact .inr ⟨trailing, by simp [rowShapes]⟩

lemma rows_spell (h : ts.map bare = rowShapes entries trailing) (hlaid : Laid ts) (before : List Token) :
    Forall₂ Row.Spells ((rowPattern.findAllFrom 0 before ts).map Row.ofMatch) entries := by
  induction entries generalizing trailing ts before with
  | nil =>
    cases trailing with
    | false =>
      obtain rfl : ts = [] := map_eq_nil_iff.1 h
      rw [findAllFrom_nil]
      exact .nil
    | true =>
      obtain ⟨comma, rfl, hcomma⟩ := map_eq_singleton_iff.1 h
      rw [findAllFrom_comma hcomma, findAllFrom_nil]
      exact .nil
  | cons e entries ih =>
    obtain ⟨us, vs, rfl, hus, hvs⟩ : ∃ us vs, ts = us ++ vs ∧ us.map bare = e.shapes ∧
        (vs = [] ∧ entries = [] ∨
          ∃ comma ws trailing', vs = comma :: ws ∧ comma.bare = sign "," ∧ ws.map bare = rowShapes entries trailing') := by
      rcases rowShapes_cons e entries trailing with ⟨hshapes, hnil⟩ | ⟨trailing', hshapes⟩
      · exact ⟨ts, [], by simp, h.trans hshapes, .inl ⟨rfl, hnil⟩⟩
      · obtain ⟨us, vs, rfl, hus, hvs⟩ := map_eq_append_iff.1 (h.trans hshapes)
        obtain ⟨comma, ws, rfl, hcomma, hws⟩ := map_eq_cons_iff.1 hvs
        exact ⟨us, _, rfl, hus, .inr ⟨comma, ws, trailing', rfl, hcomma, hws⟩⟩
    obtain ⟨m, hmatch, hwindow, hspells⟩ := matchAt?_entry hus (hlaid.within (prefix_append us vs).isInfix) before vs
    have hne : us ≠ [] := by
      rintro rfl
      cases hus
    rw [findAllFrom_match hmatch hwindow hne, map_cons]
    refine .cons hspells ?_
    rcases hvs with ⟨rfl, rfl⟩ | ⟨comma, ws, trailing', rfl, hcomma, hws⟩
    · rw [findAllFrom_nil]
      exact .nil
    · rw [findAllFrom_comma hcomma]
      exact ih hws (hlaid.within ⟨us ++ [comma], [], by simp⟩) _

lemma ofRows_spells {rows : List Row} (h : Forall₂ Row.Spells rows entries) :
    (ofRows rows).1 = grouped (entries.filterMap Entry.descriptor?) ∧
      Forall₂ (fun e d => ∃ flags, d = Diagnostic.unknownTypeFlag flags e.name ∧ shapes flags = e.flagShapes)
        (entries.filter (·.type?.isNone)) (ofRows rows).2 := by
  rw [ofRows_eq]
  have hdescriptor {r : Row} {e : Entry} (hspells : r.Spells e) : r.type?.map r.descriptor = e.descriptor? := by
    obtain ⟨haccess, hname, hid, htype, -, hdescription⟩ := hspells
    unfold Entry.descriptor? Row.descriptor
    rw [htype, haccess, hname, hid, hdescription]
  constructor
  · refine congrArg grouped ?_
    induction h with
    | nil => rfl
    | cons hspells _ ih => rw [filterMap_cons, filterMap_cons, hdescriptor hspells, ih]
  · induction h with
    | nil => exact .nil
    | @cons r e rows entries hspells _ ih =>
      have htype := hspells.type?
      rw [filter_cons, filter_cons, htype]
      cases e.type?.isNone with
      | false => exact ih
      | true => exact .cons ⟨r.flags, congrArg _ hspells.name, hspells.flags⟩ ih

/-! ## The whole table -/

lemma laid_uncommented (htokens : shapes s = tableShapes object entries trailing)
    (hwords : (uncommented s).tokens.IsChain fun t u => isWord t.bare → isWord u.bare → u.lead ≠ "") :
    Laid (uncommented s).tokens := by
  have hshapes := (map_bare_uncommented s).trans htokens
  have hlegible : Token.Legible (ofString s) (scan s.toList).2.toList :=
    legible_of_scan (Prod.eta (scan s.toList)).symm
  obtain ⟨hleft, -⟩ := blank_dropComments (show Token.Blank "".toList by simp [Token.Blank]) hlegible
  refine ⟨hleft, ?_, ?_⟩
  · -- the last token is a semicolon, and the others end before it
    have hlast : (uncommented s).tokens.getLast?.map bare = some (sign ";") := by
      rw [← getLast?_map, hshapes, tableShapes, getLast?_append]
      rfl
    obtain ⟨last, hlast, hbare⟩ := map_eq_some_iff.1 hlast
    obtain ⟨init, htokens⟩ := getLast?_eq_some_iff.1 hlast
    have hinit : ∀ t ∈ (uncommented s).tokens.dropLast, t.isClosed := isClosed_dropComments hlegible
    rw [htokens, dropLast_concat] at hinit
    rw [htokens]
    intro t ht
    rcases mem_append.1 ht with ht | ht
    · exact hinit t ht
    · rw [mem_singleton.1 ht, isClosed, (Prod.mk.inj hbare).1]
  · have hapart := isChain_table object entries trailing
    rw [← hshapes, isChain_map] at hapart
    rw [isChain_iff_getElem] at hapart hwords ⊢
    intro i hi hlead
    rcases hapart i hi with ⟨hword, hword'⟩ | hjoins
    · exact absurd hlead (hwords i hi hword hword')
    · exact hjoins

lemma signs_entry (e : Entry) : ∀ x ∈ e.shapes, x.1 = .punct → x.2 ∈ ["(", ",", "|", ")"] := by
  have hflags : ∀ x ∈ e.flagShapes, x.1 = .punct → x.2 ∈ ["(", ",", "|", ")"] := by
    intro x hx
    rcases mem_flagShapes hx with ⟨w, rfl⟩ | rfl <;> simp [word, sign]
  have hid : e.idShape.1 ≠ .punct := by
    unfold Entry.idShape
    cases e.numeric <;> simp
  have hhead : ∀ x ∈ [word e.access, sign "(", string e.name, sign ",", e.idShape, sign ","], x.1 = .punct → x.2 ∈ ["(", ",", "|", ")"] := by
    simp [word, sign, string, hid]
  have hlast : ∀ x ∈ [sign ",", string e.description, sign ")"], x.1 = .punct → x.2 ∈ ["(", ",", "|", ")"] := by
    simp [sign, string]
  exact forall_mem_append.2 ⟨forall_mem_append.2 ⟨hhead, hflags⟩, hlast⟩

lemma signs_rows (entries : List Entry) (trailing : Bool) :
    ∀ x ∈ rowShapes entries trailing, x.1 = .punct → x.2 ∈ ["(", ",", "|", ")"] := by
  induction entries generalizing trailing with
  | nil => cases trailing <;> simp [rowShapes, sign]
  | cons e entries ih =>
    rcases rowShapes_cons e entries trailing with ⟨hshapes, -⟩ | ⟨trailing', hshapes⟩
    · rw [hshapes]
      exact signs_entry e
    · rw [hshapes]
      exact forall_mem_append.2 ⟨signs_entry e, forall_mem_cons.2 ⟨by simp [sign], ih trailing'⟩⟩

/-- A table is read back: one descriptor for each id that has a row with a type, in the order of the first of them, and one
finding for each row without a type. -/
theorem readTable_entries {s object : String} {entries : List Entry} {trailing : Bool}
    (htokens : Code.shapes s = tableShapes object entries trailing)
    (hwords : (uncommented s).tokens.IsChain fun t u => isWord t.bare = true → isWord u.bare = true → u.lead ≠ "") :
    ∃ findings, readTable s = .ok (grouped (entries.filterMap Entry.descriptor?), findings) ∧
      Forall₂ (fun e d => ∃ flags, d = Diagnostic.unknownTypeFlag flags e.name ∧ Code.shapes flags = e.flagShapes)
        (entries.filter (·.type?.isNone)) findings := by
  have hlaid := laid_uncommented htokens hwords
  have hscan := scan_removeComments hlaid.closed hlaid.chain
  have hshapes := (map_bare_uncommented s).trans htokens
  generalize (uncommented s).tokens = ts at hlaid hscan hshapes
  have htable : tableShapes object entries trailing = [word "IFparm", word object, sign "[", sign "]", sign "="] ++
      sign "\x7b" :: (rowShapes entries trailing ++ [sign "\x7d", sign ";"]) := by simp [tableShapes]
  rw [htable] at hshapes
  obtain ⟨as, ts, rfl, has, hshapes⟩ := map_eq_append_iff.1 hshapes
  obtain ⟨brace, ts, rfl, hbrace, hshapes⟩ := map_eq_cons_iff.1 hshapes
  obtain ⟨body, ts, rfl, hbody, hshapes⟩ := map_eq_append_iff.1 hshapes
  obtain ⟨close, ts, rfl, hclose, -⟩ := map_eq_cons_iff.1 hshapes
  have hlaidBody : Laid body := hlaid.within ⟨as ++ [brace], close :: ts, by simp⟩
  have hbracket {t : Token} (ht : t ∈ as ++ brace :: (body ++ close :: ts)) {d : Char} (hd : Token.isBracket d = true)
      (htext : t.text = d.toString) : t.bare = sign d.toString := by
    obtain ⟨rest, hreads⟩ := (hlaid.tokens t ht).2.1
    rw [Token.bare, Token.kind_of_bracket hreads hd htext, htext]
    rfl
  have hasBrace : ∀ t ∈ as, t.text ≠ "\x7b" := by
    intro t ht htext
    have hmem : t.bare ∈ as.map Token.bare := List.mem_map_of_mem ht
    rw [has, hbracket (d := '\x7b') (mem_append_left _ ht) (by decide) htext] at hmem
    simp [word, sign] at hmem
  have hbodyBrace {t : Token} (ht : t ∈ body) {d : Char} (hd : Token.isBracket d = true) (hne : d.toString ∉ ["(", ",", "|", ")"]) :
      t.text ≠ d.toString := by
    intro htext
    have hshape : t.bare ∈ rowShapes entries trailing := hbody ▸ List.mem_map_of_mem ht
    rw [hbracket (by simp [ht]) hd htext] at hshape
    exact hne (signs_rows entries trailing _ hshape rfl)
  have hread := readTable_block hscan hbrace hclose hasBrace (fun t ht => ⟨hbodyBrace (d := '\x7b') ht (by decide) (by decide),
    hbodyBrace (d := '\x7d') ht (by decide) (by decide)⟩) (hlaidBody.legible (hlaid.tokens close (by simp)).1)
    fun t ht => (hlaidBody.tokens t ht).2.2
  obtain ⟨htable, hfindings⟩ := ofRows_spells (rows_spell hbody hlaidBody [])
  refine ⟨_, ?_, hfindings⟩
  rw [hread, ← htable]
  rfl

/-- Comments between tokens, two names of one id, brackets and a comment mark in strings, and a row without a type. -/
def tableText : String :=
  "IFparm T[]=\x7bIOP(\"a,/*\",A,IF_REAL,\"(m)\"),//\nIP(\"b\",A,/*R*/R|IF_FLAG,\"\\\"\x7d\"),OP(\"c\",7,R,\"\"),\x7d;"

def tableEntries : List Entry :=
  [⟨"IOP", "a,/*", "A", false, "IF_REAL", [], "(m)"⟩, ⟨"IP", "b", "A", false, "R", ["IF_FLAG"], "\\\"\x7d"⟩,
    ⟨"OP", "c", "7", true, "R", [], ""⟩]

theorem readTable_entries_text :
    ∃ flags, readTable tableText = .ok ([("A", ⟨"A", "IOP", ["a,/*", "b"], .real, "(m)"⟩)], [.unknownTypeFlag flags "c"]) := by
  have htext : (uncommented tableText).tokens.map Token.bare = tableShapes "T" tableEntries true ∧
      (uncommented tableText).tokens.IsChain fun t u => isWord t.bare = true → isWord u.bare = true → u.lead ≠ "" := by
    decide +kernel
  obtain ⟨findings, hread, hfindings⟩ := readTable_entries ((map_bare_uncommented tableText).symm.trans htext.1) htext.2
  have htable : grouped (tableEntries.filterMap Entry.descriptor?) = [("A", ⟨"A", "IOP", ["a,/*", "b"], .real, "(m)"⟩)] := by
    decide +kernel
  have hothers : tableEntries.filter (·.type?.isNone) = [⟨"OP", "c", "7", true, "R", [], ""⟩] := by
    decide +kernel
  rw [hothers] at hfindings
  obtain ⟨finding, rest, ⟨flags, rfl, -⟩, hrest, rfl⟩ := forall₂_cons_left_iff.1 hfindings
  obtain rfl := forall₂_nil_left_iff.1 hrest
  exact ⟨flags, by rw [hread, htable]⟩

end DeviceForge.Parameter
