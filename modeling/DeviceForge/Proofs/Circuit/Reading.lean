import DeviceForge.Proofs.Circuit.Expression
import DeviceForge.Proofs.Pattern.Fixed
/-!
# Reading increments

A statement that adds an expression to a matrix element is recognised as a stamp with the text of its expression
(`read?_increment`), and code of such statements alone falls into their stamps (`pieces_increments`).
-/

namespace DeviceForge

open Token List Pattern

namespace Circuit

open Expr (op)

namespace Stamp

variable {t u assign semicolon : Token} {xs ys : List Shape} {a b target row column rest text : String}
  {l : Expr.Level} {us ts cell vs : List Token} {e : Expr .sum} {sign : Sign}

/-! ## The length of a value -/

lemma valueLength?_skip (h : t.text ∉ ["(", "[", ")", "]", "\x7b", "\x7d", ";"]) (depth : Nat)
    (ts : List Token) : valueLength? depth (t :: ts) = (valueLength? depth ts).map (· + 1) := by
  simp only [mem_cons, not_mem_nil, or_false, not_or] at h
  simp [valueLength?, h]

def Passed (xs : List Shape) : Prop :=
  ∀ (us rest : List Token) (depth : Nat), us.map Token.bare = xs → (∀ u ∈ us, ∃ cs, Token.Reads u cs) →
    valueLength? depth (us ++ rest) = (valueLength? depth rest).map (· + us.length)

lemma passed_nil : Passed [] := by
  intro us rest depth hus _
  obtain rfl := map_eq_nil_iff.1 hus
  simp

lemma Passed.append (hxs : Passed xs) (hys : Passed ys) : Passed (xs ++ ys) := by
  intro us rest depth hus hreads
  obtain ⟨as, bs, rfl, has, hbs⟩ := map_eq_append_iff.1 hus
  rw [append_assoc, hxs as _ depth has fun u hu => hreads u (mem_append_left _ hu),
    hys bs rest depth hbs fun u hu => hreads u (mem_append_right _ hu), Option.map_map]
  congr 1
  funext n
  simp only [Function.comp_apply, length_append]
  omega

lemma passed_single {x : Shape} (h : x.1 ≠ .punct ∨ x.2 ∉ ["(", "[", ")", "]", "\x7b", "\x7d", ";"]) : Passed [x] := by
  intro us rest depth hus hreads
  obtain ⟨u, rfl, hu⟩ := map_eq_singleton_iff.1 hus
  rw [singleton_append]
  refine valueLength?_skip ?_ depth rest
  subst hu
  rcases h with hkind | htext
  · obtain ⟨cs, hcs⟩ := hreads u mem_cons_self
    have hne {w : String} {c : Char} (hw : w.toList.head? = some c) (hc : c ∈ operatorHeads) : u.text ≠ w :=
      text_ne hcs hkind hw hc
    simp only [mem_cons, not_mem_nil, or_false, not_or]
    exact ⟨hne rfl (by decide), hne rfl (by decide), hne rfl (by decide), hne rfl (by decide), hne rfl (by decide),
      hne rfl (by decide), hne rfl (by decide)⟩
  · exact htext

lemma Passed.brackets (hxs : Passed xs) (hab : (a, b) ∈ [("(", ")"), ("[", "]")]) :
    Passed (op a :: (xs ++ [op b])) := by
  intro us rest depth hus hreads
  obtain ⟨u, vs, rfl, hu, hvs⟩ := map_eq_cons_iff.1 hus
  obtain ⟨as, bs, rfl, has, hbs⟩ := map_eq_append_iff.1 hvs
  obtain ⟨w, rfl, hw⟩ := map_eq_singleton_iff.1 hbs
  have hopen : valueLength? depth (u :: (as ++ [w] ++ rest)) = (valueLength? (depth + 1) (as ++ [w] ++ rest)).map (· + 1) := by
    have : u.text = a := congrArg Prod.snd hu
    simp only [mem_cons, not_mem_nil, or_false, Prod.mk.injEq] at hab
    rcases hab with ⟨rfl, -⟩ | ⟨rfl, -⟩ <;> simp [valueLength?, this]
  have hclose : valueLength? (depth + 1) (w :: rest) = (valueLength? depth rest).map (· + 1) := by
    have : w.text = b := congrArg Prod.snd hw
    simp only [mem_cons, not_mem_nil, or_false, Prod.mk.injEq] at hab
    rcases hab with ⟨-, rfl⟩ | ⟨-, rfl⟩ <;> simp [valueLength?, this]
  rw [cons_append, hopen, append_assoc, hxs as _ (depth + 1) has fun v hv => hreads v (by simp [hv]), singleton_append, hclose,
    Option.map_map, Option.map_map]
  congr 1
  funext n
  simp only [Function.comp_apply, length_cons, length_append, length_nil]
  omega

lemma passed_shapes (e : Expr l) : Passed e.shapes := by
  have hop {w : String} (hw : w ∉ ["(", "[", ")", "]", "\x7b", "\x7d", ";"]) : Passed [op w] := passed_single (.inr hw)
  induction e with
  | word name | number text => exact passed_single (.inl (by simp))
  | paren e ih => exact ih.brackets (by simp)
  | noSuffix => exact passed_nil
  | call rest ih => exact (passed_nil.brackets (b := ")") (by simp)).append ih
  | apply arguments rest ih ih' => simpa [Expr.shapes] using (ih.brackets (b := ")") (by simp)).append ih'
  | index indices rest ih ih' => simpa [Expr.shapes] using (ih.brackets (b := "]") (by simp)).append ih'
  | member name rest ih => exact (hop (by decide)).append ((passed_single (.inl (by simp))).append ih)
  | atom x suffixes ih ih' => exact ih.append ih'
  | neg e ih => exact (hop (by decide)).append ih
  | noFactor => exact passed_nil
  | factor divides e rest ih ih' =>
    refine Passed.append (hop ?_) (ih.append ih')
    cases divides <;> decide
  | noTerm => exact passed_nil
  | term subtracts e fs rest ih ih' ih'' =>
    refine Passed.append (hop ?_) (ih.append (ih'.append ih''))
    cases subtracts <;> decide
  | sum e fs ts ih ih' ih'' => exact ih.append (ih'.append ih'')
  | last e ih => exact ih
  | more e rest ih ih' => exact ih.append ((hop (by decide)).append ih')

lemma elements_cellPattern (h : isIdentifierText target) : (cellPattern target).elements =
    [.literal target, .literal ".", .literal "Matrix", .literal "[", .run "row", .literal ",", .run "column", .literal "]"] := by
  rw [cellPattern, elements_words [target, ".", "Matrix", "[", "...row", ",", "...column", "]"]
    (String.toList_injective (by simp [toString])) (by simp [words_identifier h]; decide +kernel), map_cons, ofWord_identifier h]
  rfl

lemma runLength_word {cs : List Char} (ht : Token.Reads t cs) (hkind : t.kind ≠ .punct) (ts : List Token) :
    runLength (some u.text) 0 false (t :: u :: ts) = some 1 := by
  have hne {w : String} {c : Char} (hw : w.toList.head? = some c) (hc : c ∈ operatorHeads) : t.text ≠ w :=
    text_ne ht hkind hw hc
  have hopening : t.isOpening = false := by
    simp [isOpening, hne (w := "(") rfl (by decide), hne (w := "[") rfl (by decide), hne (w := "\x7b") rfl (by decide)]
  have hclosing : t.isClosing = false := by
    simp [isClosing, hne (w := ")") rfl (by decide), hne (w := "]") rfl (by decide), hne (w := "\x7d") rfl (by decide)]
  simp [runLength, hne (w := ";") rfl (by decide), hopening, hclosing]

lemma matchAt?_cell (h : isIdentifierText target)
    (hus : us.map Token.bare = Increment.cellShapes target row column)
    (hreads : ∀ u ∈ us, ∃ cs, Token.Reads u cs) (rest : List Token) :
    ∃ m, (cellPattern target).matchAt? [] (us ++ rest) = some m ∧ m.after = rest ∧ m.text "row" = row ∧ m.text "column" = column := by
  obtain ⟨t₁, t₂, t₃, t₄, t₅, t₆, t₇, t₈, rfl, h₁, h₂, h₃, h₄, h₅, h₆, h₇, h₈⟩ :
      ∃ t₁ t₂ t₃ t₄ t₅ t₆ t₇ t₈, us = [t₁, t₂, t₃, t₄, t₅, t₆, t₇, t₈] ∧ t₁.bare = (.identifier, target) ∧ t₂.bare = op "." ∧
        t₃.bare = (.identifier, "Matrix") ∧ t₄.bare = op "[" ∧ t₅.bare = (.identifier, row) ∧ t₆.bare = op "," ∧
        t₇.bare = (.identifier, column) ∧ t₈.bare = op "]" := by
    simp only [Increment.cellShapes, map_eq_cons_iff, map_eq_nil_iff] at hus
    obtain ⟨t₁, _, rfl, h₁, t₂, _, rfl, h₂, t₃, _, rfl, h₃, t₄, _, rfl, h₄, t₅, _, rfl, h₅, t₆, _, rfl, h₆, t₇, _, rfl, h₇, t₈, _, rfl, h₈, rfl⟩ := hus
    exact ⟨t₁, t₂, t₃, t₄, t₅, t₆, t₇, t₈, rfl, h₁, h₂, h₃, h₄, h₅, h₆, h₇, h₈⟩
  simp only [Token.bare, op, Prod.mk.injEq] at h₁ h₂ h₃ h₄ h₅ h₆ h₇ h₈
  obtain ⟨cs, hcs⟩ := hreads t₅ (by simp)
  obtain ⟨ds, hds⟩ := hreads t₇ (by simp)
  have hrow := runLength_word hcs (by simp [h₅.1]) (u := t₆) (t₇ :: t₈ :: rest)
  have hcolumn := runLength_word hds (by simp [h₇.1]) (u := t₈) rest
  rw [h₆.2] at hrow
  rw [h₈.2] at hcolumn
  refine ⟨⟨[], [t₁, t₂, t₃, t₄, t₅, t₆, t₇, t₈], rest, [("row", ⟨4, [t₅]⟩), ("column", ⟨6, [t₇]⟩)]⟩, ?_, rfl, ?_, ?_⟩
  · rw [matchAt?, elements_cellPattern h]
    simp [matchElements, stopOf, Pattern.bind, lookup_cons, h₁, h₂, h₃, h₄, h₆, h₈, hrow, hcolumn]
  · simp [Match.text, Match.capture?, Capture.text, Code.span, Code.spell, h₅]
  · simp [Match.text, Match.capture?, lookup_cons, Capture.text, Code.span, Code.spell, h₇]

/-! ## Statements -/

structure Holds (value : String) (e : Expr .sum) : Prop where
  spelled : Code.Spelled value e.shapes
  ne_empty : value ≠ ""
  product : value.toList.any (fun c => c = '+' || c = '-') = false → e.IsProduct
  head : value.toList.any (fun c => c = '+' || c = '-') = false → ∃ c, value.toList.head? = some c ∧ c ∉ ['-', '>', '=']

lemma mem_span (ht : t ∈ ts) {c : Char} (hc : c ∈ t.text.toList) : c ∈ (Code.span ts).toList := by
  cases ts with
  | nil => cases ht
  | cons u us =>
    rw [Code.span, String.toList_append, Code.toList_spell]
    rcases mem_cons.1 ht with rfl | ht
    · exact mem_append_left _ hc
    · exact mem_append_right _ (mem_flatMap.2 ⟨t, ht, by simp [spelling, hc]⟩)

lemma shapes_ne_nil (e : Expr .sum) : ∃ y ys, e.shapes = y :: ys ∧ (y.1 ≠ .punct ∨ y = op "(" ∨ y = op "-") := by
  cases e with
  | sum e fs ts =>
    cases e with
    | atom x suffixes =>
      obtain ⟨y, ys, hx, hy⟩ := Expr.head_operand x
      refine ⟨y, _, by rw [Expr.shapes, Expr.shapes, hx]; rfl, hy.imp_right .inl⟩
    | neg e => exact ⟨_, _, rfl, .inr (.inr rfl)⟩

lemma segment_of_mem_shapes (e : Expr l) : ∀ x ∈ e.shapes, x.1.segment = .code := by
  have hop (w : String) : (op w).1.segment = .code := rfl
  induction e with
  | word name | number text => simp [Expr.shapes, Kind.segment]
  | member name rest ih => exact forall_mem_cons.2 ⟨rfl, forall_mem_cons.2 ⟨rfl, ih⟩⟩
  | _ => simp_all [-Prod.forall, Expr.shapes, or_imp]

lemma holds_span (h : Code.Opens ts rest) (hts : ts.map bare = e.shapes) : Holds (Code.span ts) e := by
  have hcode : ∀ t ∈ ts, t.kind.segment = .code := fun t ht =>
    segment_of_mem_shapes e t.bare (by rw [← hts]; exact mem_map_of_mem ht)
  obtain ⟨y, ys, he, hy⟩ := shapes_ne_nil e
  rw [he] at hts
  obtain ⟨t, us, rfl, ht, -⟩ := map_eq_cons_iff.1 hts
  obtain ⟨c, cs, htext, -, -⟩ := h.2.2.1
  have hhead : (Code.span (t :: us)).toList = c :: (cs ++ (Code.spell us).toList) := by
    rw [Code.span, String.toList_append, htext, cons_append]
  have hsign {w : String} {d : Char} (hw : w.toList = [d]) (hd : (d = '+' || d = '-'))
      (hany : (Code.span (t :: us)).toList.any (fun c => c = '+' || c = '-') = false) : op w ∉ e.shapes := by
    intro hmem
    rw [he, ← hts] at hmem
    obtain ⟨u, hu, hbare⟩ := mem_map.1 hmem
    have hchar : d ∈ u.text.toList := by
      rw [show u.text = w from congrArg Prod.snd hbare, hw]
      exact mem_cons_self
    have := any_eq_false.1 hany d (mem_span hu hchar)
    exact this hd
  refine ⟨?_, ?_, fun hany => Expr.isProduct_of_not_mem (hsign (w := "+") rfl rfl hany) (hsign (w := "-") rfl rfl hany), fun hany => ?_⟩
  · rw [he, ← hts]
    exact Code.spelled_span h hcode
  · intro hempty
    simp [hempty] at hhead
  · refine ⟨c, by rw [hhead]; rfl, ?_⟩
    intro hc
    have hminus : c ≠ '-' := by
      rintro rfl
      exact absurd (any_eq_false.1 hany '-' (by rw [hhead]; exact mem_cons_self)) (by simp)
    have hop : c ∈ operatorHeads := by
      simp only [mem_cons, not_mem_nil, or_false] at hc
      rcases hc with rfl | rfl | rfl <;> decide
    have hkind := kind_of_head h.2.2.1 (by rw [htext]; rfl) hop
    rcases hy with hy | hy | hy
    · exact hy (by rw [← ht]; exact hkind)
    · have : t.text = "(" := congrArg Prod.snd (ht.trans hy)
      obtain ⟨rfl, -⟩ : '(' = c ∧ cs = [] := by simpa [this] using htext
      exact absurd hc (by decide)
    · have : t.text = "-" := congrArg Prod.snd (ht.trans hy)
      obtain ⟨rfl, -⟩ : '-' = c ∧ cs = [] := by simpa [this] using htext
      exact hminus rfl

structure Writes (s : Stamp) (x : Increment) : Prop where
  block : s.block = 0
  row : s.row = x.row
  column : s.column = x.column
  words : isIdentifierText x.row = true ∧ isIdentifierText x.column = true
  sign : s.sign = x.sign
  amount : ∃ e, x.amount = (if s.imaginary then .imaginary e else .real e) ∧ Holds s.value e

lemma signOf?_operator (h : t.text = sign.operator) : signOf? t = some sign := by
  cases sign <;> simp [signOf?, h, Sign.operator]

lemma read?_value (htarget : isIdentifierText target) (part : List Token) {imaginary : Bool}
    (hcell : cell.map bare = Increment.cellShapes target row column)
    (hassign : assign.text = sign.operator) (hvs : vs.map bare = e.shapes)
    (hsemicolon : semicolon.text = ";")
    (hpart : ∀ ts, splitPart (part ++ assign :: ts) = (imaginary, assign :: ts))
    (hreads : ∀ u ∈ cell ++ vs, ∃ cs, Token.Reads u cs) (rest : List Token) :
    read? (cellPattern target) 0 (cell ++ (part ++ assign :: (vs ++ [semicolon])) ++ rest) =
      some (⟨0, row, column, imaginary, sign, Code.span vs⟩, (cell ++ (part ++ assign :: (vs ++ [semicolon]))).length) := by
  obtain ⟨m, hmatch, hafter, hrow, hcolumn⟩ := matchAt?_cell htarget hcell (fun u hu => hreads u (mem_append_left _ hu))
    (part ++ assign :: (vs ++ semicolon :: rest))
  have hlength : valueLength? 0 (vs ++ semicolon :: rest) = some vs.length := by
    rw [passed_shapes e vs _ 0 hvs fun u hu => hreads u (mem_append_right _ hu)]
    simp [valueLength?, hsemicolon]
  have hne : vs.length ≠ 0 := by
    obtain ⟨y, ys, he, -⟩ := shapes_ne_nil e
    have := congrArg length hvs
    rw [he] at this
    simp at this
    omega
  have hlist : cell ++ (part ++ assign :: (vs ++ [semicolon])) ++ rest = cell ++ (part ++ assign :: (vs ++ semicolon :: rest)) := by simp
  rw [hlist, read?]
  simp only [hmatch, hafter, hpart, Option.bind_eq_bind, Option.bind_some, signOf?_operator hassign, hlength, if_neg hne, take_left,
    hrow, hcolumn]
  congr 2
  simp only [length_append, length_cons, length_nil]
  omega

lemma splitPart_real (h : t.text ≠ ".") (ts : List Token) : splitPart (t :: ts) = (false, t :: ts) := by
  cases ts <;> simp [splitPart, h]

lemma read?_increment (htarget : isIdentifierText target) {x : Increment}
    (hx : x.amount.isPart) (hopens : Code.Opens us text) (hus : us.map bare = x.shapes target) (rest : List Token) :
    ∃ s, read? (cellPattern target) 0 (us ++ rest) = some (s, us.length) ∧ Writes s x := by
  obtain ⟨cell, bs, rfl, hcell, hbs⟩ := map_eq_append_iff.1 hus
  obtain ⟨as, cs, rfl, has, hcs⟩ := map_eq_append_iff.1 hbs
  obtain ⟨semicolon, rfl, hsemicolon⟩ := map_eq_singleton_iff.1 hcs
  have hreads := hopens.reads
  have hwords : isIdentifierText x.row ∧ isIdentifierText x.column := by
    have hword {w : String} (hw : (.identifier, w) ∈ Increment.cellShapes target x.row x.column) : isIdentifierText w := by
      rw [← hcell] at hw
      obtain ⟨t, ht, hbare⟩ := mem_map.1 hw
      obtain ⟨cs, hcs⟩ := hreads t (mem_append_left _ ht)
      rw [← show t.text = w from congrArg Prod.snd hbare]
      exact isIdentifierText_of_reads hcs (congrArg Prod.fst hbare)
    exact ⟨hword (by simp [Increment.cellShapes]), hword (by simp [Increment.cellShapes])⟩
  obtain ⟨-, hopens⟩ := Code.opens_append.1 hopens
  cases hamount : x.amount with
  | complex re im =>
    rw [hamount] at hx
    cases hx
  | real e =>
    rw [hamount] at has
    obtain ⟨assign, vs, rfl, hassign, hvs⟩ := map_eq_cons_iff.1 has
    have hop : assign.text = x.sign.operator := congrArg Prod.snd hassign
    have hpoint : assign.text ≠ "." := by rw [hop]; cases x.sign <;> decide
    have hread := read?_value htarget [] hcell hop hvs (congrArg Prod.snd hsemicolon) (splitPart_real hpoint)
      (fun u hu => hreads u (by rcases mem_append.1 hu with hu | hu <;> simp [hu])) rest
    refine ⟨_, hread, rfl, rfl, rfl, hwords, rfl, e, by simp [hamount], holds_span (Code.opens_append.1 hopens).1.2.2.2 hvs⟩
  | imaginary e =>
    rw [hamount] at has
    obtain ⟨point, _, rfl, hpoint, h⟩ := map_eq_cons_iff.1 has
    obtain ⟨part, _, rfl, hpart, h⟩ := map_eq_cons_iff.1 h
    obtain ⟨assign, vs, rfl, hassign, hvs⟩ := map_eq_cons_iff.1 h
    have hsplit (ts : List Token) : splitPart ([point, part] ++ assign :: ts) = (true, assign :: ts) := by
      simp [splitPart, show point.text = "." from congrArg Prod.snd hpoint, show part.text = "Imag" from congrArg Prod.snd hpart]
    have hread := read?_value htarget [point, part] hcell (congrArg Prod.snd hassign) hvs (congrArg Prod.snd hsemicolon) hsplit
      (fun u hu => hreads u (by rcases mem_append.1 hu with hu | hu <;> simp [hu])) rest
    refine ⟨_, hread, rfl, rfl, rfl, hwords, rfl, e, by simp [hamount], holds_span (Code.opens_append.1 hopens).1.2.2.2.2.2.2.2.2.2 hvs⟩

lemma pieces_skip (cell : Pattern) (fresh : Nat) (blocks : List Nat) (us rest : List Token) (previous : Option Token) :
    pieces cell fresh blocks us.length previous (us ++ rest) = pieces cell fresh blocks 0 (us.getLast?.or previous) rest := by
  induction us generalizing previous with
  | nil => rfl
  | cons u us ih =>
    rw [cons_append, length_cons, pieces, ih, getLast?_cons]
    cases us.getLast? <;> rfl

lemma pieces_increments (htarget : isIdentifierText target) {xs : List Increment}
    (hxs : ∀ x ∈ xs, x.amount.isPart) (hopens : Code.Opens ts text)
    (hts : ts.map bare = xs.flatMap (Increment.shapes target)) {previous : Option Token}
    (hprevious : startsStatement previous) : ∃ found : List (String × Stamp × Increment),
      pieces (cellPattern target) 1 [0] 0 previous ts = found.map (fun x => .stamp x.1 x.2.1) ∧ xs = found.map (·.2.2) ∧
        ∀ x ∈ found, Code.Trivia x.1 ∧ Writes x.2.1 x.2.2 := by
  induction xs generalizing ts previous with
  | nil =>
    obtain rfl := map_eq_nil_iff.1 hts
    exact ⟨[], rfl, rfl, by simp⟩
  | cons x xs ih =>
    obtain ⟨us, rest, rfl, hus, hrest⟩ := map_eq_append_iff.1 hts
    obtain ⟨hx, hxs⟩ := forall_mem_cons.1 hxs
    obtain ⟨hopens, hopens'⟩ := Code.opens_append.1 hopens
    obtain ⟨s, hread, hwrites⟩ := read?_increment htarget hx hopens hus rest
    have hlast : us.getLast?.map (·.text) = some ";" := by
      have := congrArg getLast? hus
      rw [getLast?_map] at this
      cases hl : us.getLast? with
      | none => simp [hl, Increment.shapes] at this
      | some t =>
        rw [hl] at this
        simp [Increment.shapes, bare, op] at this
        simp [this]
    obtain ⟨t, vs, rfl⟩ : ∃ t vs, us = t :: vs := by
      cases us with
      | nil => simp at hlast
      | cons t vs => exact ⟨t, vs, rfl⟩
    have htext : t.text = target := congrArg Prod.snd (cons.inj hus).1
    have hopen : t.text ≠ "\x7b" := by rw [htext]; rintro rfl; cases htarget
    have hclose : t.text ≠ "\x7d" := by rw [htext]; rintro rfl; cases htarget
    have hstarts : startsStatement (vs.getLast?.or (some t)) := by
      rw [getLast?_cons] at hlast
      cases hl : vs.getLast? with
      | none =>
        rw [hl] at hlast
        simp [startsStatement, show t.text = ";" by simpa using hlast]
      | some u =>
        rw [hl] at hlast
        simp [startsStatement, show u.text = ";" by simpa using hlast]
    obtain ⟨found, hfound, rfl, hall⟩ := ih hxs hopens' hrest hstarts
    refine ⟨(t.lead, s, x) :: found, ?_, rfl, forall_mem_cons.2 ⟨⟨hopens.1, hwrites⟩, hall⟩⟩
    rw [cons_append] at hread ⊢
    rw [pieces, if_neg hopen, if_neg hclose, if_pos hprevious]
    simp only [headD_cons, hread, length_cons, Nat.add_sub_cancel, pieces_skip, hfound, map_cons]

end Stamp

end Circuit

end DeviceForge
