import DeviceForge.Proofs.Circuit.Reading
/-!
# Merged increments

The value of a merged statement is put together as text, from the values of the stamps and operators between them.
-/

namespace DeviceForge.Circuit.Stamp

open Code String List Token

open Expr (op)

universe u

variable {value text w more re im target row column tail code : String} {e : Expr .sum}
  {prior : Option (Expr .sum)} {s : Stamp} {ps all : List (Stamp × Increment)} {xs : List Shape} {sign : Sign}
  {stamps : List Stamp}

/-! ## Sums -/

def addValue (sign : Sign) (total : String) (s : Stamp) : String :=
  if s.sign = sign then (if total.isEmpty then "" else total ++ " + ") ++ s.value
  else
    (if total.isEmpty then "-" else total ++ " - ") ++
      if s.value.toList.any (fun c => c = '+' || c = '-') then "(" ++ (s.value ++ ")") else s.value

lemma sum_eq (sign : Sign) (stamps : List Stamp) : sum sign stamps = stamps.foldl (addValue sign) "" := by
  rw [sum]
  congr 1

def Sums (text : String) : Option (Expr .sum) → Prop
  | none => text = ""
  | some x => text ≠ "" ∧ Spelled text x.shapes

def signed {K : Type u} [Ring K] (same : Prop) [Decidable same] (a : K) : K :=
  if same then a else -a

lemma isEmpty_eq_false {s : String} (h : s ≠ "") : s.isEmpty = false := by
  simpa using h

lemma spelled_parens (h : Holds value e) (enclose : Bool) :
    Spelled (if enclose then "(" ++ (value ++ ")") else value) (Expr.parens enclose e.shapes) := by
  cases enclose with
  | true => exact h.spelled.parens
  | false => exact h.spelled

lemma sums_addValue (hprior : Sums text prior) (hs : Holds s.value e) (sign : Sign) :
    ∃ y, Sums (addValue sign text s) (some y) ∧
      ∀ {K : Type u} [Ring K] (v : Expr.Valuation K), y.eval v = prior.elim 0 (·.eval v) + signed (s.sign = sign) (e.eval v) := by
  have hplus : " + " = " " ++ ("+" ++ " ") := by decide
  have hminus : " - " = " " ++ ("-" ++ " ") := by decide
  rw [addValue]
  generalize hany : s.value.toList.any (fun c => c = '+' || c = '-') = enclose
  have hproduct (h : enclose = false) : e.IsProduct := hs.product (hany.trans h)
  have hvalue := spelled_parens hs enclose
  split
  · rename_i hsame
    cases prior with
    | none =>
      obtain rfl : text = "" := hprior
      exact ⟨e, ⟨by simpa using hs.ne_empty, by simpa using hs.spelled⟩, fun v => by simp [signed, hsame]⟩
    | some x =>
      obtain ⟨hne, hspelled⟩ := hprior
      refine ⟨x.withTerms e.asTerms, ⟨by simp [isEmpty_eq_false hne, hne], ?_⟩, fun v => ?_⟩
      · rw [Expr.shapes_withTerms, Expr.shapes_asTerms, isEmpty_eq_false hne]
        simpa [op, String.append_assoc] using hspelled.operator hs.spelled hplus (by decide)
      · rw [Expr.eval_withTerms, Expr.evalFrom_asTerms]
        simp [signed, hsame]
  · rename_i hsame
    cases prior with
    | none =>
      obtain rfl : text = "" := hprior
      refine ⟨e.negated enclose, ⟨by simp, ?_⟩, fun v => ?_⟩
      · rw [Expr.shapes_negated hproduct]
        have hhead : ∃ c, (if enclose then "(" ++ (s.value ++ ")") else s.value).toList.head? = some c ∧ c ∉ ['-', '>', '='] := by
          cases enclose with
          | true => exact ⟨'(', by simp, by decide⟩
          | false => exact hs.head hany
        obtain ⟨c, hc, hop⟩ := hhead
        exact hvalue.minus hc hop
      · rw [Expr.eval_negated v hproduct]
        simp [signed, hsame]
    | some x =>
      obtain ⟨hne, hspelled⟩ := hprior
      refine ⟨x.withTerms (e.subtracted enclose), ⟨by simp [isEmpty_eq_false hne, hne], ?_⟩, fun v => ?_⟩
      · rw [Expr.shapes_withTerms, Expr.shapes_subtracted hproduct, isEmpty_eq_false hne]
        simpa [op, String.append_assoc] using hspelled.operator hvalue hminus (by decide)
      · rw [Expr.eval_withTerms, Expr.evalFrom_subtracted v hproduct]
        simp [signed, hsame, sub_eq_add_neg]

def part {K : Type u} [Ring K] (v : Expr.Valuation K) (x : Increment) : K :=
  match x.amount with
  | .real e | .imaginary e => e.eval v
  | .complex _ _ => 0

lemma sums_foldl (hps : ∀ p ∈ ps, Writes p.1 p.2) (sign : Sign) (hprior : Sums text prior) :
    ∃ result, Sums ((ps.map Prod.fst).foldl (addValue sign) text) result ∧ (result = none ↔ prior = none ∧ ps = []) ∧
      ∀ {K : Type u} [Ring K] (v : Expr.Valuation K), result.elim 0 (·.eval v) =
        prior.elim 0 (·.eval v) + (ps.map fun p => signed (p.1.sign = sign) (part v p.2)).sum := by
  induction ps generalizing text prior with
  | nil => exact ⟨prior, hprior, by simp, fun v => by simp⟩
  | cons p ps ih =>
    obtain ⟨hp, hps⟩ := forall_mem_cons.1 hps
    obtain ⟨e, hamount, hholds⟩ := hp.amount
    obtain ⟨y, hy, hvalue⟩ := sums_addValue.{u} hprior hholds sign
    obtain ⟨result, hresult, hnone, hsum⟩ := ih hps hy
    refine ⟨result, hresult, by simpa using hnone, fun v => ?_⟩
    have hpart : part v p.2 = e.eval v := by
      rw [part, hamount]
      cases p.1.imaginary <;> rfl
    rw [hsum v, Option.elim_some, hvalue v, map_cons, sum_cons, hpart, add_assoc]

lemma sums_part (hps : ∀ p ∈ ps, Writes p.1 p.2) (sign : Sign) (test : Stamp → Bool) :
    ∃ result, Sums (sum sign ((ps.map Prod.fst).filter test)) result ∧ (result = none ↔ ps.filter (test ·.1) = []) ∧
      ∀ {K : Type u} [Ring K] (v : Expr.Valuation K), result.elim 0 (·.eval v) =
        ((ps.filter (test ·.1)).map fun p => signed (p.1.sign = sign) (part v p.2)).sum := by
  have hmem : ∀ p ∈ ps.filter (test ·.1), Writes p.1 p.2 := fun p hp => hps p (mem_filter.1 hp).1
  obtain ⟨result, hresult, hnone, hsum⟩ := sums_foldl.{u} hmem sign (show Sums "" none from rfl)
  refine ⟨result, ?_, by simpa using hnone, fun v => by simpa using hsum v⟩
  rw [sum_eq, filter_map]
  exact hresult

section Effects

variable {K : Type u} [Ring K] (v : Expr.Valuation K)

lemma signed_signed (s sign : Sign) (a : K) : signed (sign = .plus) (signed (s = sign) a) = signed (s = .plus) a := by
  cases s <;> cases sign <;> simp [signed]

lemma signed_mk (same : Prop) [Decidable same] (a b : K) : signed same (a, b) = (signed same a, signed same b) := by
  rw [signed, signed, signed]
  split <;> rfl

lemma signed_add (same : Prop) [Decidable same] (a b : K) : signed same (a + b) = signed same a + signed same b := by
  rw [signed, signed, signed]
  split
  · rfl
  · rw [neg_add]

lemma signed_zero (same : Prop) [Decidable same] : signed same (0 : K) = 0 := by
  simp [signed]

lemma effect_eq (x : Increment) : x.effect v = signed (x.sign = .plus) (Increment.parts v x.amount) := by
  rw [Increment.effect]
  cases x.sign <;> simp [signed]

lemma Writes.effect_eq {x : Increment} (h : Writes s x) : x.effect v =
    signed (s.sign = .plus) (if s.imaginary then (0, part v x) else (part v x, 0)) := by
  obtain ⟨e, hamount, -⟩ := h.amount
  rw [Stamp.effect_eq, h.sign, part, hamount]
  cases s.imaginary <;> rfl

lemma sum_effect (hps : ∀ p ∈ ps, Writes p.1 p.2) (sign : Sign) :
    (ps.map fun p => p.2.effect v).sum = signed (sign = .plus)
      (((ps.filter (!·.1.imaginary)).map fun p => signed (p.1.sign = sign) (part v p.2)).sum,
        ((ps.filter (·.1.imaginary)).map fun p => signed (p.1.sign = sign) (part v p.2)).sum) := by
  induction ps with
  | nil => simp [signed_mk, signed_zero, Prod.ext_iff]
  | cons p ps ih =>
    obtain ⟨hp, hps⟩ := forall_mem_cons.1 hps
    rw [map_cons, sum_cons, ih hps, hp.effect_eq]
    cases himaginary : p.1.imaginary <;> simp [himaginary, signed_mk, signed_add, signed_signed, signed_zero]

end Effects

/-! ## Statements -/

lemma shapes_word (hw : isIdentifierText w) (hmore : ∀ c ∈ more.toList.head?, Text.isWordChar c = false) :
    shapes (w ++ more) = (.identifier, w) :: shapes more :=
  shapes_token (t := ⟨.identifier, "", w⟩) rfl (reads_identifier rfl hw hmore)

lemma spelled_complex {ys : List Shape} (hre : Spelled re xs) (him : Spelled im ys) :
    Spelled ("new" ++ (" " ++ ("Complex" ++ ("(" ++ (re ++ ("," ++ (" " ++ (im ++ ")"))))))))
      ((.identifier, "new") :: (.identifier, "Complex") :: op "(" :: (xs ++ op "," :: (ys ++ [op ")"]))) := by
  intro more _
  have hclose : Token.Halts (")" ++ more).toList := halts_single rfl (by decide) more
  have hcomma : Token.Halts ("," ++ (" " ++ (im ++ (")" ++ more)))).toList := halts_single rfl (by decide) _
  simp only [String.append_assoc]
  rw [shapes_word (by decide) (by simp; decide), shapes_trivia trivia_space, shapes_word (by decide) (by simp; decide),
    shapes_single (w := "(") rfl (by decide), hre _ hcomma, shapes_single (w := ",") rfl (by decide),
    shapes_trivia trivia_space, him _ hclose, shapes_single (w := ")") rfl (by decide)]
  simp [op]

lemma shapes_statement (htarget : isIdentifierText target)
    (hrow : isIdentifierText row) (hcolumn : isIdentifierText column) (hvalue : Spelled value xs) (more : String) :
    shapes (s!"{target}.Matrix[{row}, {column}] {sign.operator} {value};" ++ more) =
      Increment.cellShapes target row column ++ (op sign.operator :: xs ++ [op ";"]) ++ shapes more := by
  have htext : s!"{target}.Matrix[{row}, {column}] {sign.operator} {value};" ++ more = target ++ ("." ++ ("Matrix" ++ ("[" ++ (row ++ ("," ++
      (" " ++ (column ++ ("]" ++ (" " ++ (sign.operator ++ (" " ++ (value ++ (";" ++ more))))))))))))) := by
    apply toList_injective
    simp [toString]
  have hpoint (rest : String) : shapes ("." ++ ("Matrix" ++ rest)) = op "." :: shapes ("Matrix" ++ rest) := by
    refine shapes_token (t := ⟨.punct, "", "."⟩) rfl ?_
    rw [toList_append]
    exact reads_letter (reads_of_isLexeme (by decide)) rfl (d := 'M') (by decide) _
  have hop : isLexeme .punct sign.operator := by cases sign <;> decide
  rw [htext, shapes_word htarget (by simp; decide), hpoint, shapes_word (by decide) (by simp; decide),
    shapes_single (w := "[") rfl (by decide), shapes_word hrow (by simp; decide), shapes_single (w := ",") rfl (by decide),
    shapes_trivia trivia_space, shapes_word hcolumn (by simp; decide), shapes_single (w := "]") rfl (by decide),
    shapes_operator hop, hvalue _ (halts_single rfl (by decide) more), shapes_single (w := ";") rfl (by decide)]
  simp [Increment.cellShapes, op]

def zero : Expr .sum :=
  .sum (.atom (.number "0.0") .noSuffix) .noFactor .noTerm

lemma spelled_zero : Spelled "0.0" zero.shapes := by
  intro more hmore
  exact shapes_token (t := ⟨.number, "", "0.0"⟩) rfl (reads_halts (reads_of_isLexeme (by decide)) rfl hmore)

lemma total_real (h : sum sign (stamps.filter (·.imaginary)) = "") :
    total target false sign stamps = sum sign (stamps.filter (!·.imaginary)) := by
  rw [total, h]
  rfl

lemma total_complex (h : sum sign (stamps.filter (·.imaginary)) = im) (hne : im ≠ "")
    (hre : re = sum sign (stamps.filter (!·.imaginary))) : total target false sign stamps =
      "new" ++ (" " ++ ("Complex" ++ ("(" ++ ((if re.isEmpty then "0.0" else re) ++ ("," ++ (" " ++ (im ++ ")"))))))) := by
  rw [total, h, ← hre]
  simp only [isEmpty_eq_false hne, Bool.false_eq_true, if_false]
  apply toList_injective
  simp [toString]

lemma statement_writes (htarget : isIdentifierText target) (hps : ∀ p ∈ ps, Writes p.1 p.2)
    {first : Stamp × Increment} (hfirst : first ∈ ps) :
    ∃ y : Increment, y.row = first.2.row ∧ y.column = first.2.column ∧
      (∀ more, shapes (statement target false first.1 (ps.map Prod.fst) ++ more) = y.shapes target ++ shapes more) ∧
      ∀ {K : Type u} [Ring K] (v : Expr.Valuation K), y.effect v = (ps.map fun p => p.2.effect v).sum := by
  generalize hsign : mergedSign first.1 (ps.map Prod.fst) = sign
  obtain ⟨re, hre, hrenone, hresum⟩ := sums_part.{u} hps sign (!·.imaginary)
  obtain ⟨im, him, himnone, himsum⟩ := sums_part.{u} hps sign (·.imaginary)
  have hstatement (amount : Amount) {value : String} {xs : List Shape} (hvalue : total target false sign (ps.map Prod.fst) = value)
      (hspelled : Spelled value xs) (hamount : amount.shapes (op sign.operator) = op sign.operator :: xs) (more : String) :
      shapes (statement target false first.1 (ps.map Prod.fst) ++ more) =
        Increment.shapes target ⟨first.2.row, first.2.column, sign, amount⟩ ++ shapes more := by
    have hwords := (hps _ hfirst).words
    rw [statement, hsign, hvalue, (hps _ hfirst).row, (hps _ hfirst).column, shapes_statement htarget hwords.1 hwords.2 hspelled,
      Increment.shapes, hamount]
  cases im with
  | none =>
    have himempty := himnone.1 rfl
    cases re with
    | none =>
      -- The first stamp is of one of the parts.
      have hreempty := hrenone.1 rfl
      rw [filter_eq_nil_iff] at hreempty himempty
      exact absurd (hreempty _ hfirst) (by simpa using himempty _ hfirst)
    | some x =>
      refine ⟨⟨first.2.row, first.2.column, sign, .real x⟩, rfl, rfl, hstatement (.real x) (total_real him) hre.2 rfl, fun v => ?_⟩
      rw [sum_effect v hps sign, effect_eq, ← hresum v, ← himsum v]
      rfl
  | some y =>
    have hcomplex {x : Expr .sum}
        (hx : Spelled (if (sum sign ((ps.map Prod.fst).filter (!·.imaginary))).isEmpty then "0.0" else _) x.shapes) :=
      hstatement (.complex x y) (total_complex rfl him.1 rfl) (spelled_complex hx him.2) rfl
    cases re with
    | none =>
      refine ⟨⟨first.2.row, first.2.column, sign, .complex zero y⟩, rfl, rfl, hcomplex ?_, fun v => ?_⟩
      · rw [show sum sign _ = "" from hre]
        exact spelled_zero
      · rw [sum_effect v hps sign, effect_eq, ← hresum v, ← himsum v]
        simp [Increment.parts, zero, Expr.eval, Expr.evalFrom, v.zero]
    | some x =>
      refine ⟨⟨first.2.row, first.2.column, sign, .complex x y⟩, rfl, rfl, hcomplex ?_, fun v => ?_⟩
      · rw [isEmpty_eq_false hre.1]
        exact hre.2
      · rw [sum_effect v hps sign, effect_eq, ← hresum v, ← himsum v]
        rfl

/-! ## Texts -/

lemma Writes.place_eq {x : Increment} (h : Writes s x) : s.place = (0, x.row, x.column) := by
  rw [place, h.block, h.row, h.column]

lemma sum_place (hall : ∀ p ∈ all, Writes p.1 p.2) {K : Type u} [Ring K] (v : Expr.Valuation K)
    (row column : String) :
    ((all.filter (·.1.place = (0, row, column))).map fun p => p.2.effect v).sum = Increment.total v (all.map Prod.snd) row column := by
  have hfilter : all.filter (·.1.place = (0, row, column)) = all.filter fun p => p.2.row = row ∧ p.2.column = column := by
    refine filter_congr fun p hp => ?_
    rw [(hall p hp).place_eq]
    simp
  rw [Increment.total, hfilter, List.filter_map, List.map_map]
  rfl

lemma total_cons {K : Type u} [Ring K] (v : Expr.Valuation K) (y : Increment) (ys : List Increment) (row column : String) :
    Increment.total v (y :: ys) row column =
      (if y.row = row ∧ y.column = column then y.effect v else 0) + Increment.total v ys row column := by
  rw [Increment.total, filter_cons]
  split <;> simp_all [Increment.total]

lemma total_eq_zero {K : Type u} [Ring K] (v : Expr.Valuation K) {ys : List Increment}
    (h : ∀ y ∈ ys, ¬(y.row = row ∧ y.column = column)) : Increment.total v ys row column = 0 := by
  have hfilter : ys.filter (fun y => y.row = row ∧ y.column = column) = [] := filter_eq_nil_iff.2 fun y hy => by simpa using h y hy
  rw [Increment.total, hfilter, map_nil, sum_nil]

lemma texts_writes (htarget : isIdentifierText target) (hall : ∀ p ∈ all, Writes p.1 p.2)
    {found : List (String × Stamp × Increment)} (hfound : ∀ x ∈ found, Trivia x.1 ∧ x.2 ∈ all)
    (done : List (Nat × String × String)) (htail : shapes tail = []) : ∃ ys : List Increment,
      shapes (join (texts target false (all.map Prod.fst) done (found.map fun x => .stamp x.1 x.2.1)) ++ tail) =
        ys.flatMap (Increment.shapes target) ∧
      ∀ {K : Type u} [Ring K] (v : Expr.Valuation K) (row column : String), Increment.total v ys row column =
        if (0, row, column) ∈ done ∨ (0, row, column) ∉ found.map (·.2.1.place) then 0
        else Increment.total v (all.map Prod.snd) row column := by
  induction found generalizing done with
  | nil => exact ⟨[], by simpa [texts] using htail, by simp [Increment.total]⟩
  | cons x found ih =>
    obtain ⟨⟨hlead, hx⟩, hfound⟩ := forall_mem_cons.1 hfound
    rw [map_cons, texts]
    split_ifs with hdone
    · have hdone : x.2.1.place ∈ done := by simpa using hdone
      obtain ⟨ys, hys, hvalue⟩ := ih hfound done
      refine ⟨ys, ?_, fun v row column => ?_⟩
      · rw [join_cons, String.append_assoc, shapes_trivia hlead, hys]
      · rw [hvalue v row column, map_cons]
        by_cases heq : (0, row, column) = x.2.1.place
        · simp only [heq, hdone, true_or, if_true]
        · simp only [mem_cons, heq, false_or]
    · have hdone : x.2.1.place ∉ done := by simpa using hdone
      obtain ⟨ys, hys, hvalue⟩ := ih hfound (x.2.1.place :: done)
      have hplace := (hall _ hx).place_eq
      have hmem : x.2 ∈ all.filter (·.1.place = x.2.1.place) := mem_filter.2 ⟨hx, by simp⟩
      obtain ⟨y, hrow, hcolumn, hy, heffect⟩ := statement_writes.{u} htarget (fun p hp => hall p (mem_filter.1 hp).1) hmem
      refine ⟨y :: ys, ?_, fun v row column => ?_⟩
      · rw [join_cons, join_cons, filter_map, String.append_assoc, String.append_assoc, shapes_trivia hlead]
        exact (hy _).trans (by rw [hys, flatMap_cons])
      · rw [total_cons, hvalue v row column, map_cons, heffect v, hplace, hrow, hcolumn]
        by_cases heq : (0, row, column) = x.2.1.place
        · rw [hplace] at heq hdone
          obtain ⟨-, rfl, rfl⟩ : 0 = 0 ∧ row = x.2.2.row ∧ column = x.2.2.column := by simpa using heq
          simp [hdone, sum_place hall]
        · have hne : ¬(x.2.2.row = row ∧ x.2.2.column = column) := by
            rintro ⟨rfl, rfl⟩
            exact heq hplace.symm
          rw [hplace] at heq
          simp only [mem_cons, heq, hne, false_or, if_false, zero_add]

/-! ## Merging -/

lemma ofPieces_stamps (found : List (String × Stamp × Increment)) :
    ofPieces (found.map fun x => .stamp x.1 x.2.1) = (found.map Prod.snd).map Prod.fst := by
  induction found with
  | nil => rfl
  | cons x found ih => simp [ofPieces, ih]

lemma exists_merged (htarget : isIdentifierText target) {xs : List Increment}
    (hxs : ∀ x ∈ xs, x.amount.isPart) (hcode : Code.shapes code = xs.flatMap (Increment.shapes target)) :
    ∃ ys : List Increment, Code.shapes (merge target false code) = ys.flatMap (Increment.shapes target) ∧
      ∀ {K : Type u} [Ring K] (v : Expr.Valuation K) (row column : String), Increment.total v ys row column = Increment.total v xs row column := by
  obtain ⟨found, hpieces, rfl, hfound⟩ := pieces_increments htarget hxs (opens_ofString code) hcode (show startsStatement none from rfl)
  have hall : ∀ p ∈ found.map Prod.snd, Writes p.1 p.2 := by
    intro p hp
    obtain ⟨x, hx, rfl⟩ := mem_map.1 hp
    exact (hfound x hx).2
  have htail : Code.shapes (Code.ofString code).tail = [] := by rw [Code.shapes, tokens_tail, map_nil]
  obtain ⟨ys, hys, hvalue⟩ := texts_writes.{u} htarget hall (fun x hx => ⟨(hfound x hx).1, mem_map_of_mem hx⟩) [] htail
  refine ⟨ys, ?_, fun v row column => ?_⟩
  · rw [merge, hpieces, ofPieces_stamps]
    exact hys
  · rw [hvalue v row column, List.map_map]
    split_ifs with hnone
    · refine (total_eq_zero v fun x hx hcell => ?_).symm
      obtain ⟨p, hp, rfl⟩ := mem_map.1 hx
      refine hnone.resolve_left not_mem_nil (mem_map.2 ⟨p, hp, ?_⟩)
      rw [(hfound p hp).2.place_eq, hcell.1, hcell.2]
    · rfl

/-- Statements with both signs for both parts of one element, and one for another. -/
def mixedIncrements : List Increment :=
  let g : Expr .unary := .atom (.word "g") .noSuffix
  let h : Expr .unary := .atom (.word "h") (.index (.last (.sum (.atom (.number "1") .noSuffix) .noFactor .noTerm)) .noSuffix)
  [⟨"a", "b", .minus, .imaginary (.sum g (.factor true h .noFactor) .noTerm)⟩,
    ⟨"b", "b", .plus, .real (.sum g .noFactor .noTerm)⟩,
    ⟨"a", "b", .minus, .real (.sum (.neg g) .noFactor (.term true h .noFactor .noTerm))⟩,
    ⟨"a", "b", .plus, .real (.sum g .noFactor (.term true h .noFactor .noTerm))⟩]

def mixedCode : String :=
  "T.Matrix[a, b].Imag -= g / h[1];\nT.Matrix[b, b] += g; // diagonal\nT.Matrix[a,b] -= - g-h[1]; T.Matrix[a, b] += g-h[1];"

end DeviceForge.Circuit.Stamp
