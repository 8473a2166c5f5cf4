import Mathlib.NumberTheory.Zsqrtd.Basic
import Mathlib.Tactic.Ring
import DeviceForge.Proofs.Circuit.Merge
/-!
# Products with the Laplace variable

Real and imaginary parts that multiply one factor with the parts of the Laplace variable are written as one product with
the variable.
-/

namespace DeviceForge.Circuit

open List Option

universe u

namespace Expr

variable {l : Level} {xs ys us vs : List Shape} {a b o : String} {n k : Nat}

/-! ## Cutting at an operator -/

def level? (n : Nat) : List Shape → Option Nat
  | [] => some n
  | x :: xs =>
    if x = op "(" ∨ x = op "[" then level? (n + 1) xs
    else if x = op ")" ∨ x = op "]" then if n = 0 then none else level? (n - 1) xs
    else level? n xs

lemma level?_append (n : Nat) (xs ys : List Shape) : level? n (xs ++ ys) = (level? n xs).bind (level? · ys) := by
  fun_induction level? n xs <;> simp_all [level?]

lemma level?_add (h : level? n xs = some k) (m : Nat) : level? (n + m) xs = some (k + m) := by
  fun_induction level? n xs with
  | case1 n => simp_all [level?]
  | case2 n x xs hx ih => rw [level?, if_pos hx, ← ih h, Nat.add_right_comm]
  | case3 x xs hx hx' => cases h
  | case4 n x xs hx hx' hn ih => rw [level?, if_neg hx, if_pos hx', if_neg (by omega), ← ih h, Nat.sub_add_comm (by omega)]
  | case5 n x xs hx hx' ih => rw [level?, if_neg hx, if_neg hx', ih h]

@[simp] lemma level?_shapes (e : Expr l) (n : Nat) : level? n (shapes e) = some n := by
  induction e generalizing n with
  | factor divides e rest ih ih' => cases divides <;> simp_all [shapes, level?, level?_append, op]
  | term subtracts e fs rest ih ih' ih'' => cases subtracts <;> simp_all [shapes, level?, level?_append, op]
  | _ => simp_all [shapes, level?, level?_append, op]

lemma append_eq_append_cons {x : Shape} (h : xs ++ ys = us ++ x :: vs) :
    (∃ vs', xs = us ++ x :: vs' ∧ vs = vs' ++ ys) ∨ ∃ us', us = xs ++ us' ∧ ys = us' ++ x :: vs := by
  rcases append_eq_append_iff.1 h with ⟨us', hus, hys⟩ | ⟨vs', hxs, hvs⟩
  · exact .inr ⟨us', hus, hys⟩
  · cases vs' with
    | nil => exact .inr ⟨[], by simpa using hxs.symm, hvs.symm⟩
    | cons y vs' =>
      obtain ⟨rfl, rfl⟩ := cons.inj hvs
      exact .inl ⟨vs', hxs, rfl⟩

lemma eq_cons_of_cons_eq {x y : Shape} (hne : x ≠ y) (h : x :: xs = us ++ y :: vs) : ∃ us', us = x :: us' ∧ xs = us' ++ y :: vs := by
  cases us with
  | nil => exact absurd (cons.inj h).1 hne
  | cons z us =>
    obtain ⟨rfl, hxs⟩ := cons.inj h
    exact ⟨us, rfl, hxs⟩

lemma level?_behind (h : level? 0 (xs ++ ys) = some 0) (hb : b = ")" ∨ b = "]") (zs : List Shape) :
    level? 0 (ys ++ op b :: zs) = none := by
  rw [level?_append, bind_eq_some_iff] at h
  obtain ⟨d, -, hys⟩ := h
  rw [level?_append]
  cases hk : level? 0 ys with
  | none => rfl
  | some k =>
    have hadd := level?_add hk d
    rw [Nat.zero_add, hys, some.injEq] at hadd
    obtain rfl : k = 0 := by omega
    rcases hb with rfl | rfl <;> rfl

lemma cut_brackets (hxs : level? 0 xs = some 0) (hab : (a, b) ∈ [("(", ")"), ("[", "]")]) (ho : o = "+" ∨ o = "*")
    (h : op a :: (xs ++ op b :: ys) = us ++ op o :: vs) :
    (∃ us', ys = us' ++ op o :: vs) ∨ ∀ zs, level? 0 (vs ++ zs) = none := by
  have hne : op a ≠ op o ∧ op b ≠ op o ∧ (b = ")" ∨ b = "]") := by
    simp only [mem_cons, Prod.mk.injEq, not_mem_nil, or_false] at hab
    rcases hab with ⟨rfl, rfl⟩ | ⟨rfl, rfl⟩ <;> rcases ho with rfl | rfl <;> decide
  obtain ⟨hopen, hclose, hb⟩ := hne
  obtain ⟨us', -, hinside⟩ := eq_cons_of_cons_eq hopen h
  rcases append_eq_append_cons hinside with ⟨vs', rfl, rfl⟩ | ⟨us'', -, hbehind⟩
  · refine .inr fun zs => ?_
    have hmatch : level? 0 (us' ++ [op o] ++ vs') = some 0 := by simpa using hxs
    rw [append_assoc, cons_append]
    exact level?_behind hmatch hb _
  · obtain ⟨us, -, hys⟩ := eq_cons_of_cons_eq hclose hbehind
    exact .inl ⟨us, hys⟩

def inner : Level → List String
  | .operand | .suffixes | .unary => ["+", "*"]
  | .factors => ["+"]
  | _ => []

lemma inner_operator (e : Expr l) (ho : o ∈ inner l) (h : shapes e = us ++ op o :: vs) (zs : List Shape) :
    level? 0 (vs ++ zs) = none := by
  have hpair {l : Level} (ho : o ∈ inner l) : o = "+" ∨ o = "*" := by cases l <;> simp_all [inner]
  have hop {w : String} (hw : w ∉ ["+", "*"]) (ho : o = "+" ∨ o = "*") : op w ≠ op o := by
    rintro heq
    obtain rfl : w = o := congrArg Prod.snd heq
    exact hw (by simpa using ho)
  induction e generalizing us vs zs with
  | word name | number text | noSuffix | noFactor =>
    have hmem : op o ∈ us ++ op o :: vs := by simp
    rw [← h] at hmem
    simp [shapes, op] at hmem
  | paren e ih =>
    rcases cut_brackets (a := "(") (b := ")") (level?_shapes e 0) (by decide) (hpair ho) h with ⟨us', hus⟩ | hnone
    · simp at hus
    · exact hnone zs
  | call rest ih =>
    rcases cut_brackets (a := "(") (b := ")") (show level? 0 [] = some 0 from rfl) (by decide) (hpair ho) h with ⟨us', hus⟩ | hnone
    · exact ih ho hus zs
    · exact hnone zs
  | apply arguments rest ih ih' =>
    rcases cut_brackets (a := "(") (b := ")") (level?_shapes arguments 0) (by decide) (hpair ho) h with ⟨us', hus⟩ | hnone
    · exact ih' ho hus zs
    · exact hnone zs
  | index indices rest ih ih' =>
    rcases cut_brackets (a := "[") (b := "]") (level?_shapes indices 0) (by decide) (hpair ho) h with ⟨us', hus⟩ | hnone
    · exact ih' ho hus zs
    · exact hnone zs
  | member name rest ih =>
    obtain ⟨us', -, hus⟩ := eq_cons_of_cons_eq (hop (by decide) (hpair ho)) h
    obtain ⟨us', -, hus⟩ := eq_cons_of_cons_eq (by simp [op]) hus
    exact ih ho hus zs
  | atom x suffixes ih ih' =>
    rcases append_eq_append_cons h with ⟨vs', hx, rfl⟩ | ⟨us', -, hsuffixes⟩
    · rw [append_assoc]
      exact ih ho hx _
    · exact ih' ho hsuffixes zs
  | neg e ih =>
    obtain ⟨us', -, hus⟩ := eq_cons_of_cons_eq (hop (by decide) (hpair ho)) h
    exact ih ho hus zs
  | factor divides e rest ih ih' =>
    obtain rfl : o = "+" := by simpa [inner] using ho
    obtain ⟨us', -, hus⟩ := eq_cons_of_cons_eq (by cases divides <;> decide) h
    rcases append_eq_append_cons hus with ⟨vs', he, rfl⟩ | ⟨us', -, hrest⟩
    · rw [append_assoc]
      exact ih (by decide) he _
    · exact ih' ho hrest zs
  | _ => cases ho

lemma cut_first (e : Expr l) (ho : o ∈ inner l) (h : shapes e ++ xs = us ++ op o :: vs) (hvs : level? 0 vs ≠ none) :
    ∃ us', us = shapes e ++ us' ∧ xs = us' ++ op o :: vs := by
  rcases append_eq_append_cons h with ⟨vs', he, rfl⟩ | hbehind
  · exact absurd (inner_operator e ho he xs) hvs
  · exact hbehind

def appendFactors : Expr .factors → Expr .factors → Expr .factors
  | .noFactor, gs => gs
  | .factor divides e rest, gs => .factor divides e (appendFactors rest gs)

lemma shapes_appendFactors : (fs gs : Expr .factors) → shapes (appendFactors fs gs) = shapes fs ++ shapes gs
  | .noFactor, gs => by rw [appendFactors, shapes, nil_append]
  | .factor divides e rest, gs => by
    rw [appendFactors, shapes, shapes, shapes_appendFactors rest gs, cons_append, append_assoc]

lemma evalFrom_appendFactors {K : Type u} [Ring K] (v : Valuation K) :
    (fs gs : Expr .factors) → (a : K) → evalFrom v (appendFactors fs gs) a = evalFrom v gs (evalFrom v fs a)
  | .noFactor, gs, a => by rw [appendFactors, evalFrom]
  | .factor divides e rest, gs, a => by
    rw [appendFactors, evalFrom, evalFrom]
    exact evalFrom_appendFactors v rest gs _

lemma cut_factors (hvs : level? 0 vs ≠ none) : (e : Expr .unary) → (fs : Expr .factors) → {us : List Shape} →
    shapes e ++ shapes fs = us ++ op "*" :: vs →
    ∃ gs e' hs, fs = appendFactors gs (.factor false e' hs) ∧ us = shapes e ++ shapes gs ∧ vs = shapes e' ++ shapes hs
  | e, .noFactor, us, h => by
    obtain ⟨us', -, hfs⟩ := cut_first e (by decide) h hvs
    simp [shapes] at hfs
  | e, .factor divides e' rest, us, h => by
    obtain ⟨us', rfl, hfs⟩ := cut_first e (by decide) h hvs
    cases us' with
    | nil =>
      obtain ⟨hstar, rfl⟩ := cons.inj hfs
      cases divides with
      | true => exact absurd hstar (by decide)
      | false => exact ⟨.noFactor, e', rest, by rw [appendFactors], by rw [shapes], rfl⟩
    | cons x us' =>
      obtain ⟨rfl, hrest⟩ := cons.inj hfs
      obtain ⟨gs, e'', hs, rfl, rfl, rfl⟩ := cut_factors hvs e' rest hrest
      exact ⟨.factor divides e' gs, e'', hs, by rw [appendFactors], by rw [shapes], rfl⟩

lemma cut_terms (hvs : level? 0 vs ≠ none) : (e : Expr .unary) → (fs : Expr .factors) → (ts : Expr .terms) → {us : List Shape} →
    shapes e ++ (shapes fs ++ shapes ts) = us ++ op "+" :: vs →
    ∃ rs e' fs' ts', ts = appendTerms rs (.term false e' fs' ts') ∧ us = shapes e ++ (shapes fs ++ shapes rs) ∧
      vs = shapes e' ++ (shapes fs' ++ shapes ts')
  | e, fs, .noTerm, us, h => by
    obtain ⟨us', -, hfs⟩ := cut_first e (by decide) h hvs
    obtain ⟨us'', -, hts⟩ := cut_first fs (by decide) hfs hvs
    simp [shapes] at hts
  | e, fs, .term subtracts e' fs' rest, us, h => by
    obtain ⟨us', rfl, hfs⟩ := cut_first e (by decide) h hvs
    obtain ⟨us'', rfl, hts⟩ := cut_first fs (by decide) hfs hvs
    cases us'' with
    | nil =>
      obtain ⟨hplus, rfl⟩ := cons.inj hts
      cases subtracts with
      | true => exact absurd hplus (by decide)
      | false => exact ⟨.noTerm, e', fs', rest, by rw [appendTerms], by rw [shapes], rfl⟩
    | cons x us'' =>
      obtain ⟨rfl, hrest⟩ := cons.inj hts
      obtain ⟨rs, e'', fs'', ts', rfl, rfl, rfl⟩ := cut_terms hvs e' fs' rest hrest
      exact ⟨.term subtracts e' fs' rs, e'', fs'', ts', by rw [appendTerms], by rw [shapes], rfl⟩

/-! ## Products with a member -/

lemma sum_inj {x y : Expr .sum} (h : shapes x = shapes y) : x = y := by
  have hends : Ends .sum [] := by simp [Ends]
  exact (shapes_inj x y hends hends (by rw [h])).1

def members : List String → Expr .suffixes
  | [] => .noSuffix
  | name :: names => .member name (members names)

/-- A member of a word, a member of the member and so on. -/
def path (word : String) (names : List String) : Expr .unary :=
  .atom (.word word) (members names)

def times (e : Expr .unary) (fs : Expr .factors) (x : Expr .unary) : Expr .sum :=
  .sum e (appendFactors fs (.factor false x .noFactor)) .noTerm

lemma shapes_times (e : Expr .unary) (fs : Expr .factors) (x : Expr .unary) :
    shapes (times e fs x) = shapes e ++ shapes fs ++ op "*" :: shapes x := by
  simp [times, shapes, shapes_appendFactors]

lemma exists_times {y : Expr .sum} (hy : y.IsProduct) {x : Expr .unary} (h : shapes y = xs ++ op "*" :: shapes x) :
    ∃ e fs, y = times e fs x ∧ xs = shapes e ++ shapes fs := by
  cases y with
  | sum e fs ts =>
    obtain rfl : ts = .noTerm := hy
    rw [shapes, shapes, append_nil] at h
    obtain ⟨gs, e', hs, rfl, rfl, hx⟩ := cut_factors (by simp) e fs h
    have heq : Expr.sum e' hs .noTerm = .sum x .noFactor .noTerm := sum_inj (by simp [shapes, hx])
    obtain ⟨rfl, rfl, -⟩ := Expr.sum.inj heq
    exact ⟨e, gs, rfl, rfl⟩

lemma exists_withTerms {x y : Expr .sum} (h : shapes x = xs ++ op "+" :: shapes y) :
    ∃ z, x = withTerms z (asTerms y) ∧ xs = shapes z := by
  cases x with
  | sum e fs ts =>
    obtain ⟨rs, e', fs', ts', rfl, rfl, hy⟩ := cut_terms (by simp) e fs ts h
    obtain rfl : y = .sum e' fs' ts' := sum_inj (by rw [hy, shapes])
    exact ⟨.sum e fs rs, rfl, rfl⟩

section

variable {K : Type u} [Ring K] (v : Valuation K)

lemma eval_times (e : Expr .unary) (fs : Expr .factors) (x : Expr .unary) :
    eval v (times e fs x) = evalFrom v fs (evalFrom v e 0) * evalFrom v x 0 := by
  simp [eval, times, evalFrom, evalFrom_appendFactors]

lemma evalFrom_path (word name : String) (names : List String) (a : K) :
    evalFrom v (path word (name :: names)) a = v.atom (path word (name :: names)).shapes := by
  rw [path, members, evalFrom]
  · simp only [shapes]
  · simp

end

end Expr

namespace Stamp

open Code String Token

open Expr (op path times)

variable {target real imaginary p : String} {us ws : List Token} {re im : Expr .sum}

lemma map_bare_eq (hus : ∀ u ∈ us, u.kind.segment = .code ∧ ∃ cs, Token.Reads u cs)
    (hws : ∀ w ∈ ws, w.kind.segment = .code ∧ ∃ cs, Token.Reads w cs) (h : us.map (·.text) = ws.map (·.text)) :
    us.map bare = ws.map bare := by
  induction us generalizing ws with
  | nil => simp_all
  | cons u us ih =>
    obtain ⟨w, ws, rfl, htext, htexts⟩ := map_eq_cons_iff.1 h.symm
    obtain ⟨⟨hu, cs, hcs⟩, hus⟩ := forall_mem_cons.1 hus
    obtain ⟨⟨hw, ds, hds⟩, hws⟩ := forall_mem_cons.1 hws
    have hkind : u.kind = w.kind := by
      obtain ⟨c, cs', hc, -, hext⟩ := reads_halts hcs hu (show Halts [] by simp [Halts])
      obtain ⟨d, ds', hd, -, hext'⟩ := reads_halts hds hw (show Halts [] by simp [Halts])
      rw [htext, hc] at hd
      obtain ⟨rfl, rfl⟩ := cons.inj hd
      exact (Prod.mk.inj (hext.symm.trans hext')).1
    rw [map_cons, map_cons, ih hus hws htexts.symm, bare, bare, hkind, htext]

lemma map_bare_dotted (word : String) (names : List String) :
    (Change.dotted "" (word :: names)).map bare = (path word names).shapes := by
  induction names generalizing word with
  | nil => simp [Change.dotted, path, Expr.members, Expr.shapes, bare]
  | cons name names ih =>
    rw [Change.dotted_cons, map_cons, map_cons, ih]
    simp [path, Expr.members, Expr.shapes, bare, op]

lemma spelled_path {word : String} {names : List String} (h : ∀ w ∈ word :: names, isIdentifierText w) :
    Spelled (spell (Change.dotted "" (word :: names))) (path word names).shapes := by
  intro more hmore
  rw [← map_bare_dotted]
  refine shapes_opens (Change.opens_dotted trivia_empty h fun c hc => ?_)
  rcases Bool.or_eq_true_iff.1 (hmore c hc) with hblank | hstop
  · refine Bool.eq_false_iff.2 fun hword => ?_
    exact absurd hblank (by simp [Lexeme.not_blank_of_wordChar hword])
  · exact not_wordChar_of_stop hstop

lemma shapes_of_spelled {s : String} {xs : List Shape} (h : Spelled s xs) : Code.shapes s = xs := by
  have hempty : Code.shapes "" = [] := by decide +kernel
  simpa [hempty] using h "" (by simp [Halts])

lemma elements_laplace (h : isIdentifierText target) :
    (Pattern.ofString s!"...factor * {target} . Laplace . Imaginary").elements =
      .run "factor" :: (["*", target, ".", "Laplace", ".", "Imaginary"].map .literal ++ []) := by
  rw [Pattern.elements_words ["...factor", "*", target, ".", "Laplace", ".", "Imaginary"]
    (String.toList_injective (by simp [toString])) (by simp [Pattern.words_identifier h]; decide +kernel)]
  simp only [map_cons, Pattern.ofWord_identifier h]
  rfl

lemma tokens_of_match (htarget : isIdentifierText target) {ts : List Token} {m : Match}
    (h : (Pattern.ofString s!"...factor * {target} . Laplace . Imaginary").matchAll? ts = some m) :
    ∃ us ls : List Token, ts = us ++ ls ∧ ls.map (·.text) = ["*", target, ".", "Laplace", ".", "Imaginary"] ∧
      m.text "factor" = Code.span us := by
  obtain ⟨hm, hafter⟩ := filter_eq_some_iff.1 h
  have helements := elements_laplace htarget
  obtain ⟨windows, rest, captures, rfl, hwindows, hbind, rfl⟩ := (Pattern.matchAt?_eq_some_iff (by simp [helements])).1 hm
  obtain rfl : rest = [] := by simpa using hafter
  rw [helements, Pattern.windows_run] at hwindows
  obtain ⟨us, vs, rfl, -, hvs⟩ := hwindows
  obtain ⟨ls, vs, rfl, htexts, hnil⟩ := Pattern.windows_literals.1 hvs
  obtain rfl : vs = [] := by
    cases vs with
    | nil => rfl
    | cons w vs => exact hnil.elim
  refine ⟨us, ls, by simp [← flatMap_def], htexts, ?_⟩
  have hlookup := Pattern.lookup_bindAll hbind "factor"
  rw [helements, nil_append, Pattern.bindings, Pattern.captured, singleton_append, lookup_cons_self] at hlookup
  rw [Match.text, Match.capture?, hlookup]
  rfl

lemma laplaceProduct?_eq_some (htarget : isIdentifierText target) (h : laplaceProduct? real imaginary target = some p) :
    ∃ us ls : List Token, (Code.ofString imaginary).tokens = us ++ ls ∧
      ls.map (·.text) = ["*", target, ".", "Laplace", ".", "Imaginary"] ∧
      ∃ rs ts : List Token, (Code.ofString real).tokens = rs ++ ts ∧
        ts.map (·.text) = (Code.ofString s!"{Code.span us} * {target}.Laplace.Real").tokens.map (·.text) ∧
        let product := s!"{Code.span us} * {target}.Laplace"
        (rs = [] ∧ p = product ∨
          ∃ rest plus, rs = rest ++ [plus] ∧ plus.text = "+" ∧ p = s!"{Code.span rest} + {product}") := by
  simp only [laplaceProduct?, bind_eq_bind, bind_eq_some_iff] at h
  obtain ⟨m, hm, h⟩ := h
  obtain ⟨us, ls, htokens, htexts, hfactor⟩ := tokens_of_match htarget hm
  refine ⟨us, ls, htokens, htexts, ?_⟩
  rw [hfactor] at h
  split_ifs at h with hwhole hend
  · cases h
    exact ⟨[], _, rfl, hwhole, .inl ⟨rfl, rfl⟩⟩
  · cases h
    simp only [Bool.and_eq_true, decide_eq_true_eq] at hend
    obtain ⟨⟨-, htail⟩, hplus⟩ := hend
    rw [getElem?_map, map_eq_some_iff] at hplus
    obtain ⟨plus, hget, hplus⟩ := hplus
    obtain ⟨hlt, hget⟩ := List.getElem?_eq_some_iff.1 hget
    refine ⟨_ ++ [plus], _, ?_, map_drop.trans htail, .inr ⟨_, plus, rfl, hplus, rfl⟩⟩
    rw [← hget, take_append_getElem, take_append_drop]

lemma tokens_of_shapes {s : String} {e : Expr .sum} (h : Code.shapes s = e.shapes) :
    (∀ u ∈ (Code.ofString s).tokens, u.kind.segment = .code ∧ ∃ cs, Token.Reads u cs) ∧
      Opens (Code.ofString s).tokens (Code.ofString s).tail := by
  have hopens := opens_ofString s
  refine ⟨fun u hu => ⟨segment_of_mem_shapes e u.bare ?_, hopens.reads u hu⟩, hopens⟩
  rw [← h]
  exact mem_map_of_mem hu

lemma map_bare_path (htarget : isIdentifierText target) (names : List String) (hnames : names.all isIdentifierText)
    {ls : List Token} (hls : ∀ u ∈ ls, u.kind.segment = .code ∧ ∃ cs, Token.Reads u cs)
    (h : ls.map (·.text) = "*" :: (Change.dotted "" (target :: names)).map (·.text)) :
    ls.map bare = op "*" :: (path target names).shapes := by
  obtain ⟨star, ls, rfl, hstar, hrest⟩ := map_eq_cons_iff.1 h
  obtain ⟨⟨-, cs, hcs⟩, hls⟩ := forall_mem_cons.1 hls
  have hkind : star.kind = .punct := kind_of_head hcs (c := '*') (by rw [hstar]; rfl) (by decide)
  have hopens : Opens (Change.dotted "" (target :: names)) "" :=
    Change.opens_dotted trivia_empty (by simpa [htarget] using hnames) (by simp)
  have hcode : ∀ w ∈ Change.dotted "" (target :: names), w.kind.segment = .code := fun w hw =>
    segment_of_mem_shapes (path target names) w.bare (by rw [← map_bare_dotted]; exact mem_map_of_mem hw)
  rw [map_cons, map_bare_eq hls (fun w hw => ⟨hcode w hw, hopens.reads w hw⟩) hrest, map_bare_dotted, bare, hkind, hstar, op]

lemma spelled_times (htarget : isIdentifierText target) (names : List String) (hnames : names.all isIdentifierText)
    {factor : String} {e : Expr .unary} {fs : Expr .factors} (h : Spelled factor (e.shapes ++ fs.shapes)) :
    Spelled (factor ++ (" * " ++ spell (Change.dotted "" (target :: names)))) (times e fs (path target names)).shapes := by
  rw [Expr.shapes_times]
  exact h.operator (spelled_path (by simpa [htarget] using hnames)) rfl (by decide)

/-- If the imaginary part is a product, the result is an expression, and wherever the variable is its real part and, times
`j`, its imaginary part, the result is the real part and, times `j`, the imaginary part. -/
theorem laplaceProduct_value (htarget : isIdentifierText target = true) (hre : Code.shapes real = re.shapes)
    (him : Code.shapes imaginary = im.shapes) (hproduct : im.IsProduct) (hp : laplaceProduct? real imaginary target = some p) :
    ∃ e : Expr .sum, (∀ e' : Expr .sum, Code.shapes p = e'.shapes ↔ e' = e) ∧
      ∀ {K : Type u} [CommRing K] (v : Expr.Valuation K) (j : K),
        v.atom (path target ["Laplace"]).shapes =
          v.atom (path target ["Laplace", "Real"]).shapes + j * v.atom (path target ["Laplace", "Imaginary"]).shapes →
        e.eval v = re.eval v + j * im.eval v := by
  suffices h : ∃ e : Expr .sum, Spelled p e.shapes ∧
      ∀ {K : Type u} [CommRing K] (v : Expr.Valuation K) (j : K),
        v.atom (path target ["Laplace"]).shapes =
          v.atom (path target ["Laplace", "Real"]).shapes + j * v.atom (path target ["Laplace", "Imaginary"]).shapes →
        e.eval v = re.eval v + j * im.eval v by
    obtain ⟨e, hspelled, hvalue⟩ := h
    refine ⟨e, fun e' => ?_, hvalue⟩
    rw [shapes_of_spelled hspelled]
    exact ⟨fun h => (Expr.sum_inj h).symm, fun h => by rw [h]⟩
  obtain ⟨us, ls, htokens, hls, rs, ts, hreal, hts, hcase⟩ := laplaceProduct?_eq_some htarget hp
  obtain ⟨hcodeIm, hopensIm⟩ := tokens_of_shapes him
  obtain ⟨hcodeRe, hopensRe⟩ := tokens_of_shapes hre
  rw [Code.shapes, htokens, map_append] at him
  rw [Code.shapes, hreal, map_append] at hre
  rw [htokens] at hcodeIm hopensIm
  rw [hreal] at hcodeRe hopensRe
  obtain ⟨hcodeUs, hcodeLs⟩ := forall_mem_append.1 hcodeIm
  obtain ⟨hcodeRs, hcodeTs⟩ := forall_mem_append.1 hcodeRe
  -- the factor is a product, and the imaginary part is that product with the part of the variable
  rw [map_bare_path htarget ["Laplace", "Imaginary"] (by decide) hcodeLs hls] at him
  obtain ⟨e, fs, rfl, hus⟩ := Expr.exists_times hproduct him.symm
  have hfactor : Spelled (Code.span us) (e.shapes ++ fs.shapes) := by
    rw [← hus]
    exact spelled_span (opens_append.1 hopensIm).1 fun u hu => (hcodeUs u hu).1
  -- the real part ends in the product with the other part
  have hpart : Spelled s!"{Code.span us} * {target}.Laplace.Real" (times e fs (path target ["Laplace", "Real"])).shapes := by
    have := spelled_times htarget ["Laplace", "Real"] (by decide) hfactor
    simpa [Change.dotted, spell_cons, spell_nil, String.append_assoc, toString] using this
  have hwhole : Spelled s!"{Code.span us} * {target}.Laplace" (times e fs (path target ["Laplace"])).shapes := by
    have := spelled_times htarget ["Laplace"] (by decide) hfactor
    simpa [Change.dotted, spell_cons, spell_nil, String.append_assoc, toString] using this
  have hend : ts.map Token.bare = (times e fs (path target ["Laplace", "Real"])).shapes := by
    have hshapes := shapes_of_spelled hpart
    rw [← hshapes]
    exact map_bare_eq hcodeTs (tokens_of_shapes hshapes).1 hts
  rw [hend] at hre
  rcases hcase with ⟨rfl, rfl⟩ | ⟨rest, plus, rfl, hplus, rfl⟩
  · obtain rfl := Expr.sum_inj hre
    refine ⟨_, hwhole, fun v j hj => ?_⟩
    rw [Expr.eval_times, Expr.eval_times, Expr.eval_times, Expr.evalFrom_path, Expr.evalFrom_path, Expr.evalFrom_path, hj]
    ring
  · obtain ⟨cs, hcs⟩ := (hcodeRs plus (by simp)).2
    have hop : plus.bare = op "+" := by
      rw [Token.bare, kind_of_head hcs (c := '+') (by rw [hplus]; rfl) (by decide), hplus, op]
    rw [map_append, map_singleton, hop, List.append_assoc, singleton_append] at hre
    obtain ⟨x, rfl, hx⟩ := Expr.exists_withTerms hre.symm
    have hrest : Spelled (Code.span rest) x.shapes := by
      rw [← hx]
      exact spelled_span (opens_append.1 (opens_append.1 hopensRe).1).1 fun u hu => (hcodeRs u (mem_append_left _ hu)).1
    refine ⟨Expr.withTerms x (Expr.asTerms (times e fs (path target ["Laplace"]))), ?_, fun v j hj => ?_⟩
    · rw [Expr.shapes_withTerms, Expr.shapes_asTerms, op]
      have hsum := hrest.operator hwhole (w := "+") rfl (by decide)
      simpa [String.append_assoc, toString] using hsum
    · simp only [Expr.eval_withTerms, Expr.evalFrom_asTerms, Expr.eval_times, Expr.evalFrom_path, hj]
      ring

/-- A conductance that the halves of a product go through, behind a difference with a quotient. -/
theorem laplaceProduct_value_conductance :
    let g : Expr .unary := .atom (.word "g") .noSuffix
    let half (fs : Expr .factors) : Expr .factors := .factor true (.atom (.number "2") .noSuffix) fs
    let re : Expr .sum := .sum (.neg g) .noFactor (.term true g (half .noFactor)
      (.term false g (half (.factor false (path "T" ["Laplace", "Real"]) .noFactor)) .noTerm))
    let im : Expr .sum := .sum g (half (.factor false (path "T" ["Laplace", "Imaginary"]) .noFactor)) .noTerm
    (Code.shapes "-g - g / 2 + g/2 * T.Laplace.Real" = re.shapes ∧ Code.shapes "g / 2*T.Laplace.Imaginary" = im.shapes ∧
      im.IsProduct ∧ laplaceProduct? "-g - g / 2 + g/2 * T.Laplace.Real" "g / 2*T.Laplace.Imaginary" "T" =
        some "-g - g / 2 + g / 2 * T.Laplace") ∧
    ∃ e : Expr .sum, (∀ e' : Expr .sum, Code.shapes "-g - g / 2 + g / 2 * T.Laplace" = e'.shapes ↔ e' = e) ∧
      ∀ {K : Type} [CommRing K] (v : Expr.Valuation K) (j : K),
        v.atom (path "T" ["Laplace"]).shapes =
          v.atom (path "T" ["Laplace", "Real"]).shapes + j * v.atom (path "T" ["Laplace", "Imaginary"]).shapes →
        e.eval v = re.eval v + j * im.eval v := by
  intro g half re im
  have hre : Code.shapes "-g - g / 2 + g/2 * T.Laplace.Real" = re.shapes := by decide +kernel
  have him : Code.shapes "g / 2*T.Laplace.Imaginary" = im.shapes := by decide +kernel
  have hp : laplaceProduct? "-g - g / 2 + g/2 * T.Laplace.Real" "g / 2*T.Laplace.Imaginary" "T" =
      some "-g - g / 2 + g / 2 * T.Laplace" := by decide +kernel
  exact ⟨⟨hre, him, rfl, hp⟩, laplaceProduct_value (by decide) hre him rfl hp⟩

/-- The sum of a word and a product with a member of the target. -/
def sumWith (names : List String) : Expr .sum :=
  .sum (.atom (.word "p") .noSuffix) .noFactor
    (.term false (.atom (.word "q") .noSuffix) (.factor false (path "T" names) .noFactor) .noTerm)

/-- All words are one, and the variable is one and the root of minus one. -/
def unitValuation : Expr.Valuation (ℤ√(-1)) where
  atom xs := if xs = [(.number, "0.0")] then 0 else if xs = (path "T" ["Laplace"]).shapes then ⟨1, 1⟩ else 1
  divide a _ := a
  divide_neg _ _ := rfl
  zero := if_pos rfl

/-- Of a sum as the imaginary part, all terms but the last are lost. -/
theorem not_laplaceProduct_sum : ∃ j : ℤ√(-1), j * j = -1 ∧
    unitValuation.atom (path "T" ["Laplace"]).shapes =
      unitValuation.atom (path "T" ["Laplace", "Real"]).shapes + j * unitValuation.atom (path "T" ["Laplace", "Imaginary"]).shapes ∧
    Code.shapes "p + q * T.Laplace.Real" = (sumWith ["Laplace", "Real"]).shapes ∧
    Code.shapes "p + q * T.Laplace.Imaginary" = (sumWith ["Laplace", "Imaginary"]).shapes ∧
    laplaceProduct? "p + q * T.Laplace.Real" "p + q * T.Laplace.Imaginary" "T" = some "p + q * T.Laplace" ∧
    Code.shapes "p + q * T.Laplace" = (sumWith ["Laplace"]).shapes ∧
    (sumWith ["Laplace"]).eval unitValuation ≠
      (sumWith ["Laplace", "Real"]).eval unitValuation + j * (sumWith ["Laplace", "Imaginary"]).eval unitValuation := by
  exact ⟨⟨0, 1⟩, by decide, by decide +kernel, by decide +kernel, by decide +kernel, by decide +kernel, by decide +kernel, by decide +kernel⟩

end Stamp

end DeviceForge.Circuit
