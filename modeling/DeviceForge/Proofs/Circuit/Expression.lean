import Mathlib.Algebra.Ring.Basic
import Mathlib.Algebra.Ring.Prod
import Mathlib.Algebra.BigOperators.Group.List.Basic
import DeviceForge.Circuit.Stamp
/-!
# Arithmetic expressions

The expressions that are added to a matrix, as they are written: a sum of products of operands, where an operand is a
word, a number or a sum in parentheses, may be called and indexed, may have members, and may have minus signs before it.
-/

namespace DeviceForge.Circuit

open List

/-- The kind and the text of a token. -/
abbrev Shape := Token.Kind × String

inductive Expr.Level where
  | operand
  | suffixes
  | unary
  | factors
  | terms
  | sum
  | list
  deriving DecidableEq, Repr

/-- An expression, or a part of one. Factors and terms are what goes on behind a first operand or product. -/
inductive Expr : Expr.Level → Type where
  | word (name : String) : Expr .operand
  | number (text : String) : Expr .operand
  | paren (e : Expr .sum) : Expr .operand
  | noSuffix : Expr .suffixes
  | call (rest : Expr .suffixes) : Expr .suffixes
  | apply (arguments : Expr .list) (rest : Expr .suffixes) : Expr .suffixes
  | index (indices : Expr .list) (rest : Expr .suffixes) : Expr .suffixes
  | member (name : String) (rest : Expr .suffixes) : Expr .suffixes
  | atom (x : Expr .operand) (suffixes : Expr .suffixes) : Expr .unary
  | neg (e : Expr .unary) : Expr .unary
  | noFactor : Expr .factors
  | factor (divides : Bool) (e : Expr .unary) (rest : Expr .factors) : Expr .factors
  | noTerm : Expr .terms
  | term (subtracts : Bool) (e : Expr .unary) (factors : Expr .factors) (rest : Expr .terms) : Expr .terms
  | sum (e : Expr .unary) (factors : Expr .factors) (terms : Expr .terms) : Expr .sum
  | last (e : Expr .sum) : Expr .list
  | more (e : Expr .sum) (rest : Expr .list) : Expr .list

namespace Expr

variable {l l' : Level} {x : Shape} {xs ys : List Shape}

def op (text : String) : Shape :=
  (.punct, text)

/-- An expression as it is written. -/
def shapes : {l : Level} → Expr l → List Shape
  | _, .word name => [(.identifier, name)]
  | _, .number text => [(.number, text)]
  | _, .paren e => op "(" :: (shapes e ++ [op ")"])
  | _, .noSuffix => []
  | _, .call rest => op "(" :: op ")" :: shapes rest
  | _, .apply arguments rest => op "(" :: (shapes arguments ++ op ")" :: shapes rest)
  | _, .index indices rest => op "[" :: (shapes indices ++ op "]" :: shapes rest)
  | _, .member name rest => op "." :: (.identifier, name) :: shapes rest
  | _, .atom x suffixes => shapes x ++ shapes suffixes
  | _, .neg e => op "-" :: shapes e
  | _, .noFactor => []
  | _, .factor divides e rest => op (if divides then "/" else "*") :: (shapes e ++ shapes rest)
  | _, .noTerm => []
  | _, .term subtracts e factors rest => op (if subtracts then "-" else "+") :: (shapes e ++ (shapes factors ++ shapes rest))
  | _, .sum e factors terms => shapes e ++ (shapes factors ++ shapes terms)
  | _, .last e => shapes e
  | _, .more e rest => shapes e ++ op "," :: shapes rest

/-! ## Reading is unique -/

def continuing : Level → List String
  | .operand => []
  | .suffixes | .unary => ["(", "[", "."]
  | .factors => ["(", "[", ".", "*", "/"]
  | .terms | .sum => ["(", "[", ".", "*", "/", "+", "-"]
  | .list => ["(", "[", ".", "*", "/", "+", "-", ","]

def Ends (l : Level) (xs : List Shape) : Prop :=
  ∀ x ∈ xs.head?, x.2 ∉ continuing l

lemma ends_cons (h : x.2 ∉ continuing l) (xs : List Shape) : Ends l (x :: xs) := by
  intro y hy
  obtain rfl : x = y := by simpa using hy
  exact h

lemma not_ends_cons (hx : x.2 ∈ continuing l) (heq : x :: xs = ys) : ¬Ends l ys := by
  rintro h
  exact h x (by rw [← heq]; rfl) hx

lemma Ends.mono (hl : continuing l' ⊆ continuing l) (h : Ends l xs) : Ends l' xs :=
  fun x hx hmem => h x hx (hl hmem)

lemma ends_factors (fs : Expr .factors) (h : Ends .unary xs) : Ends .unary (shapes fs ++ xs) := by
  cases fs with
  | noFactor => exact h
  | factor divides e rest => cases divides <;> exact ends_cons (by decide) _

lemma ends_terms (ts : Expr .terms) (h : Ends .terms xs) : Ends .factors (shapes ts ++ xs) := by
  cases ts with
  | noTerm => exact h.mono (by decide)
  | term subtracts e fs rest => cases subtracts <;> exact ends_cons (by decide) _

lemma ends_product (fs : Expr .factors) (ts : Expr .terms) (h : Ends .terms xs) : Ends .unary (shapes fs ++ (shapes ts ++ xs)) :=
  ends_factors fs ((ends_terms ts h).mono (by decide))

lemma head_operand (x : Expr .operand) : ∃ y ys, shapes x = y :: ys ∧ (y.1 ≠ .punct ∨ y = op "(") := by
  cases x with
  | word name | number text => exact ⟨_, [], rfl, .inl (by simp)⟩
  | paren e => exact ⟨_, _, rfl, .inr rfl⟩

lemma head_unary (e : Expr .unary) : ∃ y ys, shapes e = y :: ys ∧ y ≠ op ")" := by
  cases e with
  | atom x suffixes =>
    obtain ⟨y, ys, hx, hy⟩ := head_operand x
    refine ⟨y, ys ++ shapes suffixes, by rw [shapes, hx]; rfl, ?_⟩
    rintro rfl
    exact hy.elim (fun hy => hy rfl) (by decide)
  | neg e => exact ⟨_, _, rfl, by decide⟩

lemma head_list (es : Expr .list) : ∃ y ys, shapes es = y :: ys ∧ y ≠ op ")" := by
  have hsum (e : Expr .sum) : ∃ y ys, shapes e = y :: ys ∧ y ≠ op ")" := by
    cases e with
    | sum e fs ts =>
      obtain ⟨y, ys, he, hy⟩ := head_unary e
      exact ⟨y, ys ++ (shapes fs ++ shapes ts), by rw [shapes, he]; rfl, hy⟩
  cases es with
  | last e => exact hsum e
  | more e rest =>
    obtain ⟨y, ys, he, hy⟩ := hsum e
    exact ⟨y, ys ++ op "," :: shapes rest, by rw [shapes, he]; rfl, hy⟩

lemma shapes_inj (e e' : Expr l) (hxs : Ends l xs) (hys : Ends l ys)
    (h : shapes e ++ xs = shapes e' ++ ys) : e = e' ∧ xs = ys := by
  induction e generalizing xs ys with
  | word name | number text => cases e' <;> simp_all [shapes, op]
  | paren e ih =>
    cases e' with
    | word name => simp [shapes, op] at h
    | number text => simp [shapes, op] at h
    | paren e' =>
      simp only [shapes, cons_append, append_assoc, cons.injEq, true_and, nil_append] at h
      obtain ⟨rfl, htail⟩ := ih e' (ends_cons (by decide) _) (ends_cons (by decide) _) h
      exact ⟨rfl, cons.inj htail |>.2⟩
  | noSuffix =>
    cases e' with
    | noSuffix => exact ⟨rfl, h⟩
    | call rest | apply arguments rest | index indices rest | member name rest => exact absurd hxs (not_ends_cons (by decide) h.symm)
  | call rest ih =>
    cases e' with
    | noSuffix => exact absurd hys (not_ends_cons (by decide) h)
    | call rest' =>
      obtain ⟨rfl, hrest⟩ := ih rest' hxs hys (by simpa [shapes] using h)
      exact ⟨rfl, hrest⟩
    | apply arguments rest' =>
      obtain ⟨y, ys, hlist, hy⟩ := head_list arguments
      simp [shapes, hlist, Ne.symm hy] at h
    | index indices rest' | member name rest' => simp [shapes, op] at h
  | apply arguments rest ih ih' =>
    cases e' with
    | noSuffix => exact absurd hys (not_ends_cons (by decide) h)
    | call rest' =>
      obtain ⟨y, ys, hlist, hy⟩ := head_list arguments
      simp [shapes, hlist, hy] at h
    | apply arguments' rest' =>
      simp only [shapes, cons_append, append_assoc, cons.injEq, true_and] at h
      obtain ⟨rfl, hrest⟩ := ih arguments' (ends_cons (by decide) _) (ends_cons (by decide) _) h
      obtain ⟨rfl, hrest'⟩ := ih' rest' hxs hys (cons.inj hrest).2
      exact ⟨rfl, hrest'⟩
    | index indices rest' | member name rest' => simp [shapes, op] at h
  | index indices rest ih ih' =>
    cases e' with
    | noSuffix => exact absurd hys (not_ends_cons (by decide) h)
    | call rest' | apply arguments rest' | member name rest' => simp [shapes, op] at h
    | index indices' rest' =>
      simp only [shapes, cons_append, append_assoc, cons.injEq, true_and] at h
      obtain ⟨rfl, hrest⟩ := ih indices' (ends_cons (by decide) _) (ends_cons (by decide) _) h
      obtain ⟨rfl, hrest'⟩ := ih' rest' hxs hys (cons.inj hrest).2
      exact ⟨rfl, hrest'⟩
  | member name rest ih =>
    cases e' with
    | noSuffix => exact absurd hys (not_ends_cons (by decide) h)
    | call rest' | apply arguments rest' | index indices rest' => simp [shapes, op] at h
    | member name' rest' =>
      simp only [shapes, cons_append, cons.injEq, true_and, Prod.mk.injEq] at h
      obtain ⟨rfl, htail⟩ := h
      obtain ⟨rfl, hrest⟩ := ih rest' hxs hys htail
      exact ⟨rfl, hrest⟩
  | atom x suffixes ih ih' =>
    cases e' with
    | atom x' suffixes' =>
      simp only [shapes, append_assoc] at h
      obtain ⟨rfl, hrest⟩ := ih x' (by simp [Ends, continuing]) (by simp [Ends, continuing]) h
      obtain ⟨rfl, hrest'⟩ := ih' suffixes' hxs hys hrest
      exact ⟨rfl, hrest'⟩
    | neg e' =>
      obtain ⟨y, ys, hx, hy⟩ := head_operand x
      simp only [shapes, hx, cons_append, cons.injEq] at h
      rw [h.1] at hy
      exact absurd hy (by decide)
  | neg e ih =>
    cases e' with
    | atom x suffixes =>
      obtain ⟨y, ys, hx, hy⟩ := head_operand x
      simp only [shapes, hx, cons_append, cons.injEq] at h
      rw [← h.1] at hy
      exact absurd hy (by decide)
    | neg e' =>
      obtain ⟨rfl, hrest⟩ := ih e' hxs hys (by simpa [shapes] using h)
      exact ⟨rfl, hrest⟩
  | noFactor =>
    cases e' with
    | noFactor => exact ⟨rfl, h⟩
    | factor divides e rest => cases divides <;> exact absurd hxs (not_ends_cons (by decide) h.symm)
  | factor divides e rest ih ih' =>
    cases e' with
    | noFactor => cases divides <;> exact absurd hys (not_ends_cons (by decide) h)
    | factor divides' e' rest' =>
      simp only [shapes, cons_append, append_assoc, cons.injEq] at h
      obtain rfl : divides = divides' := by revert h; cases divides <;> cases divides' <;> simp [op]
      obtain ⟨rfl, hrest⟩ := ih e' (ends_factors rest (hxs.mono (by decide))) (ends_factors rest' (hys.mono (by decide))) h.2
      obtain ⟨rfl, hrest'⟩ := ih' rest' hxs hys hrest
      exact ⟨rfl, hrest'⟩
  | noTerm =>
    cases e' with
    | noTerm => exact ⟨rfl, h⟩
    | term subtracts e fs rest => cases subtracts <;> exact absurd hxs (not_ends_cons (by decide) h.symm)
  | term subtracts e fs rest ih ih' ih'' =>
    cases e' with
    | noTerm => cases subtracts <;> exact absurd hys (not_ends_cons (by decide) h)
    | term subtracts' e' fs' rest' =>
      simp only [shapes, cons_append, append_assoc, cons.injEq] at h
      obtain rfl : subtracts = subtracts' := by revert h; cases subtracts <;> cases subtracts' <;> simp [op]
      obtain ⟨rfl, hrest⟩ := ih e' (ends_product fs rest hxs) (ends_product fs' rest' hys) h.2
      obtain ⟨rfl, hrest'⟩ := ih' fs' (ends_terms rest hxs) (ends_terms rest' hys) hrest
      obtain ⟨rfl, hrest''⟩ := ih'' rest' hxs hys hrest'
      exact ⟨rfl, hrest''⟩
  | sum e fs ts ih ih' ih'' =>
    cases e' with
    | sum e' fs' ts' =>
      simp only [shapes, append_assoc] at h
      obtain ⟨rfl, hrest⟩ := ih e' (ends_product fs ts hxs) (ends_product fs' ts' hys) h
      obtain ⟨rfl, hrest'⟩ := ih' fs' (ends_terms ts hxs) (ends_terms ts' hys) hrest
      obtain ⟨rfl, hrest''⟩ := ih'' ts' hxs hys hrest'
      exact ⟨rfl, hrest''⟩
  | last e ih =>
    cases e' with
    | last e' =>
      obtain ⟨rfl, hrest⟩ := ih e' (hxs.mono (by decide)) (hys.mono (by decide)) h
      exact ⟨rfl, hrest⟩
    | more e' rest' =>
      simp only [shapes, append_assoc, cons_append] at h
      obtain ⟨rfl, hrest⟩ := ih e' (hxs.mono (by decide)) (ends_cons (by decide) _) h
      exact absurd hxs (not_ends_cons (by decide) hrest.symm)
  | more e rest ih ih' =>
    cases e' with
    | last e' =>
      simp only [shapes, append_assoc, cons_append] at h
      obtain ⟨rfl, hrest⟩ := ih e' (ends_cons (by decide) _) (hys.mono (by decide)) h
      exact absurd hys (not_ends_cons (by decide) hrest)
    | more e' rest' =>
      simp only [shapes, append_assoc, cons_append] at h
      obtain ⟨rfl, hrest⟩ := ih e' (ends_cons (by decide) _) (ends_cons (by decide) _) h
      obtain ⟨rfl, hrest'⟩ := ih' rest' hxs hys (cons.inj hrest).2
      exact ⟨rfl, hrest'⟩

universe u

/-- Values for words, numbers, calls, indexed operands and members, by the way they are written, in a ring with a division
that a sign of the dividend passes through. -/
structure Valuation (K : Type u) [Ring K] where
  atom : List Shape → K
  divide : K → K → K
  divide_neg : ∀ a b, divide (-a) b = -divide a b
  zero : atom [(.number, "0.0")] = 0

variable {K : Type u} [Ring K] (v : Valuation K)

/-- The value of an expression. Factors and terms go on with the value `a` of what stands before them, from left to
right; for all other parts of an expression it does not matter. -/
def evalFrom : {l : Level} → Expr l → K → K
  | _, .word name, _ => v.atom [(.identifier, name)]
  | _, .number text, _ => v.atom [(.number, text)]
  | _, .paren e, a => evalFrom e a
  | _, .noSuffix, a => a
  | _, .call _, a => a
  | _, .apply _ _, a => a
  | _, .index _ _, a => a
  | _, .member _ _, a => a
  | _, .atom x .noSuffix, a => evalFrom x a
  | _, .atom x suffixes, _ => v.atom (shapes x ++ shapes suffixes)
  | _, .neg e, a => -evalFrom e a
  | _, .noFactor, a => a
  | _, .factor divides e rest, a => evalFrom rest (if divides then v.divide a (evalFrom e 0) else a * evalFrom e 0)
  | _, .noTerm, a => a
  | _, .term subtracts e factors rest, a =>
    let product := evalFrom factors (evalFrom e 0)
    evalFrom rest (if subtracts then a - product else a + product)
  | _, .sum e factors terms, _ => evalFrom terms (evalFrom factors (evalFrom e 0))
  | _, .last _, a => a
  | _, .more _ _, a => a

/-- The value of a sum. -/
def eval (e : Expr .sum) : K :=
  evalFrom v e 0

lemma evalFrom_factors_neg : (fs : Expr .factors) → (a : K) → evalFrom v fs (-a) = -evalFrom v fs a
  | .noFactor, _ => rfl
  | .factor divides e rest, a => by
    have ih := evalFrom_factors_neg rest
    cases divides with
    | false => simpa [evalFrom] using ih (a * evalFrom v e 0)
    | true => simpa [evalFrom, v.divide_neg] using ih (v.divide a (evalFrom v e 0))

lemma evalFrom_terms_add : (ts : Expr .terms) → (a b : K) → evalFrom v ts (a + b) = a + evalFrom v ts b
  | .noTerm, _, _ => rfl
  | .term subtracts e fs rest, a, b => by
    have ih := evalFrom_terms_add rest a
    cases subtracts with
    | false => simpa [evalFrom, add_assoc] using ih (b + evalFrom v fs (evalFrom v e 0))
    | true => simpa [evalFrom, add_sub_assoc] using ih (b - evalFrom v fs (evalFrom v e 0))

/-! ## Putting expressions together -/

def appendTerms : Expr .terms → Expr .terms → Expr .terms
  | .noTerm, us => us
  | .term subtracts e fs rest, us => .term subtracts e fs (appendTerms rest us)

lemma shapes_appendTerms : (ts us : Expr .terms) → shapes (appendTerms ts us) = shapes ts ++ shapes us
  | .noTerm, us => by rw [appendTerms, shapes, nil_append]
  | .term subtracts e fs rest, us => by simp [appendTerms, shapes, shapes_appendTerms rest us]

lemma evalFrom_appendTerms : (ts us : Expr .terms) → (a : K) → evalFrom v (appendTerms ts us) a = evalFrom v us (evalFrom v ts a)
  | .noTerm, us, a => by rw [appendTerms, evalFrom]
  | .term subtracts e fs rest, us, a => by
    rw [appendTerms, evalFrom, evalFrom]
    exact evalFrom_appendTerms rest us _

def enclosed (e : Expr .sum) : Expr .unary :=
  .atom (.paren e) .noSuffix

def withTerms : Expr .sum → Expr .terms → Expr .sum
  | .sum e fs ts, us => .sum e fs (appendTerms ts us)

def asTerms : Expr .sum → Expr .terms
  | .sum e fs ts => .term false e fs ts

lemma shapes_withTerms (x : Expr .sum) (us : Expr .terms) : shapes (withTerms x us) = shapes x ++ shapes us := by
  cases x
  simp [withTerms, shapes, shapes_appendTerms]

lemma eval_withTerms (x : Expr .sum) (us : Expr .terms) : eval v (withTerms x us) = evalFrom v us (eval v x) := by
  cases x
  exact evalFrom_appendTerms v _ _ _

lemma shapes_asTerms (x : Expr .sum) : shapes (asTerms x) = op "+" :: shapes x := by
  cases x
  rfl

lemma evalFrom_asTerms (x : Expr .sum) (a : K) : evalFrom v (asTerms x) a = a + eval v x := by
  cases x
  exact evalFrom_terms_add v _ _ _

def parens (enclose : Bool) (xs : List Shape) : List Shape :=
  if enclose then op "(" :: (xs ++ [op ")"]) else xs

def asProduct (enclose : Bool) (x : Expr .sum) : Expr .unary × Expr .factors :=
  match enclose, x with
  | true, x => (enclosed x, .noFactor)
  | false, .sum e fs _ => (e, fs)

def IsProduct : Expr .sum → Prop
  | .sum _ _ ts => ts = .noTerm

lemma isProduct_of_not_mem {x : Expr .sum} (hplus : op "+" ∉ shapes x) (hminus : op "-" ∉ shapes x) : IsProduct x := by
  cases x with
  | sum e fs ts =>
    cases ts with
    | noTerm => rfl
    | term subtracts e' fs' rest => cases subtracts <;> simp [shapes] at hplus hminus

section AsProduct

variable {enclose : Bool} {x : Expr .sum} (h : enclose = false → IsProduct x)
include h

lemma shapes_asProduct : shapes (asProduct enclose x).1 ++ shapes (asProduct enclose x).2 = parens enclose (shapes x) := by
  cases enclose with
  | true => simp [asProduct, enclosed, shapes, parens]
  | false =>
    cases x with
    | sum e fs ts =>
      obtain rfl : ts = .noTerm := h rfl
      simp [asProduct, shapes, parens]

lemma eval_asProduct : evalFrom v (asProduct enclose x).2 (evalFrom v (asProduct enclose x).1 0) = eval v x := by
  cases enclose with
  | true => rfl
  | false =>
    cases x with
    | sum e fs ts =>
      obtain rfl : ts = .noTerm := h rfl
      rfl

end AsProduct

def subtracted (enclose : Bool) (x : Expr .sum) : Expr .terms :=
  .term true (asProduct enclose x).1 (asProduct enclose x).2 .noTerm

def negated (enclose : Bool) (x : Expr .sum) : Expr .sum :=
  .sum (.neg (asProduct enclose x).1) (asProduct enclose x).2 .noTerm

section Minus

variable {enclose : Bool} {x : Expr .sum} (h : enclose = false → IsProduct x)
include h

lemma shapes_subtracted : shapes (subtracted enclose x) = op "-" :: parens enclose (shapes x) := by
  rw [← shapes_asProduct h]
  simp [subtracted, shapes]

lemma evalFrom_subtracted (a : K) : evalFrom v (subtracted enclose x) a = a - eval v x := by
  rw [← eval_asProduct v h]
  rfl

lemma shapes_negated : shapes (negated enclose x) = op "-" :: parens enclose (shapes x) := by
  rw [← shapes_asProduct h]
  simp [negated, shapes]

lemma eval_negated : eval v (negated enclose x) = -eval v x := by
  rw [← eval_asProduct v h]
  exact evalFrom_factors_neg v _ _

end Minus

end Expr

/-! ## Increments of a matrix -/

open Expr (op)

inductive Amount where
  | real (e : Expr .sum)
  | imaginary (e : Expr .sum)
  | complex (re im : Expr .sum)

/-- Only one part of the element changes. -/
def Amount.isPart : Amount → Bool
  | .complex _ _ => false
  | _ => true

/-- A statement that adds to an element of the matrix or subtracts from it. -/
structure Increment where
  row : String
  column : String
  sign : Stamp.Sign
  amount : Amount

/-- What stands behind the element, up to the semicolon. -/
def Amount.shapes (assignment : Shape) : Amount → List Shape
  | .real e => assignment :: e.shapes
  | .imaginary e => op "." :: (.identifier, "Imag") :: assignment :: e.shapes
  | .complex re im =>
    assignment :: (.identifier, "new") :: (.identifier, "Complex") :: op "(" :: (re.shapes ++ op "," :: (im.shapes ++ [op ")"]))

namespace Increment

def cellShapes (target row column : String) : List Shape :=
  [(.identifier, target), op ".", (.identifier, "Matrix"), op "[", (.identifier, row), op ",", (.identifier, column), op "]"]

/-- A statement as it is written. -/
def shapes (target : String) (x : Increment) : List Shape :=
  cellShapes target x.row x.column ++ (x.amount.shapes (op x.sign.operator) ++ [op ";"])

/-! ## Reading is unique -/

lemma ends_semicolon (xs : List Shape) : Expr.Ends .sum (op ";" :: xs) :=
  Expr.ends_cons (by decide) xs

lemma not_two_words {e : Expr .sum} {a b : String} {xs ys : List Shape} (hb : b ∉ Expr.continuing .sum) :
    e.shapes ++ op ";" :: ys ≠ (.identifier, a) :: (.identifier, b) :: xs := by
  intro h
  let word : Expr .sum := .sum (.atom (.word a) .noSuffix) .noFactor .noTerm
  have hword : e.shapes ++ op ";" :: ys = word.shapes ++ (.identifier, b) :: xs := h
  have hrest := (Expr.shapes_inj e word (ends_semicolon ys) (Expr.ends_cons hb xs) hword).2
  simp [op] at hrest

lemma amount_inj {s s' : Stamp.Sign} {x x' : Amount} {xs ys : List Shape}
    (h : x.shapes (op s.operator) ++ op ";" :: xs = x'.shapes (op s'.operator) ++ op ";" :: ys) : s = s' ∧ x = x' ∧ xs = ys := by
  have hsign (h : op s.operator = op s'.operator) : s = s' := by
    revert h
    cases s <;> cases s' <;> decide
  have hpoint (s : Stamp.Sign) : op s.operator ≠ op "." := by cases s <;> decide
  cases x with
  | real e =>
    cases x' with
    | real e' =>
      obtain ⟨hop, htail⟩ := cons.inj h
      obtain ⟨rfl, hrest⟩ := Expr.shapes_inj _ _ (ends_semicolon xs) (ends_semicolon ys) htail
      exact ⟨hsign hop, rfl, (cons.inj hrest).2⟩
    | imaginary e' => exact absurd (cons.inj h).1 (hpoint s)
    | complex re im => exact absurd (cons.inj h).2 (not_two_words (by decide))
  | imaginary e =>
    cases x' with
    | real e' | complex re im => exact absurd (cons.inj h).1.symm (hpoint s')
    | imaginary e' =>
      simp only [Amount.shapes, cons_append, cons.injEq, true_and] at h
      obtain ⟨rfl, hrest⟩ := Expr.shapes_inj _ _ (ends_semicolon xs) (ends_semicolon ys) h.2
      exact ⟨hsign h.1, rfl, (cons.inj hrest).2⟩
  | complex re im =>
    cases x' with
    | real e' => exact absurd (cons.inj h).2.symm (not_two_words (by decide))
    | imaginary e' => exact absurd (cons.inj h).1 (hpoint s)
    | complex re' im' =>
      simp only [Amount.shapes, cons_append, append_assoc, cons.injEq, true_and, nil_append] at h
      obtain ⟨rfl, him⟩ := Expr.shapes_inj _ _ (Expr.ends_cons (by decide) _) (Expr.ends_cons (by decide) _) h.2
      obtain ⟨rfl, hrest⟩ := Expr.shapes_inj _ _ (Expr.ends_cons (by decide) _) (Expr.ends_cons (by decide) _) (cons.inj him).2
      exact ⟨hsign h.1, rfl, (cons.inj (cons.inj hrest).2).2⟩

lemma flatMap_shapes_inj {target : String} {xs ys : List Increment} (h : xs.flatMap (shapes target) = ys.flatMap (shapes target)) :
    xs = ys := by
  induction xs generalizing ys with
  | nil =>
    cases ys with
    | nil => rfl
    | cons y ys => simp [shapes, cellShapes] at h
  | cons x xs ih =>
    cases ys with
    | nil => simp [shapes, cellShapes] at h
    | cons y ys =>
      obtain ⟨row, column, sign, amount⟩ := x
      obtain ⟨row', column', sign', amount'⟩ := y
      simp only [flatMap_cons, shapes, cellShapes, cons_append, nil_append, append_assoc, cons.injEq, true_and,
        Prod.mk.injEq] at h
      obtain ⟨rfl, rfl, h⟩ := h
      obtain ⟨rfl, rfl, hrest⟩ := amount_inj h
      rw [ih hrest]

universe u

variable {K : Type u} [Ring K] (v : Expr.Valuation K)

def parts : Amount → K × K
  | .real e => (e.eval v, 0)
  | .imaginary e => (0, e.eval v)
  | .complex re im => (re.eval v, im.eval v)

/-- What a statement adds to the real and to the imaginary part of its element. -/
def effect (x : Increment) : K × K :=
  match x.sign with
  | .plus => parts v x.amount
  | .minus => -parts v x.amount

/-- What statements add to an element together. -/
def total (xs : List Increment) (row column : String) : K × K :=
  ((xs.filter fun x => x.row = row ∧ x.column = column).map (effect v)).sum

end Increment

end DeviceForge.Circuit
