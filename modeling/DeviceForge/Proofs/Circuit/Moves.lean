import DeviceForge.Proofs.Circuit.Merge
/-!
# Where merged values are read

A merged statement stands at the first stamp of its element, so the value of every later stamp moves there, over
whatever stands between the two (`merge_moves`).
-/

namespace DeviceForge.Circuit.Stamp

open Option List

universe u v

variable {depth n block fresh skip : Nat} {ts before w passed value : List Token} {p cell : Pattern}
  {s first : Stamp} {lead target name : String} {all stamps : List Stamp}

/-! ## Pieces and their tokens -/

def parts (cell : Pattern) (fresh : Nat) (blocks : List Nat) (skip : Nat) (previous : Option Token) :
    List Token → List (List Token × Piece)
  | [] => []
  | t :: ts =>
    match skip with
    | skip + 1 => parts cell fresh blocks skip (some t) ts
    | 0 =>
      if t.text = "\x7b" then ([t], .token t) :: parts cell (fresh + 1) (fresh :: blocks) 0 (some t) ts
      else if t.text = "\x7d" then ([t], .token t) :: parts cell fresh blocks.tail 0 (some t) ts
      else
        match if startsStatement previous then read? cell (blocks.headD 0) (t :: ts) else none with
        | some (s, n) => ((t :: ts).take n, .stamp t.lead s) :: parts cell fresh blocks (n - 1) (some t) ts
        | none => ([t], .token t) :: parts cell fresh blocks 0 (some t) ts

/-- The pieces of code, each with its tokens. -/
def partsOf (target code : String) : List (List Token × Piece) :=
  parts (cellPattern target) 1 [0] 0 none (Code.ofString code).tokens

lemma map_snd_parts (cell : Pattern) (fresh : Nat) (blocks : List Nat) (skip : Nat) (previous : Option Token) (ts : List Token) :
    (parts cell fresh blocks skip previous ts).map Prod.snd = pieces cell fresh blocks skip previous ts := by
  fun_induction parts cell fresh blocks skip previous ts <;> simp_all [pieces]

lemma exists_of_valueLength? (h : valueLength? depth ts = some n) :
    ∃ value semicolon rest, ts = value ++ semicolon :: rest ∧ value.length = n ∧ semicolon.text = ";" := by
  induction ts generalizing depth n with
  | nil => simp [valueLength?] at h
  | cons t ts ih =>
    have hnext {d : Nat} (h : (valueLength? d ts).map (· + 1) = some n) :
        ∃ value semicolon rest, t :: ts = value ++ semicolon :: rest ∧ value.length = n ∧ semicolon.text = ";" := by
      obtain ⟨m, hm, rfl⟩ := map_eq_some_iff.1 h
      obtain ⟨value, semicolon, rest, rfl, rfl, htext⟩ := ih hm
      exact ⟨t :: value, semicolon, rest, rfl, rfl, htext⟩
    rw [valueLength?] at h
    split at h
    · exact hnext h
    · split at h
      · split at h
        · cases h
        · exact hnext h
      · split at h
        · cases h
        · split_ifs at h with hend
          · obtain rfl : 0 = n := some.inj h
            exact ⟨[], t, ts, rfl, rfl, by simp_all⟩
          · exact hnext h

lemma splitPart_suffix (ts : List Token) : (splitPart ts).2 <:+ ts := by
  fun_cases splitPart ts
  · exact suffix_append [_, _] _
  · exact suffix_rfl
  · exact suffix_rfl

lemma after_suffix {m : Match} (h : p.matchAt? before ts = some m) : m.after <:+ ts := by
  rw [Pattern.matchAt?] at h
  split at h
  · cases h
  · obtain ⟨x, -, rfl⟩ := map_eq_some_iff.1 h
    exact drop_suffix _ _

lemma exists_of_read? (h : read? cell block ts = some (s, n)) :
    ∃ head value semicolon rest, ts = head ++ (value ++ semicolon :: rest) ∧ n = (head ++ (value ++ [semicolon])).length ∧
      s.value = Code.span value ∧ semicolon.text = ";" := by
  obtain ⟨m, hm, h⟩ := bind_eq_some_iff.1 h
  have hsuffix := (splitPart_suffix m.after).trans (after_suffix hm)
  generalize splitPart m.after = x at h hsuffix
  obtain ⟨imaginary, rest⟩ := x
  cases rest with
  | nil => cases h
  | cons op behind =>
    obtain ⟨sign, -, h⟩ := bind_eq_some_iff.1 h
    obtain ⟨k, hk, h⟩ := bind_eq_some_iff.1 h
    split at h
    · cases h
    · obtain ⟨head, hhead⟩ := (suffix_cons op behind).trans hsuffix
      obtain ⟨value, semicolon, rest, rfl, rfl, htext⟩ := exists_of_valueLength? hk
      obtain ⟨rfl, rfl⟩ := Prod.mk.inj (some.inj h)
      refine ⟨head, value, semicolon, rest, hhead.symm, ?_, by simp, htext⟩
      simp only [← hhead, length_append, length_cons, length_nil]
      omega

lemma flatMap_fst_parts (cell : Pattern) (fresh : Nat) (blocks : List Nat) (skip : Nat) (previous : Option Token) (ts : List Token) :
    (parts cell fresh blocks skip previous ts).flatMap Prod.fst = ts.drop skip := by
  fun_induction parts cell fresh blocks skip previous ts with
  | case5 fresh blocks previous t ts _ _ s n hread ih =>
    split at hread
    · obtain ⟨head, value, semicolon, rest, -, hn, -⟩ := exists_of_read? hread
      obtain ⟨k, rfl⟩ : ∃ k, n = k + 1 := ⟨n - 1, by simp at hn; omega⟩
      rw [flatMap_cons, ih, take_succ_cons, Nat.add_sub_cancel, cons_append, take_append_drop, drop_zero]
    · cases hread
  | _ => simp_all

lemma exists_of_mem_parts {blocks : List Nat} {previous : Option Token}
    (h : (w, .stamp lead s) ∈ parts cell fresh blocks skip previous ts) :
    ∃ head value semicolon, w = head ++ (value ++ [semicolon]) ∧ s.value = Code.span value ∧ semicolon.text = ";" := by
  fun_induction parts cell fresh blocks skip previous ts with
  | case5 fresh blocks previous t ts _ _ s' n hread ih =>
    rcases mem_cons.1 h with heq | h
    · split at hread
      · obtain ⟨rfl, -, rfl⟩ : w = (t :: ts).take n ∧ lead = t.lead ∧ s = s' := by simpa using heq
        obtain ⟨head, value, semicolon, rest, hts, rfl, hvalue, htext⟩ := exists_of_read? hread
        refine ⟨head, value, semicolon, ?_, hvalue, htext⟩
        have hlist : head ++ (value ++ semicolon :: rest) = head ++ (value ++ [semicolon]) ++ rest := by simp
        rw [hts, hlist, take_left]
      · cases hread
    · exact ih h
  | _ => simp_all

/-! ## Texts of pieces -/

lemma texts_congr {laplace : Bool} {done done' : List (Nat × String × String)}
    (h : ∀ p, p ∈ done ↔ p ∈ done') (ps : List Piece) :
    texts target laplace all done ps = texts target laplace all done' ps := by
  induction ps generalizing done done' with
  | nil => rfl
  | cons p ps ih =>
    cases p with
    | token t => rw [texts, texts, ih h]
    | stamp lead s =>
      have hcontains : done.contains s.place = done'.contains s.place := by simp [h]
      rw [texts, texts, ih h, ih fun p => mem_cons.trans (Iff.or Iff.rfl (h p) |>.trans mem_cons.symm), hcontains]

lemma ofPieces_append (ps qs : List Piece) : ofPieces (ps ++ qs) = ofPieces ps ++ ofPieces qs := by
  induction ps with
  | nil => rfl
  | cons p ps ih => cases p <;> simp [ofPieces, ih]

lemma texts_append (target : String) (laplace : Bool) (all : List Stamp) (done : List (Nat × String × String)) (ps qs : List Piece) :
    texts target laplace all done (ps ++ qs) =
      texts target laplace all done ps ++ texts target laplace all ((ofPieces ps).map place ++ done) qs := by
  induction ps generalizing done with
  | nil => rfl
  | cons p ps ih =>
    cases p with
    | token t => simp only [cons_append, texts, ih, ofPieces]
    | stamp lead s =>
      have hmove : ∀ p, p ∈ (ofPieces ps).map place ++ s.place :: done ↔ p ∈ (ofPieces (.stamp lead s :: ps)).map place ++ done := by
        intro p
        simp only [ofPieces, map_cons, mem_append, mem_cons]
        tauto
      rw [cons_append, texts, texts]
      split_ifs with hdone
      · have hdone : s.place ∈ done := by simpa using hdone
        have hsame : ∀ p, p ∈ (ofPieces ps).map place ++ done ↔ p ∈ (ofPieces (.stamp lead s :: ps)).map place ++ done := by
          intro p
          rw [← hmove]
          simp only [mem_append, mem_cons]
          exact ⟨fun h => h.imp_right .inr, fun h => h.imp_right fun h => h.elim (fun h => h ▸ hdone) id⟩
        rw [ih, texts_congr hsame, cons_append]
      · rw [ih, texts_congr hmove]
        rfl

/-- The stamps of code. -/
def stampsOf (target code : String) : List Stamp :=
  ofPieces ((partsOf target code).map Prod.snd)

def places (ps : List (List Token × Piece)) : List (Nat × String × String) :=
  (ofPieces (ps.map Prod.snd)).map place

/-- What merging writes for pieces of code behind the pieces `done`. -/
def written (target : String) (laplace : Bool) (code : String) (done ps : List (List Token × Piece)) : String :=
  String.join (texts target laplace (stampsOf target code) (places done) (ps.map Prod.snd))

section Written

variable (target : String) (laplace : Bool) (code : String)

lemma merge_eq_written :
    merge target laplace code = written target laplace code [] (partsOf target code) ++ (Code.ofString code).tail := by
  rw [merge, written, stampsOf, partsOf, map_snd_parts]
  rfl

lemma written_append (done ps qs : List (List Token × Piece)) :
    written target laplace code done (ps ++ qs) = written target laplace code done ps ++ written target laplace code (done ++ ps) qs := by
  have hplaces : ∀ p, p ∈ (ofPieces (ps.map Prod.snd)).map place ++ places done ↔ p ∈ places (done ++ ps) := by
    intro p
    simp only [places, map_append, ofPieces_append, mem_append]
    exact or_comm
  rw [written, map_append, texts_append, String.join_append, texts_congr hplaces]
  rfl

lemma written_first {done : List (List Token × Piece)} (h : s.place ∉ places done) (w : List Token) (lead : String) :
    written target laplace code done [(w, .stamp lead s)] =
      lead ++ statement target laplace s ((stampsOf target code).filter (·.place = s.place)) := by
  simp [written, texts, h]

lemma written_later {done : List (List Token × Piece)} (h : s.place ∈ places done) (w : List Token) (lead : String) :
    written target laplace code done [(w, .stamp lead s)] = lead := by
  simp [written, texts, h]

end Written

lemma infix_sum {sign : Sign} (h : s ∈ stamps) : s.value.toList <:+: (sum sign stamps).toList := by
  have hkeeps (total : String) (s : Stamp) : total.toList <+: (addValue sign total s).toList := by
    rw [addValue]
    split <;> by_cases hempty : total = "" <;> simp [hempty, isEmpty_eq_false]
  have hfold (stamps : List Stamp) (total : String) : total.toList <+: (stamps.foldl (addValue sign) total).toList := by
    induction stamps generalizing total with
    | nil => exact prefix_rfl
    | cons s stamps ih => exact (hkeeps total s).trans (ih _)
  have hvalue (total : String) (s : Stamp) : s.value.toList <:+: (addValue sign total s).toList := by
    rw [addValue]
    split
    · rw [String.toList_append]
      exact (suffix_append _ _).isInfix
    · rw [String.toList_append]
      refine IsInfix.trans ?_ (suffix_append _ _).isInfix
      split
      · exact ⟨['('], [')'], by simp⟩
      · exact infix_rfl
  obtain ⟨before, after, rfl⟩ := append_of_mem h
  rw [sum_eq, foldl_append, foldl_cons]
  exact (hvalue _ s).trans (hfold after _).isInfix

lemma infix_total (h : s ∈ stamps) (target : String) (sign : Sign) :
    s.value.toList <:+: (total target false sign stamps).toList := by
  have hpart (test : Stamp → Bool) (htest : test s) : s.value.toList <:+: (sum sign (stamps.filter test)).toList :=
    infix_sum (mem_filter.2 ⟨h, htest⟩)
  -- Where the sum of a part is empty, so is the value.
  have hempty (test : Stamp → Bool) (htest : test s) (hsum : sum sign (stamps.filter test) = "") (cs : List Char) :
      s.value.toList <:+: cs := by
    have hnil := hpart test htest
    rw [hsum] at hnil
    rw [infix_nil.1 hnil]
    exact nil_infix
  by_cases him : sum sign (stamps.filter (·.imaginary)) = ""
  · rw [total_real him]
    cases himaginary : s.imaginary with
    | true => exact hempty (·.imaginary) himaginary him _
    | false => exact hpart (!·.imaginary) (by simp [himaginary])
  · rw [total_complex rfl him rfl]
    cases himaginary : s.imaginary with
    | true =>
      refine (hpart (·.imaginary) himaginary).trans ?_
      generalize (if (sum sign (stamps.filter (!·.imaginary))).isEmpty then "0.0" else sum sign (stamps.filter (!·.imaginary))) = re
      exact ⟨("new Complex(" ++ re ++ ", ").toList, [')'], by simp⟩
    | false =>
      have hreal : (!s.imaginary) := by simp [himaginary]
      by_cases hre : sum sign (stamps.filter (!·.imaginary)) = ""
      · exact hempty (!·.imaginary) hreal hre _
      · rw [isEmpty_eq_false hre]
        refine (hpart (!·.imaginary) hreal).trans ?_
        generalize sum sign (stamps.filter (·.imaginary)) = im
        exact ⟨"new Complex(".toList, (", " ++ im ++ ")").toList, by simp⟩

lemma infix_statement (h : s ∈ stamps) : s.value.toList <:+: (statement target false first stamps).toList := by
  rw [statement]
  generalize mergedSign first stamps = sign
  refine (infix_total h target sign).trans ?_
  exact ⟨s!"{target}.Matrix[{first.row}, {first.column}] {sign.operator} ".toList, [';'], by simp [toString]⟩

/-! ## What values mean -/

/-- A meaning of code: the identifiers that it assigns, how it takes one store to another, what identifiers hold and the
values of expressions. Identifiers that code does not assign hold the same behind it, and the value of an expression
depends on the identifiers in it only. -/
structure Meaning (S : Type u) (V : Type v) where
  assigns : List Token → String → Prop
  runs : List Token → S → S → Prop
  holds : S → String → V
  value : List Token → S → V
  holds_eq : ∀ {ts : List Token} {σ τ : S} {x : String}, runs ts σ τ → ¬assigns ts x → holds τ x = holds σ x
  value_eq : ∀ {ts : List Token} {σ τ : S}, (∀ t ∈ ts, t.isIdentifier = true → holds σ t.text = holds τ t.text) → value ts σ = value ts τ

lemma Meaning.value_passed {S : Type u} {V : Type v} (M : Meaning S V)
    (h : ∀ t ∈ value, t.isIdentifier → ¬M.assigns passed t.text) {σ τ : S}
    (hruns : M.runs passed σ τ) : M.value value σ = M.value value τ :=
  M.value_eq fun t ht hid => (M.holds_eq hruns (h t ht hid)).symm

/-- The text of an expression with the texts that its identifiers hold. -/
def substituted (ts : List Token) (σ : String → String) : String :=
  String.join (ts.map fun t => if t.isIdentifier then σ t.text else t.text)

def assignsName (name : String) : List Token → Bool
  | t :: sign :: ts => t.isIdentifier && sign.text = "=" && t.text = name || assignsName name (sign :: ts)
  | _ => false

/-- Runs the assignments of single tokens to identifiers, one after the other. -/
def runAssignments : List Token → (String → String) → String → String
  | t :: sign :: e :: ts, σ =>
    if t.isIdentifier && sign.text = "=" then
      runAssignments (sign :: e :: ts) fun name => if name = t.text then substituted [e] σ else σ name
    else runAssignments (sign :: e :: ts) σ
  | _, σ => σ

lemma runAssignments_eq (h : assignsName name ts = false) (σ : String → String) :
    runAssignments ts σ name = σ name := by
  fun_induction runAssignments ts σ with
  | case1 t sign e ts σ hassign ih =>
    rw [assignsName, Bool.or_eq_false_iff] at h
    have hne : name ≠ t.text := by
      rintro rfl
      simp_all
    exact (ih h.2).trans (if_neg hne)
  | case2 t sign e ts σ hassign ih =>
    rw [assignsName, Bool.or_eq_false_iff] at h
    exact ih h.2
  | case3 => rfl

def Meaning.assignments : Meaning (String → String) String where
  assigns ts name := assignsName name ts = true
  runs ts σ τ := τ = runAssignments ts σ
  holds σ name := σ name
  value := substituted
  holds_eq := by
    rintro ts σ τ x rfl hassigns
    exact runAssignments_eq (Bool.eq_false_iff.2 hassigns) σ
  value_eq := by
    intro ts σ τ h
    rw [substituted, substituted]
    congr 1
    refine map_congr_left fun t ht => ?_
    split_ifs with hid
    · exact h t ht hid
    · rfl

/-- A stamp of the real part. -/
def stampTokens : List Token :=
  (Code.ofString "T.Matrix[a, b] += g;").tokens

def assignmentTokens (text : String) : List (List Token × Piece) :=
  (Code.ofString text).tokens.map fun t => ([t], .token t)

/-- A stamp of the imaginary part of the same element. -/
def movedTokens : List Token :=
  (Code.ofString " T.Matrix[a, b].Imag += x;").tokens

end DeviceForge.Circuit.Stamp
