import DeviceForge.Pattern
import Mathlib.Data.List.Basic
/-!
# Runs of tokens

What a run of a pattern may be, said of the tokens of the run and of what stands behind it, and not of how they are
scanned: brackets of all kinds are balanced, no semicolon stands outside of them, and the run is ended by the literal
behind it or, where there is none, by a bracket that it did not open or by the end.
-/

namespace DeviceForge.Pattern

open List Option

variable {t : Token} {done rest w ts : List Token} {stop : Option String} {n d : Nat}

/-- How many brackets are open behind tokens that start with none open. All kinds count together. -/
def depth (ts : List Token) : Int :=
  ts.countP (·.isOpening) - ts.countP (·.isClosing)

/-- What stands behind a run: the literal `stop`, or else a closing bracket or nothing. -/
def EndsBefore : Option String → List Token → Prop
  | some text, rest => ∃ t after, rest = t :: after ∧ t.text = text
  | none, rest => rest = [] ∨ ∃ t after, rest = t :: after ∧ t.isClosing = true

/-- Tokens `w` that go on a run behind its first tokens `done` and end it before the tokens `rest`. For an
empty `done` they are the whole run. -/
structure IsRun (done : List Token) (stop : Option String) (w rest : List Token) : Prop where
  ne_nil : done ++ w ≠ []
  depth_nonneg : ∀ pre post, w = pre ++ post → 0 ≤ depth (done ++ pre)
  depth_eq_zero : depth (done ++ w) = 0
  no_semicolon : ∀ pre t post, w = pre ++ t :: post → depth (done ++ pre) = 0 → t.text ≠ ";"
  /-- Only the first token of a run may have the text of the literal behind it. -/
  no_stop : ∀ pre t post, w = pre ++ t :: post → depth (done ++ pre) = 0 → done ++ pre ≠ [] → stop ≠ some t.text
  ends : EndsBefore stop rest

lemma not_closing_of_opening (h : t.isOpening) : t.isClosing = false := by
  simp only [Token.isOpening, Bool.or_eq_true, decide_eq_true_eq] at h
  rcases h with (h | h) | h <;> simp [Token.isClosing, h]

lemma not_closing_of_semicolon (h : t.text = ";") : t.isClosing = false := by
  simp [Token.isClosing, h]

lemma depth_opening (h : t.isOpening) (ts : List Token) : depth (ts ++ [t]) = depth ts + 1 := by
  simp [depth, countP_append, h, not_closing_of_opening h]
  omega

lemma depth_closing (h : t.isClosing) (ts : List Token) : depth (ts ++ [t]) = depth ts - 1 := by
  have ho : t.isOpening = false := by
    by_contra ho
    simp [not_closing_of_opening (by simpa using ho)] at h
  simp [depth, countP_append, h, ho]
  omega

lemma depth_other (ho : t.isOpening = false) (hc : t.isClosing = false) (ts : List Token) :
    depth (ts ++ [t]) = depth ts := by
  simp [depth, countP_append, ho, hc]

lemma isRun_nil : IsRun done stop [] rest ↔ done ≠ [] ∧ depth done = 0 ∧ EndsBefore stop rest := by
  constructor
  · intro h
    refine ⟨by simpa using h.ne_nil, by simpa using h.depth_eq_zero, h.ends⟩
  · rintro ⟨hne, hzero, hends⟩
    refine ⟨by simpa using hne, ?_, by simpa using hzero, ?_, ?_, hends⟩
    · intro pre post h
      obtain ⟨rfl, -⟩ := append_eq_nil_iff.1 h.symm
      simp [hzero]
    · intro pre t post h
      simp at h
    · intro pre t post h
      simp at h

lemma isRun_cons :
    IsRun done stop (t :: w) rest ↔ 0 ≤ depth done ∧ (depth done = 0 → t.text ≠ ";") ∧
      (depth done = 0 → done ≠ [] → stop ≠ some t.text) ∧ IsRun (done ++ [t]) stop w rest := by
  constructor
  · intro h
    refine ⟨?_, ?_, ?_, ?_, ?_, ?_, ?_, ?_, h.ends⟩
    · simpa using h.depth_nonneg [] (t :: w) rfl
    · simpa using h.no_semicolon [] t w rfl
    · simpa using h.no_stop [] t w rfl
    · simp
    · rintro pre post rfl
      simpa using h.depth_nonneg (t :: pre) post rfl
    · simpa using h.depth_eq_zero
    · rintro pre u post rfl
      simpa using h.no_semicolon (t :: pre) u post rfl
    · rintro pre u post rfl
      simpa using h.no_stop (t :: pre) u post rfl
  · rintro ⟨hnonneg, hsemi, hstop, h⟩
    refine ⟨by simp, ?_, by simpa using h.depth_eq_zero, ?_, ?_, h.ends⟩
    · intro pre post heq
      cases pre with
      | nil => simpa using hnonneg
      | cons u pre =>
        obtain ⟨rfl, rfl⟩ := cons.inj heq
        simpa using h.depth_nonneg pre post rfl
    · intro pre u post heq
      cases pre with
      | nil =>
        obtain ⟨rfl, -⟩ := cons.inj heq
        simpa using hsemi
      | cons v pre =>
        obtain ⟨rfl, rfl⟩ := cons.inj heq
        simpa using h.no_semicolon pre u post rfl
    · intro pre u post heq
      cases pre with
      | nil =>
        obtain ⟨rfl, -⟩ := cons.inj heq
        simpa using hstop
      | cons v pre =>
        obtain ⟨rfl, rfl⟩ := cons.inj heq
        simpa using h.no_stop pre u post rfl

/-! ## Scanning a run -/

def HasRun (done : List Token) (stop : Option String) (ts : List Token) (n : Nat) : Prop :=
  ∃ w rest, ts = w ++ rest ∧ w.length = n ∧ IsRun done stop w rest

lemma hasRun_nil : HasRun done stop [] n ↔ n = 0 ∧ done ≠ [] ∧ depth done = 0 ∧ stop = none := by
  have hends : EndsBefore stop [] ↔ stop = none := by cases stop <;> simp [EndsBefore]
  rw [← hends, ← isRun_nil]
  constructor
  · rintro ⟨w, rest, h, rfl, hrun⟩
    obtain ⟨rfl, rfl⟩ := append_eq_nil_iff.1 h.symm
    exact ⟨rfl, hrun⟩
  · rintro ⟨rfl, hrun⟩
    exact ⟨[], [], rfl, rfl, hrun⟩

lemma hasRun_cons : HasRun done stop (t :: ts) n ↔ (n = 0 ∧ done ≠ [] ∧ depth done = 0 ∧ EndsBefore stop (t :: ts)) ∨
      (0 ≤ depth done ∧ (depth done = 0 → t.text ≠ ";") ∧ (depth done = 0 → done ≠ [] → stop ≠ some t.text) ∧
        ∃ m, HasRun (done ++ [t]) stop ts m ∧ m + 1 = n) := by
  constructor
  · rintro ⟨w, rest, h, rfl, hrun⟩
    cases w with
    | nil =>
      rw [nil_append] at h
      exact .inl ⟨rfl, h ▸ isRun_nil.1 hrun⟩
    | cons u w =>
      obtain ⟨rfl, rfl⟩ := cons.inj h
      obtain ⟨hnonneg, hsemi, hstop, hrun⟩ := isRun_cons.1 hrun
      exact .inr ⟨hnonneg, hsemi, hstop, w.length, ⟨w, rest, rfl, rfl, hrun⟩, rfl⟩
  · rintro (⟨rfl, h⟩ | ⟨hnonneg, hsemi, hstop, m, ⟨w, rest, rfl, rfl, hrun⟩, rfl⟩)
    · exact ⟨[], t :: ts, rfl, rfl, isRun_nil.2 h⟩
    · exact ⟨t :: w, rest, rfl, rfl, isRun_cons.2 ⟨hnonneg, hsemi, hstop, hrun⟩⟩

lemma endsBefore_cons : EndsBefore stop (t :: ts) ↔ stop = some t.text ∨ stop = none ∧ t.isClosing := by
  cases stop with
  | none => simp [EndsBefore]
  | some text => simpa [EndsBefore] using eq_comm

lemma depth_nonneg_of_hasRun (h : HasRun done stop ts n) : 0 ≤ depth done := by
  obtain ⟨w, rest, -, -, hrun⟩ := h
  simpa using hrun.depth_nonneg [] w rfl

lemma hasRun_stop (hne : done ≠ []) (hzero : depth done = 0) (hstop : stop = some t.text) :
    HasRun done stop (t :: ts) n ↔ n = 0 := by
  rw [hasRun_cons, endsBefore_cons]
  constructor
  · rintro (⟨hn, -⟩ | ⟨-, -, hgo, -⟩)
    · exact hn
    · exact absurd hstop (hgo hzero hne)
  · intro hn
    exact .inl ⟨hn, hne, hzero, .inl hstop⟩

lemma not_hasRun_semicolon (hstop : depth done = 0 → done ≠ [] → stop ≠ some t.text)
    (hzero : depth done = 0) (ht : t.text = ";") : ¬HasRun done stop (t :: ts) n := by
  rw [hasRun_cons, endsBefore_cons]
  rintro (⟨-, hne, -, h | ⟨-, h⟩⟩ | ⟨-, hgo, -⟩)
  · exact hstop hzero hne h
  · simp [not_closing_of_semicolon ht] at h
  · exact hgo hzero ht

lemma hasRun_go (hnonneg : 0 ≤ depth done) (hsemi : depth done = 0 → t.text ≠ ";")
    (hstop : depth done = 0 → done ≠ [] → stop ≠ some t.text) :
    HasRun done stop (t :: ts) n ↔ (n = 0 ∧ done ≠ [] ∧ depth done = 0 ∧ stop = none ∧ t.isClosing) ∨
      ∃ m, HasRun (done ++ [t]) stop ts m ∧ m + 1 = n := by
  rw [hasRun_cons, endsBefore_cons]
  constructor
  · rintro (⟨hn, hne, hzero, h | h⟩ | ⟨-, -, -, h⟩)
    · exact absurd h (hstop hzero hne)
    · exact .inl ⟨hn, hne, hzero, h⟩
    · exact .inr h
  · rintro (⟨hn, hne, hzero, h⟩ | h)
    · exact .inl ⟨hn, hne, hzero, .inr h⟩
    · exact .inr ⟨hnonneg, hsemi, hstop, h⟩

lemma runLength_iff {started : Bool} (hd : depth done = d) (hs : started ↔ done ≠ []) :
    runLength stop d started ts = some n ↔ HasRun done stop ts n := by
  induction ts generalizing d started done n with
  | nil =>
    have hzero : d = 0 ↔ depth done = 0 := by omega
    rw [runLength, hasRun_nil, ← hs, ← hzero, ite_none_right_eq_some]
    simp only [Bool.and_eq_true, isNone_iff_eq_none, beq_iff_eq, some.injEq]
    exact ⟨fun ⟨⟨⟨h1, h2⟩, h3⟩, h4⟩ => ⟨h4.symm, h2, h3, h1⟩, fun ⟨h4, h2, h3, h1⟩ => ⟨⟨⟨h1, h2⟩, h3⟩, h4.symm⟩⟩
  | cons t ts ih =>
    have hzero : d = 0 ↔ depth done = 0 := by omega
    have hgo {d' : Nat} (hd' : depth (done ++ [t]) = d') :
        (runLength stop d' true ts).map (· + 1) = some n ↔ ∃ m, HasRun (done ++ [t]) stop ts m ∧ m + 1 = n := by
      rw [map_eq_some_iff]
      exact exists_congr fun m => and_congr_left fun _ => ih hd' (by simp)
    rw [runLength]
    split
    · rename_i h
      simp only [Bool.and_eq_true, beq_iff_eq] at h
      rw [hasRun_stop (hs.1 h.1.2) (hzero.1 h.1.1) h.2, some.injEq, eq_comm]
    rename_i h
    have hstop : depth done = 0 → done ≠ [] → stop ≠ some t.text := fun h0 hne h' =>
      h (by simp [hzero.2 h0, hs.2 hne, h'])
    split
    · rename_i h
      simp only [Bool.and_eq_true, beq_iff_eq] at h
      exact iff_of_false (by simp) (not_hasRun_semicolon hstop (hzero.1 h.1) h.2)
    rename_i h
    have hsemi : depth done = 0 → t.text ≠ ";" := fun h0 h' => h (by simp [hzero.2 h0, h'])
    rw [hasRun_go (by omega) hsemi hstop]
    split
    · rename_i ho
      rw [hgo (by rw [depth_opening ho, hd]; rfl)]
      simp [not_closing_of_opening ho]
    rename_i ho
    split
    · rename_i hc
      split
      · rename_i h0
        simp only [beq_iff_eq] at h0
        -- the bracket closes more than the run opened, so the run cannot go on with it
        have hnot : ¬∃ m, HasRun (done ++ [t]) stop ts m ∧ m + 1 = n := by
          rintro ⟨m, hrun, -⟩
          have := depth_nonneg_of_hasRun hrun
          rw [depth_closing hc] at this
          omega
        rw [or_iff_left hnot, ← hs, ← hzero, ite_none_right_eq_some]
        simp only [Bool.and_eq_true, isNone_iff_eq_none, some.injEq]
        exact ⟨fun ⟨⟨h1, h2⟩, h3⟩ => ⟨h3.symm, h2, h0, h1, hc⟩, fun ⟨h3, h2, _, h1, _⟩ => ⟨⟨h1, h2⟩, h3.symm⟩⟩
      · rename_i h0
        simp only [beq_iff_eq] at h0
        rw [hgo (by rw [depth_closing hc]; omega)]
        simp [mt hzero.2 h0]
    · rename_i hc
      rw [hgo (by rw [depth_other (by simpa using ho) (by simpa using hc), hd])]
      simp [hc]

lemma runLength_eq_some_iff :
    runLength stop 0 false ts = some n ↔ ∃ w rest, ts = w ++ rest ∧ w.length = n ∧ IsRun [] stop w rest :=
  runLength_iff rfl (by simp)

lemma isRun_flat (hw : w ≠ []) {stop : Token}
    (h : ∀ t ∈ w, t.isOpening = false ∧ t.isClosing = false ∧ t.text ≠ ";" ∧ t.text ≠ stop.text)
    (rest : List Token) : IsRun [] (some stop.text) w (stop :: rest) := by
  have hdepth {us : List Token} (hus : ∀ t ∈ us, t ∈ w) : depth ([] ++ us) = 0 := by
    have hopen : us.countP (·.isOpening) = 0 := countP_eq_zero.2 fun t ht => by simp [(h t (hus t ht)).1]
    have hclose : us.countP (·.isClosing) = 0 := countP_eq_zero.2 fun t ht => by simp [(h t (hus t ht)).2.1]
    rw [depth, nil_append, hopen, hclose]
    rfl
  refine ⟨hw, ?_, hdepth fun t ht => ht, ?_, ?_, ⟨stop, rest, rfl, rfl⟩⟩
  · rintro pre post rfl
    exact Int.le_of_eq (hdepth fun t ht => mem_append_left _ ht).symm
  · rintro pre t post rfl -
    exact (h t (by simp)).2.2.1
  · rintro pre t post rfl - - heq
    exact (h t (by simp)).2.2.2 (some.inj heq).symm

end DeviceForge.Pattern

/-! # Patterns cut tokens into windows -/

namespace DeviceForge.Pattern

open Text List Option

variable {next es : List Element} {rest w w' rest' ts before : List Token} {e : Element}
  {ws ws' : List (List Token)} {p : Pattern} {captures bs captures' : List (String × Capture)} {name : String}
  {n : Nat} {r : Nat × List (String × Capture)} {m : Match}

/-- A window fits an element that stands before the elements `next`, where the tokens `rest` follow it. -/
def Fits (next : List Element) (rest : List Token) : Element → List Token → Prop
  | .literal text, w => ∃ t, w = [t] ∧ t.text = text
  | .single cls _, w => ∃ t, w = [t] ∧ cls.accepts t.kind = true
  | .run _, w => IsRun [] (stopOf next) w rest

def Windows : List Element → List (List Token) → List Token → Prop
  | [], [], _ => True
  | e :: es, w :: ws, rest => Fits es (ws.flatten ++ rest) e w ∧ Windows es ws rest
  | _, _, _ => False

/-- What an element captures if its window is `w`, behind `n` other tokens. -/
def captured (n : Nat) (w : List Token) : Element → List (String × Capture)
  | .literal _ => []
  | .single _ name => [(name, ⟨n, w⟩)]
  | .run name => [(name, ⟨n, w⟩)]

/-- What elements capture, in their order; `n` tokens stand before the first window. -/
def bindings : Nat → List Element → List (List Token) → List (String × Capture)
  | n, e :: es, w :: ws => captured n w e ++ bindings (n + w.length) es ws
  | _, _, _ => []

/-- The tokens `ts` start with windows for the elements of a pattern, before the tokens `rest`. -/
structure Cut (p : Pattern) (ts : List Token) (ws : List (List Token)) (rest : List Token) : Prop where
  tokens_eq : ts = ws.flatten ++ rest
  windows : Windows p.elements ws rest
  /-- Windows of one name have the same text up to spaces. -/
  agree : ∀ x ∈ bindings 0 p.elements ws, ∀ y ∈ bindings 0 p.elements ws, x.1 = y.1 →
    squash x.2.text = squash y.2.text

lemma fits_ne_nil (h : Fits next rest e w) : w ≠ [] := by
  cases e with
  | literal text | single cls name => obtain ⟨t, rfl, -⟩ := h; simp
  | run name => simpa using h.ne_nil

lemma fits_unique (h : Fits next rest e w) (h' : Fits next rest' e w') (heq : w ++ rest = w' ++ rest') :
    w = w' ∧ rest = rest' := by
  apply append_inj heq
  cases e with
  | literal text | single cls name =>
    obtain ⟨t, rfl, -⟩ := h
    obtain ⟨t', rfl, -⟩ := h'
    rfl
  | run name =>
    have hlen := runLength_eq_some_iff.2 ⟨w, rest, rfl, rfl, h⟩
    have hlen' := runLength_eq_some_iff.2 ⟨w', rest', heq, rfl, h'⟩
    exact some.inj (hlen.symm.trans hlen')

lemma windows_unique (h : Windows es ws rest) (h' : Windows es ws' rest')
    (heq : ws.flatten ++ rest = ws'.flatten ++ rest') : ws = ws' ∧ rest = rest' := by
  induction es generalizing ws ws' with
  | nil =>
    cases ws with
    | cons w ws => exact h.elim
    | nil =>
      cases ws' with
      | cons w ws => exact h'.elim
      | nil => exact ⟨rfl, heq⟩
  | cons e es ih =>
    cases ws with
    | nil => exact h.elim
    | cons w ws =>
      cases ws' with
      | nil => exact h'.elim
      | cons w' ws' =>
        rw [flatten_cons, flatten_cons, append_assoc, append_assoc] at heq
        -- what follows the first window is the same in both cuts, whatever its windows are
        obtain ⟨rfl, hrest⟩ := fits_unique h.1 h'.1 heq
        obtain ⟨rfl, rfl⟩ := ih h.2 h'.2 hrest
        exact ⟨rfl, rfl⟩

lemma cut_unique (h : Cut p ts ws rest) (h' : Cut p ts ws' rest') : ws = ws' ∧ rest = rest' :=
  windows_unique h.windows h'.windows (h.tokens_eq.symm.trans h'.tokens_eq)

def bindAll (captures bs : List (String × Capture)) : Option (List (String × Capture)) :=
  bs.foldlM (fun captures x => bind captures x.1 x.2) captures

lemma bindAll_append (captures as bs : List (String × Capture)) :
    bindAll captures (as ++ bs) = (bindAll captures as).bind (bindAll · bs) :=
  foldlM_append

lemma bindAll_cons (captures : List (String × Capture)) (name : String) (c : Capture) (bs : List (String × Capture)) :
    bindAll captures ((name, c) :: bs) = match captures.lookup name with
      | some old => if squash old.text = squash c.text then bindAll captures bs else none
      | none => bindAll (captures ++ [(name, c)]) bs := by
  rw [bindAll, foldlM_cons, bind]
  cases captures.lookup name with
  | none => rfl
  | some old =>
    dsimp only
    split <;> rfl

lemma lookup_append_cons {old : Capture} (h : captures.lookup name = some old) (c : Capture)
    (bs : List (String × Capture)) (other : String) :
    (captures ++ (name, c) :: bs).lookup other = (captures ++ bs).lookup other := by
  rw [lookup_append, lookup_append, lookup_cons]
  by_cases hname : other = name
  · rw [hname, h]
    rfl
  · rw [beq_false_of_ne hname]

lemma lookup_bindAll (h : bindAll captures bs = some captures') (name : String) :
    captures'.lookup name = (captures ++ bs).lookup name := by
  induction bs generalizing captures with
  | nil =>
    obtain rfl := some.inj h
    rw [append_nil]
  | cons x bs ih =>
    obtain ⟨other, c⟩ := x
    rw [bindAll_cons] at h
    split at h
    · rename_i old hold
      rw [lookup_append_cons hold]
      exact ih (ite_none_right_eq_some.1 h).2
    · rw [ih h, append_assoc, singleton_append]

lemma bindAll_isSome_iff : (bindAll captures bs).isSome ↔
      ∀ x ∈ bs, ∀ old, (captures ++ bs).lookup x.1 = some old → squash old.text = squash x.2.text := by
  induction bs generalizing captures with
  | nil => simp [bindAll]
  | cons x bs ih =>
    obtain ⟨name, c⟩ := x
    rw [bindAll_cons, forall_mem_cons]
    split
    · -- the name is bound, and this window neither adds nor hides one
      rename_i old hold
      have hfirst : (captures ++ (name, c) :: bs).lookup name = some old := by
        rw [lookup_append, hold]
        rfl
      simp only [hfirst, some.injEq, forall_eq', lookup_append_cons hold, ← ih]
      split <;> simp [*]
    · -- the name is new, and this window is the first one of it
      rename_i hnew
      have happend : captures ++ (name, c) :: bs = (captures ++ [(name, c)]) ++ bs := by
        rw [append_assoc, singleton_append]
      have hfirst : ((captures ++ [(name, c)]) ++ bs).lookup name = some c := by
        rw [← happend, lookup_append, hnew, lookup_cons_self]
        rfl
      simp only [happend, hfirst, some.injEq, forall_eq', true_and, ih]

lemma bindAll_nil_isSome_iff :
    (bindAll [] bs).isSome ↔ ∀ x ∈ bs, ∀ y ∈ bs, x.1 = y.1 → squash x.2.text = squash y.2.text := by
  rw [bindAll_isSome_iff, nil_append]
  constructor
  · intro h x hx y hy hname
    obtain ⟨old, hold⟩ : ∃ old, bs.lookup x.1 = some old := by
      rw [← isSome_iff_exists, lookup_isSome_iff]
      exact ⟨x, hx, by simp⟩
    rw [← h x hx old hold, ← h y hy old (hname ▸ hold)]
  · intro h x hx old hold
    obtain ⟨l₁, l₂, rfl, -⟩ := lookup_eq_some_iff.1 hold
    exact h (x.1, old) (by simp) x hx rfl

/-! ## Matching -/

lemma matchElements_cons : matchElements (e :: es) n ts captures = some r ↔
      ∃ w rest captures', ts = w ++ rest ∧ Fits es rest e w ∧ bindAll captures (captured n w e) = some captures' ∧
        matchElements es (n + w.length) rest captures' = some r := by
  cases e with
  | literal text =>
    constructor
    · intro h
      cases ts with
      | nil => cases h
      | cons t ts =>
        obtain ⟨ht, h⟩ := ite_none_right_eq_some.1 h
        exact ⟨[t], ts, captures, rfl, ⟨t, rfl, ht⟩, rfl, h⟩
    · rintro ⟨w, rest, mid, rfl, ⟨t, rfl, ht⟩, hbind, h⟩
      obtain rfl := some.inj hbind
      exact ite_none_right_eq_some.2 ⟨ht, h⟩
  | single cls name =>
    constructor
    · intro h
      cases ts with
      | nil => cases h
      | cons t ts =>
        obtain ⟨ht, h⟩ := ite_none_right_eq_some.1 h
        obtain ⟨mid, hbind, h⟩ := bind_eq_some_iff.1 h
        exact ⟨[t], ts, mid, rfl, ⟨t, rfl, ht⟩, by simp [captured, bindAll, hbind], h⟩
    · rintro ⟨w, rest, mid, rfl, ⟨t, rfl, ht⟩, hbind, h⟩
      refine ite_none_right_eq_some.2 ⟨ht, bind_eq_some_iff.2 ⟨mid, ?_, h⟩⟩
      simpa [captured, bindAll] using hbind
  | run name =>
    rw [matchElements]
    simp only [bind_eq_bind, bind_eq_some_iff, runLength_eq_some_iff]
    constructor
    · rintro ⟨k, ⟨w, rest, rfl, rfl, hrun⟩, mid, hbind, h⟩
      rw [take_left] at hbind
      rw [drop_left] at h
      exact ⟨w, rest, mid, rfl, hrun, by simp [captured, bindAll, hbind], h⟩
    · rintro ⟨w, rest, mid, rfl, hrun, hbind, h⟩
      refine ⟨w.length, ⟨w, rest, rfl, rfl, hrun⟩, mid, ?_, by rwa [drop_left]⟩
      rw [take_left]
      simpa [captured, bindAll] using hbind

lemma matchElements_eq_some_iff : matchElements es n ts captures = some r ↔
      ∃ ws rest captures', ts = ws.flatten ++ rest ∧ Windows es ws rest ∧
        bindAll captures (bindings n es ws) = some captures' ∧ (n + ws.flatten.length, captures') = r := by
  induction es generalizing n ts captures with
  | nil =>
    constructor
    · intro h
      exact ⟨[], ts, captures, rfl, trivial, rfl, some.inj h⟩
    · rintro ⟨ws, rest, captures', -, hwindows, hbind, rfl⟩
      cases ws with
      | nil =>
        obtain rfl := some.inj hbind
        rfl
      | cons w ws => exact hwindows.elim
  | cons e es ih =>
    rw [matchElements_cons]
    constructor
    · rintro ⟨w, rest, mid, rfl, hfits, hbind, h⟩
      obtain ⟨ws, rest, captures', rfl, hwindows, hbinds, rfl⟩ := ih.1 h
      refine ⟨w :: ws, rest, captures', by simp, ⟨hfits, hwindows⟩, ?_, by simp [Nat.add_assoc]⟩
      rw [bindings, bindAll_append, hbind]
      exact hbinds
    · rintro ⟨ws, rest, captures', rfl, hwindows, hbinds, rfl⟩
      cases ws with
      | nil => exact hwindows.elim
      | cons w ws =>
        rw [bindings, bindAll_append] at hbinds
        obtain ⟨mid, hbind, hbinds⟩ := bind_eq_some_iff.1 hbinds
        refine ⟨w, ws.flatten ++ rest, mid, by simp, hwindows.1, hbind, ih.2 ?_⟩
        exact ⟨ws, rest, captures', rfl, hwindows.2, hbinds, by simp [Nat.add_assoc]⟩

lemma windows_ne_nil (hes : es ≠ []) (h : Windows es ws rest) : ws.flatten ≠ [] := by
  cases es with
  | nil => exact absurd rfl hes
  | cons e es =>
    cases ws with
    | nil => exact h.elim
    | cons w ws => simp [fits_ne_nil h.1]

lemma matchAt?_eq_none (hp : p.elements = []) : p.matchAt? before ts = none := by
  simp [matchAt?, hp]

lemma matchAt?_eq_some_iff (hp : p.elements ≠ []) : p.matchAt? before ts = some m ↔
      ∃ ws rest captures, ts = ws.flatten ++ rest ∧ Windows p.elements ws rest ∧
        bindAll [] (bindings 0 p.elements ws) = some captures ∧ ⟨before, ws.flatten, rest, captures⟩ = m := by
  rw [matchAt?]
  constructor
  · intro h
    obtain ⟨-, h⟩ := ite_none_left_eq_some.1 h
    obtain ⟨r, hmatch, rfl⟩ := map_eq_some_iff.1 h
    obtain ⟨ws, rest, captures, rfl, hwindows, hbind, rfl⟩ := matchElements_eq_some_iff.1 hmatch
    exact ⟨ws, rest, captures, rfl, hwindows, hbind, by simp⟩
  · rintro ⟨ws, rest, captures, rfl, hwindows, hbind, rfl⟩
    rw [if_neg (by simp [hp, windows_ne_nil hp hwindows]),
      matchElements_eq_some_iff.2 ⟨ws, rest, captures, rfl, hwindows, hbind, rfl⟩]
    simp

lemma isSome_matchAt?_iff (hp : p.elements ≠ []) : (p.matchAt? before ts).isSome ↔ ∃ ws rest, Cut p ts ws rest := by
  rw [isSome_iff_exists]
  constructor
  · rintro ⟨m, h⟩
    obtain ⟨ws, rest, captures, heq, hwindows, hbind, -⟩ := (matchAt?_eq_some_iff hp).1 h
    exact ⟨ws, rest, heq, hwindows, bindAll_nil_isSome_iff.1 (by rw [hbind]; rfl)⟩
  · rintro ⟨ws, rest, heq, hwindows, hagree⟩
    obtain ⟨captures, hbind⟩ := isSome_iff_exists.1 (bindAll_nil_isSome_iff.2 hagree)
    exact ⟨_, (matchAt?_eq_some_iff hp).2 ⟨ws, rest, captures, heq, hwindows, hbind, rfl⟩⟩

lemma matchAt?_eq_some_of_cut (hp : p.elements ≠ []) (h : p.matchAt? before ts = some m) (hcut : Cut p ts ws rest) :
    m.before = before ∧ m.window = ws.flatten ∧ m.after = rest ∧
      ∀ name, m.capture? name = (bindings 0 p.elements ws).lookup name := by
  obtain ⟨ws', rest', captures, heq, hwindows, hbind, rfl⟩ := (matchAt?_eq_some_iff hp).1 h
  obtain ⟨rfl, rfl⟩ := windows_unique hwindows hcut.windows (heq.symm.trans hcut.tokens_eq)
  exact ⟨rfl, rfl, rfl, lookup_bindAll hbind⟩

lemma windows_single {cls : Class} :
    Windows (.single cls name :: es) ws rest ↔ ∃ t vs, ws = [t] :: vs ∧ cls.accepts t.kind ∧ Windows es vs rest := by
  constructor
  · intro h
    cases ws with
    | nil => exact h.elim
    | cons w ws =>
      obtain ⟨⟨t, rfl, ht⟩, hws⟩ := h
      exact ⟨t, ws, rfl, ht, hws⟩
  · rintro ⟨t, vs, rfl, ht, hvs⟩
    exact ⟨⟨t, rfl, ht⟩, hvs⟩

lemma windows_run :
    Windows (.run name :: es) ws rest ↔ ∃ w vs, ws = w :: vs ∧ IsRun [] (stopOf es) w (vs.flatten ++ rest) ∧ Windows es vs rest := by
  constructor
  · intro h
    cases ws with
    | nil => exact h.elim
    | cons w ws => exact ⟨w, ws, rfl, h⟩
  · rintro ⟨w, vs, rfl, hw, hvs⟩
    exact ⟨hw, hvs⟩

lemma windows_literals {texts : List String} : Windows (texts.map .literal ++ es) ws rest ↔
      ∃ (us : List Token) (vs : List (List Token)), ws = us.map ([·]) ++ vs ∧ us.map (·.text) = texts ∧ Windows es vs rest := by
  induction texts generalizing ws with
  | nil =>
    constructor
    · exact fun h => ⟨[], ws, rfl, rfl, h⟩
    · rintro ⟨us, vs, rfl, hus, hvs⟩
      obtain rfl := map_eq_nil_iff.1 hus
      exact hvs
  | cons text texts ih =>
    constructor
    · intro h
      cases ws with
      | nil => exact h.elim
      | cons w ws =>
        obtain ⟨⟨t, rfl, rfl⟩, hws⟩ := h
        obtain ⟨us, vs, rfl, rfl, hvs⟩ := ih.1 hws
        exact ⟨t :: us, vs, rfl, rfl, hvs⟩
    · rintro ⟨us, vs, rfl, hus, hvs⟩
      obtain ⟨t, us, rfl, rfl, rfl⟩ := map_eq_cons_iff.1 hus
      exact ⟨⟨t, rfl, rfl⟩, ih.2 ⟨us, vs, rfl, rfl, hvs⟩⟩

lemma bindings_literals (n : Nat) (us : List Token) (es : List Element) (vs : List (List Token)) :
    bindings n ((us.map (·.text)).map .literal ++ es) (us.map ([·]) ++ vs) = bindings (n + us.length) es vs := by
  induction us generalizing n with
  | nil => rfl
  | cons u us ih =>
    simp only [map_cons, cons_append, bindings, captured, nil_append, ih, length_cons, length_nil]
    rw [Nat.zero_add, Nat.add_assoc, Nat.add_comm 1]

end DeviceForge.Pattern
