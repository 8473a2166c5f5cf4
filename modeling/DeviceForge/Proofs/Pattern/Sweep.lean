import DeviceForge.Proofs.Pattern.Cut
import DeviceForge.Proofs.Code.Append
/-!
# Where a match stands in the text

A match measures its places on its own tokens.
-/

namespace DeviceForge

open List Code Match

/-! ## Offsets of a match -/

namespace Match

lemma first_eq_length (m : Match) : m.first = m.before.reverse.length :=
  length_reverse.symm

variable {s : String} {m : Match} (h : m.before.reverse ++ (m.window ++ m.after) = (Code.ofString s).tokens)
include h

lemma last_le : m.last ≤ (ofString s).tokens.length := by
  rw [← h, length_append, length_append, ← first_eq_length, last, first]
  omega

lemma width_take {k : Nat} (hk : k ≤ m.window.length) :
    width m.before + width (m.window.take k) = width ((ofString s).tokens.take (m.first + k)) := by
  rw [← h, first_eq_length, take_length_add_append, take_append_of_le_length hk, width_append, width_reverse]

lemma startOf_eq {i : Nat} (hi : i < m.window.length) : m.startOf i = startAt (ofString s).tokens (m.first + i) := by
  have hget : (ofString s).tokens[m.first + i]? = m.window[i]? := by
    rw [← h, first_eq_length, getElem?_append_right (Nat.le_add_right _ _), Nat.add_sub_cancel_left,
      getElem?_append_left hi]
  rw [startOf, width_take h (Nat.le_of_lt hi), startAt, hget]

end Match

namespace Pattern

variable {ws : List (List Token)} {rest pre post : List Token} {s : String} {m : Match}

lemma mem_bindings {n : Nat} {es : List Element} (h : Windows es ws rest) {x : String × Capture}
    (hx : x ∈ bindings n es ws) :
    x.2.tokens ≠ [] ∧ ∃ pre post, ws.flatten = pre ++ (x.2.tokens ++ post) ∧ x.2.skipped = n + pre.length := by
  induction es generalizing n ws with
  | nil => cases hx
  | cons e es ih =>
    cases ws with
    | nil => cases hx
    | cons w ws =>
      rcases mem_append.1 hx with hx | hx
      · have hc : x.2 = ⟨n, w⟩ := by
          cases e with
          | literal text => cases hx
          | single cls name => rw [mem_singleton.1 hx]
          | run name => rw [mem_singleton.1 hx]
        rw [hc]
        exact ⟨fits_ne_nil h.1, [], ws.flatten, rfl, rfl⟩
      · obtain ⟨hne, pre, post, heq, hskip⟩ := ih h.2 hx
        refine ⟨hne, w ++ pre, post, ?_, ?_⟩
        · rw [flatten_cons, heq, List.append_assoc]
        · rw [hskip, length_append, Nat.add_assoc]

/-- A capture takes the text from byte `a` up to byte `b`: from the start of the first of its tokens to the
end of the last. The match starts at the token with index `start`. -/
structure Takes (s : String) (start : Nat) (c : Capture) (a b : Nat) : Prop where
  start_eq : ((places s)[start + c.skipped]?).map (·.start) = some a
  stop_eq : ((places s)[start + c.skipped + c.tokens.length - 1]?).map (·.stop) = some b
  text_eq : c.text.toUTF8.data.toList = (s.toUTF8.data.toList.take b).drop a

/-- A match reports windows `ws` that start at the token with index `start` of a text. -/
structure Reports (s : String) (start : Nat) (p : Pattern) (ws : List (List Token)) (m : Match) : Prop where
  first_eq : m.first = start
  last_eq : m.last = start + ws.flatten.length
  start_eq : ((places s)[m.first]?).map (·.start) = some m.start
  stop_eq : ((places s)[m.last - 1]?).map (·.stop) = some m.stop
  /-- A name stands for the first window that it captured. -/
  capture_eq : ∀ name, m.capture? name = (bindings 0 p.elements ws).lookup name
  takes : ∀ x ∈ bindings 0 p.elements ws, Takes s start x.2 (m.spanOf x.2).1 (m.spanOf x.2).2

lemma takes_spanOf (h : m.before.reverse ++ (m.window ++ m.after) = (Code.ofString s).tokens)
    {c : Capture} (hne : c.tokens ≠ []) (hwindow : m.window = pre ++ (c.tokens ++ post))
    (hskip : c.skipped = pre.length) : Takes s m.first c (m.spanOf c).1 (m.spanOf c).2 := by
  have hpos := length_pos_of_ne_nil hne
  have hwlen : m.window.length = c.skipped + c.tokens.length + post.length := by
    rw [hwindow, hskip, length_append, length_append, Nat.add_assoc]
  have hlen : m.first + m.window.length ≤ (Code.ofString s).tokens.length := last_le h
  have hmid : ((Code.ofString s).tokens.drop (m.first + c.skipped)).take c.tokens.length = c.tokens := by
    rw [← h, first_eq_length, drop_length_add_append, hwindow, hskip, List.append_assoc, drop_left,
      List.append_assoc, take_left]
  have hstart : (m.spanOf c).1 = startAt (Code.ofString s).tokens (m.first + c.skipped) :=
    startOf_eq h (by omega)
  have hstop : (m.spanOf c).2 = Code.width ((Code.ofString s).tokens.take (m.first + c.skipped + c.tokens.length)) := by
    rw [Nat.add_assoc]
    exact width_take h (by omega)
  rw [hstart, hstop]
  refine ⟨(place_at (by omega)).1, ?_, ?_⟩
  · have hplace := (place_at (s := s) (i := m.first + c.skipped + c.tokens.length - 1) (by omega)).2
    rwa [Nat.sub_add_cancel (by omega)] at hplace
  · have hbytes := bytes_span (s := s) (i := m.first + c.skipped) hpos (by omega)
    rwa [hmid] at hbytes

lemma reports_of_cut {p : Pattern} (hp : p.elements ≠ []) {start : Nat}
    (h : p.matchAt? ((Code.ofString s).tokens.take start).reverse ((Code.ofString s).tokens.drop start) = some m)
    (hcut : Cut p ((Code.ofString s).tokens.drop start) ws rest) : Reports s start p ws m := by
  obtain ⟨hbefore, hwindow, hafter, hcapture⟩ := matchAt?_eq_some_of_cut hp h hcut
  have hpos : 0 < m.window.length := by
    rw [hwindow]
    exact length_pos_of_ne_nil (windows_ne_nil hp hcut.windows)
  have htokens : m.before.reverse ++ (m.window ++ m.after) = (Code.ofString s).tokens := by
    rw [hbefore, hwindow, hafter, reverse_reverse, ← hcut.tokens_eq, take_append_drop]
  have hlen : m.first + m.window.length ≤ (Code.ofString s).tokens.length := last_le htokens
  -- there is a token at `start`, so all of the first `start` tokens stand before the match
  have hfirst : m.first = start := by
    have hdrop := congrArg length hcut.tokens_eq
    rw [length_drop, length_append, ← hwindow] at hdrop
    rw [first, hbefore, length_reverse, length_take]
    omega
  have hlast : m.last = m.first + m.window.length := rfl
  refine ⟨hfirst, by rw [hlast, hfirst, hwindow], ?_, ?_, hcapture, ?_⟩
  · rw [(place_at (by omega)).1, Match.start, Match.startOf_eq htokens hpos, Nat.add_zero]
  · have hplace := (place_at (s := s) (i := m.last - 1) (by omega)).2
    have hstop := width_take htokens (Nat.le_refl _)
    rw [take_length] at hstop
    rw [hplace, Nat.sub_add_cancel (by omega), stop, hstop, hlast]
  · intro x hx
    obtain ⟨hne, pre, post, hflat, hskip⟩ := mem_bindings hcut.windows hx
    rw [Nat.zero_add] at hskip
    have htakes := takes_spanOf htokens hne (hwindow.trans hflat) hskip
    rwa [hfirst] at htakes

/-- Matching at a token of a text succeeds exactly if the pattern has elements and the tokens from there on
can be cut for it. There is only one cut, and the match reports it. -/
theorem matchAt?_cuts (p : Pattern) (s : String) (start : Nat) :
    let ts := (Code.ofString s).tokens
    let found := p.matchAt? (ts.take start).reverse (ts.drop start)
    (found.isSome ↔ p.elements ≠ [] ∧ ∃ ws rest, Cut p (ts.drop start) ws rest) ∧
    (∀ ws rest ws' rest', Cut p (ts.drop start) ws rest → Cut p (ts.drop start) ws' rest' → ws = ws' ∧ rest = rest') ∧
    ∀ m ws rest, found = some m → Cut p (ts.drop start) ws rest → Reports s start p ws m := by
  intro ts found
  by_cases hp : p.elements = []
  · have hnone : found = none := matchAt?_eq_none hp
    refine ⟨by simp [hnone, hp], fun _ _ _ _ => cut_unique, ?_⟩
    intro m ws rest hm
    rw [hnone] at hm
    cases hm
  · refine ⟨?_, fun _ _ _ _ => cut_unique, ?_⟩
    · rw [isSome_matchAt?_iff hp]
      exact (and_iff_right hp).symm
    · intro m ws rest hm hcut
      exact reports_of_cut hp hm hcut

/-- No tokens are needed to cut for a pattern without elements, but it does not match. -/
theorem not_matchAt?_no_elements :
    let ts := (Code.ofString "a").tokens
    ¬(((ofString "").matchAt? [] ts).isSome ↔ ∃ ws rest, Cut (ofString "") ts ws rest) := by
  intro ts h
  have hempty : (ofString "").elements = [] := by decide +kernel
  have hcut : Cut (ofString "") ts [] ts := ⟨rfl, by rw [hempty]; trivial, by rw [hempty]; simp [bindings]⟩
  have hsome := h.2 ⟨[], ts, hcut⟩
  rw [matchAt?_eq_none hempty] at hsome
  cases hsome

end Pattern

end DeviceForge

/-! # A pass of a pattern over a text -/

namespace DeviceForge

open List Code Option Text Token Pattern Match

namespace Text

/-- The bytes from `start` up to `stop` give way to a text. -/
structure Edit where
  start : Nat
  stop : Nat
  new : String
  deriving DecidableEq, Repr

/-- What stands from the byte `pos` on after the edits. -/
def edited (bs : List UInt8) (pos : Nat) : List Edit → List UInt8
  | [] => bs.drop pos
  | e :: es => (bs.take e.start).drop pos ++ (e.new.toUTF8.data.toList ++ edited bs e.stop es)

lemma drop_eq_between (bs : List UInt8) {pos mid : Nat} (h : pos ≤ mid) : bs.drop pos = (bs.take mid).drop pos ++ bs.drop mid := by
  rw [drop_take]
  conv_lhs => rw [← take_append_drop (mid - pos) (bs.drop pos), drop_drop, Nat.add_sub_cancel' h]

lemma edited_skip (bs : List UInt8) {pos mid : Nat} (h : pos ≤ mid) {es : List Edit} (hes : ∀ e ∈ es, mid ≤ e.start) :
    edited bs pos es = (bs.take mid).drop pos ++ edited bs mid es := by
  cases es with
  | nil => exact drop_eq_between bs h
  | cons e es =>
    have hmid := hes e mem_cons_self
    have hbetween := drop_eq_between (bs.take e.start) h
    rw [take_take, Nat.min_eq_left hmid] at hbetween
    rw [edited, edited, hbetween, List.append_assoc]

lemma edited_same {bs : List UInt8} {pos : Nat} {es : List Edit} (hstart : ∀ e ∈ es, pos ≤ e.start)
    (horder : es.Pairwise fun e e' => e.stop ≤ e'.start) (hspan : ∀ e ∈ es, e.start ≤ e.stop)
    (hsame : ∀ e ∈ es, e.new.toUTF8.data.toList = (bs.take e.stop).drop e.start) : edited bs pos es = bs.drop pos := by
  induction es generalizing pos with
  | nil => rfl
  | cons e es ih =>
    obtain ⟨hfirst, hrest⟩ := pairwise_cons.1 horder
    have hpos := hstart e mem_cons_self
    have hle := hspan e mem_cons_self
    rw [edited, hsame e mem_cons_self,
      ih hfirst hrest (fun e' he' => hspan e' (mem_cons_of_mem _ he')) (fun e' he' => hsame e' (mem_cons_of_mem _ he')),
      ← drop_eq_between bs hle, ← drop_eq_between bs hpos]

end Text

namespace Match

/-- The match is the one that the pattern has at its first token among all tokens. -/
def IsIn (m : Match) (p : Pattern) (ts : List Token) : Prop :=
  p.matchAt? (ts.take m.first).reverse (ts.drop m.first) = some m

end Match

namespace Pattern

lemma of_matchAt? {p : Pattern} {before rest : List Token} {m : Match} (h : p.matchAt? before rest = some m) :
    m.before = before ∧ m.window ++ m.after = rest ∧ 0 < m.window.length := by
  have hp : p.elements ≠ [] := by
    intro hnil
    simp [matchAt?_eq_none hnil] at h
  obtain ⟨ws, after, captures, rfl, hwindows, -, rfl⟩ := (matchAt?_eq_some_iff hp).1 h
  exact ⟨rfl, rfl, length_pos_of_ne_nil (windows_ne_nil hp hwindows)⟩

end Pattern

namespace Match

variable {p : Pattern} {m : Match}
variable {before rest ts : List Token}

lemma isIn_of_matchAt? (h : p.matchAt? before rest = some m) : m.IsIn p (before.reverse ++ rest) := by
  have hlen : m.first = before.reverse.length := by rw [m.first_eq_length, (of_matchAt? h).1]
  rw [IsIn, hlen, take_left, drop_left, reverse_reverse]
  exact h

lemma IsIn.tokens_eq (h : m.IsIn p ts) : m.before.reverse ++ (m.window ++ m.after) = ts := by
  obtain ⟨hbefore, hwindow, -⟩ := of_matchAt? h
  rw [hbefore, hwindow, reverse_reverse, take_append_drop]

lemma IsIn.first_lt_last (h : m.IsIn p ts) : m.first < m.last := by
  have hpos := (of_matchAt? h).2.2
  rw [first, last]
  omega

lemma IsIn.width_le_start (h : m.IsIn p ts) {n : Nat} (hn : n ≤ m.first) : width (ts.take n) ≤ m.start := by
  have htake : ts.take m.first = ts.take n ++ (ts.take m.first).drop n := by
    conv_lhs => rw [← take_append_drop n (ts.take m.first), take_take, Nat.min_eq_left hn]
  have hbefore : width m.before = width (ts.take m.first) := by rw [(of_matchAt? h).1, width_reverse]
  rw [start, startOf, hbefore, htake, width_append]
  omega

lemma IsIn.stop_eq (h : m.IsIn p ts) : m.stop = width (ts.take m.last) := by
  rw [← h.tokens_eq, last, ← length_reverse, take_length_add_append, take_left, width_append, width_reverse, stop]

lemma IsIn.start_le_stop (h : m.IsIn p ts) : m.start ≤ m.stop := by
  obtain ⟨t, w, hw⟩ := exists_cons_of_length_pos (of_matchAt? h).2.2
  rw [start, startOf, stop, hw]
  simp only [take_zero, Code.width, getElem?_cons_zero, elim_some, size]
  omega

end Match

namespace Pattern

/-! ## The steps of a pass -/

inductive Sweep {σ : Type} (p : Pattern) (rule : σ → Match → σ × Option String) :
    σ → Nat → List Token → List Token → List (Match × Option String) → List String → σ → Prop
  | done {state : σ} {skip : Nat} {before : List Token} : Sweep p rule state skip before [] [] [] state
  | skipped {state final : σ} {skip : Nat} {t : Token} {before ts : List Token} {asked : List (Match × Option String)}
      {pieces : List String} (h : Sweep p rule state skip (t :: before) ts asked pieces final) :
      Sweep p rule state (skip + 1) before (t :: ts) asked pieces final
  | unmatched {state final : σ} {t : Token} {before ts : List Token} {asked : List (Match × Option String)}
      {pieces : List String} (hnone : p.matchAt? before (t :: ts) = none) (h : Sweep p rule state 0 (t :: before) ts asked pieces final) :
      Sweep p rule state 0 before (t :: ts) asked (t.lead :: t.text :: pieces) final
  | declined {state next final : σ} {t : Token} {before ts : List Token} {m : Match} {asked : List (Match × Option String)}
      {pieces : List String} (hmatch : p.matchAt? before (t :: ts) = some m) (hrule : rule state m = (next, none))
      (h : Sweep p rule next 0 (t :: before) ts asked pieces final) :
      Sweep p rule state 0 before (t :: ts) ((m, none) :: asked) (t.lead :: t.text :: pieces) final
  | replaced {state next final : σ} {t : Token} {before ts : List Token} {m : Match} {new : String}
      {asked : List (Match × Option String)} {pieces : List String} (hmatch : p.matchAt? before (t :: ts) = some m)
      (hrule : rule state m = (next, some new)) (h : Sweep p rule next (m.window.length - 1) (t :: before) ts asked pieces final) :
      Sweep p rule state 0 before (t :: ts) ((m, some new) :: asked) (t.lead :: new :: pieces) final

section
variable {σ : Type} {p : Pattern} {rule : σ → Match → σ × Option String}

lemma exists_pass (p : Pattern) (rule : σ → Match → σ × Option String) (state : σ) (skip : Nat) (before ts : List Token) :
    ∃ asked, Sweep p rule state skip before ts asked (p.replacePieces rule state skip before ts).2
      (p.replacePieces rule state skip before ts).1 := by
  induction ts generalizing state skip before with
  | nil => exact ⟨[], by cases skip <;> exact .done⟩
  | cons t ts ih =>
    cases skip with
    | succ skip =>
      obtain ⟨asked, h⟩ := ih state skip (t :: before)
      exact ⟨asked, .skipped h⟩
    | zero =>
      unfold replacePieces
      cases hmatch : p.matchAt? before (t :: ts) with
      | none =>
        obtain ⟨asked, h⟩ := ih state 0 (t :: before)
        exact ⟨asked, .unmatched hmatch h⟩
      | some m =>
        obtain ⟨next, answer, hrule⟩ : ∃ next answer, rule state m = (next, answer) := ⟨_, _, rfl⟩
        cases answer with
        | none =>
          obtain ⟨asked, h⟩ := ih next 0 (t :: before)
          simp only [hrule]
          exact ⟨(m, none) :: asked, .declined hmatch hrule h⟩
        | some new =>
          obtain ⟨asked, h⟩ := ih next (m.window.length - 1) (t :: before)
          simp only [hrule]
          exact ⟨(m, some new) :: asked, .replaced hmatch hrule h⟩

lemma pass_findAll (skip : Nat) (before ts : List Token) :
    ∃ pieces, Sweep p (fun (_ : Unit) _ => ((), some "")) () skip before ts ((p.findAllFrom skip before ts).map (·, some "")) pieces () := by
  induction ts generalizing skip before with
  | nil => exact ⟨[], by cases skip <;> exact .done⟩
  | cons t ts ih =>
    cases skip with
    | succ skip =>
      obtain ⟨pieces, h⟩ := ih skip (t :: before)
      exact ⟨pieces, .skipped h⟩
    | zero =>
      unfold findAllFrom
      cases hmatch : p.matchAt? before (t :: ts) with
      | none =>
        obtain ⟨pieces, h⟩ := ih 0 (t :: before)
        exact ⟨_, .unmatched hmatch h⟩
      | some m =>
        obtain ⟨pieces, h⟩ := ih (m.window.length - 1) (t :: before)
        exact ⟨_, .replaced hmatch rfl h⟩

/-! ## What a pass asks -/

/-- The rule gives these answers one after the other, and is in the state `final` then. -/
inductive Answers (rule : σ → Match → σ × Option String) : σ → List (Match × Option String) → σ → Prop
  | nil {state : σ} : Answers rule state [] state
  | cons {state next final : σ} {m : Match} {answer : Option String} {asked : List (Match × Option String)}
      (hrule : rule state m = (next, answer)) (h : Answers rule next asked final) : Answers rule state ((m, answer) :: asked) final

/-- The index from which on the search goes on behind a match with its answer. -/
def resumes : Match × Option String → Nat
  | (m, some _) => m.last
  | (m, none) => m.first + 1

variable {state final : σ} {skip : Nat} {before ts : List Token} {asked : List (Match × Option String)} {pieces : List String}
  (h : Sweep p rule state skip before ts asked pieces final)

include h in
lemma Sweep.answers : Answers rule state asked final := by
  induction h with
  | done => exact .nil
  | skipped _ ih => exact ih
  | unmatched _ _ ih => exact ih
  | declined _ hrule _ ih => exact .cons hrule ih
  | replaced _ hrule _ ih => exact .cons hrule ih

lemma reverse_cons_append (t : Token) (before ts : List Token) : (t :: before).reverse ++ ts = before.reverse ++ t :: ts := by
  simp

include h in
lemma Sweep.isIn : ∀ x ∈ asked, x.1.IsIn p (before.reverse ++ ts) := by
  induction h with
  | done => simp
  | skipped _ ih | unmatched _ _ ih => rwa [reverse_cons_append] at ih
  | declined hmatch _ _ ih =>
    rw [reverse_cons_append] at ih
    exact forall_mem_cons.2 ⟨isIn_of_matchAt? hmatch, ih⟩
  | replaced hmatch _ _ ih =>
    rw [reverse_cons_append] at ih
    exact forall_mem_cons.2 ⟨isIn_of_matchAt? hmatch, ih⟩

include h in
lemma Sweep.le_first : ∀ x ∈ asked, before.length + skip ≤ x.1.first := by
  induction h with
  | done => simp
  | skipped _ ih | unmatched _ _ ih =>
    intro x hx
    have hle := ih x hx
    rw [length_cons] at hle
    omega
  | declined hmatch _ _ ih | replaced hmatch _ _ ih =>
    refine forall_mem_cons.2 ⟨?_, fun x hx => ?_⟩
    · rw [first, (of_matchAt? hmatch).1]
      exact Nat.le_refl _
    · have hle := ih x hx
      rw [length_cons] at hle
      omega

include h in
lemma Sweep.ordered : asked.Pairwise fun x y => resumes x ≤ y.1.first := by
  induction h with
  | done => exact .nil
  | skipped _ ih => exact ih
  | unmatched _ _ ih => exact ih
  | declined hmatch _ h ih =>
    refine pairwise_cons.2 ⟨fun y hy => ?_, ih⟩
    have hle := h.le_first y hy
    rw [resumes, first, (of_matchAt? hmatch).1]
    exact hle
  | replaced hmatch _ h ih =>
    refine pairwise_cons.2 ⟨fun y hy => ?_, ih⟩
    have hle := h.le_first y hy
    obtain ⟨hbefore, -, hpos⟩ := of_matchAt? hmatch
    rw [resumes, last, hbefore]
    rw [length_cons] at hle
    omega

include h in
lemma Sweep.complete {i : Nat} (hi : before.length + skip ≤ i)
    (hsome : (p.matchAt? ((before.reverse ++ ts).take i).reverse ((before.reverse ++ ts).drop i)).isSome) :
    ∃ x ∈ asked, x.1.first ≤ i ∧ i < resumes x := by
  induction h with
  | done =>
    rw [append_nil, drop_of_length_le (by rw [length_reverse]; omega)] at hsome
    simp [matchAt?] at hsome
  | skipped h ih =>
    rw [← reverse_cons_append] at hsome
    exact ih (by rw [length_cons]; omega) hsome
  | @unmatched _ _ t before ts _ _ hnone _ ih =>
    rcases Nat.eq_or_lt_of_le hi with rfl | hlt
    · -- the place at hand is the one where nothing matches
      rw [Nat.add_zero, ← length_reverse, take_left, drop_left, reverse_reverse, hnone] at hsome
      cases hsome
    · rw [← reverse_cons_append] at hsome
      exact ih (by rw [length_cons]; omega) hsome
  | @declined _ _ _ t before ts m asked _ hmatch _ _ ih =>
    have hfirst : m.first = before.length := by rw [first, (of_matchAt? hmatch).1]
    rcases Nat.eq_or_lt_of_le hi with rfl | hlt
    · exact ⟨_, mem_cons_self, by rw [hfirst]; omega, by rw [resumes]; omega⟩
    · rw [← reverse_cons_append] at hsome
      obtain ⟨x, hx, hplace⟩ := ih (by rw [length_cons]; omega) hsome
      exact ⟨x, mem_cons_of_mem _ hx, hplace⟩
  | @replaced _ _ _ t before ts m new asked _ hmatch _ _ ih =>
    obtain ⟨hbefore, -, hpos⟩ := of_matchAt? hmatch
    by_cases hlt : i < m.last
    · refine ⟨_, mem_cons_self, ?_, hlt⟩
      rw [first, hbefore]
      exact hi
    · rw [← reverse_cons_append] at hsome
      rw [last, hbefore] at hlt
      obtain ⟨x, hx, hplace⟩ := ih (by rw [length_cons]; omega) hsome
      exact ⟨x, mem_cons_of_mem _ hx, hplace⟩

/-! ## What a pass writes -/

/-- The edits that the answers of a rule stand for. -/
def edits (asked : List (Match × Option String)) : List Text.Edit :=
  asked.filterMap fun x => x.2.map (⟨x.1.start, x.1.stop, ·⟩)

def bytesOf (before ts : List Token) (tail : String) : List UInt8 :=
  Text.bytes (Token.chars (before.reverse ++ ts) ++ tail.toList)

lemma bytesOf_cons (t : Token) (before ts : List Token) (tail : String) : bytesOf (t :: before) ts tail = bytesOf before (t :: ts) tail := by
  rw [bytesOf, reverse_cons_append, bytesOf]

lemma width_cons_take (t : Token) (before ts : List Token) (n : Nat) :
    Code.width (t :: before) + Code.width (ts.take n) = Code.width before + Code.width ((t :: ts).take (n + 1)) := by
  rw [take_succ_cons, Code.width, Code.width]
  omega

lemma bytesOf_between (t : Token) (before ts : List Token) (tail : String) {cs rest : List Char}
    (h : t.lead.toList ++ t.text.toList = cs ++ rest) :
    ((bytesOf before (t :: ts) tail).take (Code.width before + byteLength cs)).drop (Code.width before) = bytes cs := by
  have hchars : chars (before.reverse ++ t :: ts) ++ tail.toList =
      chars before.reverse ++ cs ++ (rest ++ (chars ts ++ tail.toList)) := by
    rw [chars_append, chars_cons, h]
    simp only [List.append_assoc]
  rw [bytesOf, hchars, ← width_reverse before, width_eq]
  exact bytes_between _ _ _

lemma mem_edits {e : Text.Edit} (he : e ∈ edits asked) : ∃ x ∈ asked, x.2 = some e.new ∧ e.start = x.1.start ∧ e.stop = x.1.stop := by
  obtain ⟨x, hx, hmap⟩ := mem_filterMap.1 he
  obtain ⟨new, hnew, rfl⟩ := map_eq_some_iff.1 hmap
  exact ⟨x, hx, hnew, rfl, rfl⟩

include h in
lemma Sweep.le_start :
    ∀ e ∈ edits asked, Code.width before + Code.width (ts.take skip) ≤ e.start := by
  intro e he
  obtain ⟨x, hx, -, hstart, -⟩ := mem_edits he
  have hle := (h.isIn x hx).width_le_start (h.le_first x hx)
  rw [← length_reverse, take_length_add_append, width_append, width_reverse] at hle
  rw [hstart]
  exact hle

include h in
lemma Sweep.ordered_edits :
    (edits asked).Pairwise fun e e' => e.stop ≤ e'.start := by
  rw [edits, pairwise_filterMap]
  refine h.ordered.imp_of_mem fun {x y} hx hy hle e he e' he' => ?_
  obtain ⟨new, hnew, rfl⟩ := map_eq_some_iff.1 he
  obtain ⟨new', -, rfl⟩ := map_eq_some_iff.1 he'
  have hlast : resumes x = x.1.last := by
    obtain ⟨m, answer⟩ := x
    obtain rfl : answer = some new := hnew
    rfl
  rw [hlast] at hle
  change x.1.stop ≤ y.1.start
  rw [(h.isIn x hx).stop_eq]
  exact (h.isIn y hy).width_le_start hle

lemma Sweep.bytes_keep {t : Token} {next : σ} (h : Sweep p rule next 0 (t :: before) ts asked pieces final) {tail : String}
    (hrest : bytes (String.join pieces ++ tail).toList =
      edited (bytesOf (t :: before) ts tail) (Code.width (t :: before) + Code.width (ts.take 0)) (edits asked)) :
    bytes (String.join (t.lead :: t.text :: pieces) ++ tail).toList =
      edited (bytesOf before (t :: ts) tail) (Code.width before + Code.width ((t :: ts).take 0)) (edits asked) := by
  have hwidth : Code.width (t :: before) + Code.width (ts.take 0) =
      Code.width before + byteLength (t.lead.toList ++ t.text.toList) := by
    simp only [byteLength_append, byteLength_toList, take_zero, Code.width, size]
    omega
  have hle := h.le_start
  rw [hwidth] at hle
  rw [hwidth, bytesOf_cons] at hrest
  rw [take_zero, Code.width, Nat.add_zero, edited_skip _ (Nat.le_add_right _ _) hle, ← hrest,
    bytesOf_between t before ts tail (append_nil _).symm]
  simp

include h in
lemma Sweep.bytes_eq (tail : String) :
    bytes (String.join pieces ++ tail).toList =
      edited (bytesOf before ts tail) (Code.width before + Code.width (ts.take skip)) (edits asked) := by
  induction h with
  | @done _ skip before =>
    have hwidth : Code.width before + Code.width (([] : List Token).take skip) = (bytes (chars before.reverse)).length := by
      rw [take_nil, Code.width, Nat.add_zero, length_bytes, ← width_eq, width_reverse]
    rw [hwidth, bytesOf, append_nil, bytes_append]
    simp [edits, edited]
  | @skipped _ _ skip t before ts _ _ _ ih => rw [ih, bytesOf_cons, width_cons_take]
  | unmatched _ h ih => exact h.bytes_keep ih
  | declined _ _ h ih => exact h.bytes_keep ih
  | @replaced _ _ _ t before ts m new asked pieces hmatch _ h ih =>
    obtain ⟨hbefore, hwindow, hpos⟩ := of_matchAt? hmatch
    obtain ⟨u, w, hw⟩ := exists_cons_of_length_pos hpos
    obtain ⟨rfl, hrest⟩ : u = t ∧ w ++ m.after = ts := by simpa [hw] using hwindow
    have hstart : m.start = Code.width before + byteLength u.lead.toList := by
      rw [start, startOf, hbefore, hw, byteLength_toList]
      simp [Code.width]
    have hstop : m.stop = Code.width (u :: before) + Code.width (ts.take (m.window.length - 1)) := by
      rw [stop, hbefore, width_cons_take, Nat.sub_add_cancel hpos, ← hwindow, take_left]
    have hedits : edits ((m, some new) :: asked) = ⟨m.start, m.stop, new⟩ :: edits asked := rfl
    rw [hedits, edited, toList_toUTF8, hstop, ← bytesOf_cons, ← ih, bytesOf_cons, hstart, take_zero, Code.width, Nat.add_zero,
      bytesOf_between u before ts tail rfl]
    simp

end

/-! ## Search and replacement -/

lemma pass_tokens {σ : Type} (p : Pattern) (rule : σ → Match → σ × Option String) (state : σ) (s : String) :
    ∃ asked pieces, Sweep p rule state 0 [] (Code.ofString s).tokens asked pieces (p.replaceWith rule state s).1 ∧
      (p.replaceWith rule state s).2 = String.join pieces ++ (Code.ofString s).tail := by
  obtain ⟨asked, h⟩ := exists_pass p rule state 0 [] (Code.ofString s).tokens
  exact ⟨asked, _, h, rfl⟩

lemma bytesOf_ofString (s : String) : bytesOf [] (Code.ofString s).tokens (Code.ofString s).tail = Text.bytes s.toList := by
  conv_rhs => rw [← toString_ofString s, Code.toString, String.toList_append, toList_spell]
  rw [bytesOf, reverse_nil, nil_append]

lemma Answers.mem {σ : Type} {rule : σ → Match → σ × Option String} {state final : σ} {asked : List (Match × Option String)}
    (h : Answers rule state asked final) : ∀ x ∈ asked, ∃ state, (rule state x.1).2 = x.2 := by
  induction h with
  | nil => simp
  | cons hrule _ ih => exact forall_mem_cons.2 ⟨⟨_, by rw [hrule]⟩, ih⟩

/-- A search finds matches one behind the other, and every match starts inside one that it found. Replacing asks the rule about
matches in their order, each of them behind those replaced before, and about all of them that start outside those; the new text
is the old one with the answers in the place of the matches that the rule did not decline. So a text stays as it is if the
rule declines or answers with what the match is. -/
theorem replaceWith_edits (p : Pattern) (s : String) :
    let ts := (Code.ofString s).tokens
    let bytes (s : String) := s.toUTF8.data.toList
    ((p.findAll ts).Pairwise fun m m' => m.last ≤ m'.first) ∧
    (∀ m ∈ p.findAll ts, m.IsIn p ts ∧ m.first < m.last) ∧
    (∀ i, (p.matchAt? (ts.take i).reverse (ts.drop i)).isSome → ∃ m ∈ p.findAll ts, m.first ≤ i ∧ i < m.last) ∧
    ∀ (σ : Type) (rule : σ → Match → σ × Option String) (state : σ),
      let out := p.replaceWith rule state s
      (∃ asked, Answers rule state asked out.1 ∧ (∀ x ∈ asked, x.1.IsIn p ts) ∧
        (asked.Pairwise fun x y => resumes x ≤ y.1.first) ∧
        (∀ i, (p.matchAt? (ts.take i).reverse (ts.drop i)).isSome → ∃ x ∈ asked, x.1.first ≤ i ∧ i < resumes x) ∧
        (∀ e ∈ edits asked, e.start ≤ e.stop) ∧ ((edits asked).Pairwise fun e e' => e.stop ≤ e'.start) ∧
        bytes out.2 = Text.edited (bytes s) 0 (edits asked)) ∧
      ((∀ state m, m.IsIn p ts → ∀ text ∈ (rule state m).2, bytes text = ((bytes s).take m.stop).drop m.start) → out.2 = s) := by
  intro ts bytes
  obtain ⟨pieces, hfound⟩ := pass_findAll (p := p) 0 [] ts
  refine ⟨?_, fun m hm => ?_, fun i hi => ?_, fun σ rule state => ?_⟩
  · exact pairwise_map.1 hfound.ordered
  · have hin : m.IsIn p ts := hfound.isIn (m, some "") (List.mem_map_of_mem hm)
    exact ⟨hin, hin.first_lt_last⟩
  · obtain ⟨x, hx, hplace⟩ := hfound.complete (Nat.zero_le i) hi
    obtain ⟨m, hm, rfl⟩ := List.mem_map.1 hx
    exact ⟨m, hm, hplace⟩
  · intro out
    obtain ⟨asked, pieces, hpass, hnew⟩ := pass_tokens p rule state s
    have hspan : ∀ e ∈ edits asked, e.start ≤ e.stop := by
      intro e he
      obtain ⟨x, hx, -, hstart, hstop⟩ := mem_edits he
      rw [hstart, hstop]
      exact (hpass.isIn x hx).start_le_stop
    have hbytes : bytes out.2 = Text.edited (bytes s) 0 (edits asked) := by
      have hall := hpass.bytes_eq (Code.ofString s).tail
      rw [bytesOf_ofString, ← hnew, ← toList_toUTF8, ← toList_toUTF8] at hall
      exact hall
    refine ⟨⟨asked, hpass.answers, hpass.isIn, hpass.ordered, fun i hi => ?_, hspan, hpass.ordered_edits, hbytes⟩, fun hsame => ?_⟩
    · exact hpass.complete (Nat.zero_le i) hi
    · have hslices : ∀ e ∈ edits asked, bytes e.new = ((bytes s).take e.stop).drop e.start := by
        intro e he
        obtain ⟨x, hx, hanswer, hstart, hstop⟩ := mem_edits he
        obtain ⟨state, hrule⟩ := hpass.answers.mem x hx
        rw [hstart, hstop]
        exact hsame state x.1 (hpass.isIn x hx) e.new (hrule.trans hanswer)
      rw [Text.edited_same (fun _ _ => Nat.zero_le _) hpass.ordered_edits hspan hslices, drop_zero] at hbytes
      have harray : out.2.toUTF8 = s.toUTF8 := ByteArray.ext (Array.toList_inj.1 hbytes)
      exact String.toByteArray_inj.1 harray

end Pattern

end DeviceForge
