import DeviceForge.Class.Writer
import DeviceForge.Proofs.Layout.EmptyLines
/-!
# Breaking lines between tokens

A writer looks for separators in the text of a line and leaves out those inside literals, but knows nothing of comments.
-/

namespace DeviceForge.Writer

open List Lexeme Text Token String Layout Place

variable {cs pre separator line w rest x y q post z p tail head further : List Char} {n pos skip room : Nat}
  {quote c : Char} {as bs ts : List Token} {t : Token} {text : String} {place : Place}

/-! ## Literals of a line -/

def Place.after (place : Place) (cs : List Char) : Place :=
  cs.foldl (fun place c => place.next c) place

lemma Place.after_cons (place : Place) (c : Char) (cs : List Char) : place.after (c :: cs) = (place.next c).after cs := rfl

lemma Place.after_append (place : Place) (cs ds : List Char) : place.after (cs ++ ds) = (place.after cs).after ds :=
  foldl_append

def isQuote (c : Char) : Bool :=
  c = '"' || c = '\''

lemma Place.after_unquoted (h : ∀ c ∈ cs, isQuote c = false) : plain.after cs = .plain := by
  induction cs with
  | nil => rfl
  | cons c cs ih =>
    obtain ⟨hc, hcs⟩ := forall_mem_cons.1 h
    rw [after_cons, next, show (decide (c = '"') || decide (c = '\'')) = isQuote c from rfl, hc]
    exact ih hcs

lemma literals_cons (place : Place) (opened pos : Nat) (c : Char) (cs : List Char) :
    literals place opened pos (c :: cs) = (if place ≠ .plain ∧ place.next c = .plain then [(opened, pos)] else []) ++
        literals (place.next c) (if place = .plain ∧ place.next c ≠ .plain then pos else opened) (pos + 1) cs := by
  cases place with
  | plain => cases hnext : plain.next c <;> simp [literals, hnext]
  | literal quote escaped => cases hnext : (literal quote escaped).next c <;> simp [literals, hnext]

lemma literals_append (place : Place) (opened pos : Nat) (cs ds : List Char) :
    ∃ o, literals place opened pos (cs ++ ds) = literals place opened pos cs ++ literals (place.after cs) o (pos + cs.length) ds := by
  induction cs generalizing place opened pos with
  | nil => exact ⟨opened, rfl⟩
  | cons c cs ih =>
    rw [cons_append, literals_cons, literals_cons]
    obtain ⟨o, h⟩ := ih (place.next c) (if place = .plain ∧ place.next c ≠ .plain then pos else opened) (pos + 1)
    refine ⟨o, ?_⟩
    rw [h, List.append_assoc, after_cons, length_cons, Nat.add_right_comm, Nat.add_assoc pos]

lemma literals_shift (k : Nat) (place : Place) (opened pos : Nat) (cs : List Char) :
    literals place (opened + k) (pos + k) cs = (literals place opened pos cs).map fun x => (x.1 + k, x.2 + k) := by
  induction cs generalizing place opened pos with
  | nil => rfl
  | cons c cs ih =>
    rw [literals_cons, literals_cons, map_append, ← ih]
    congr 1
    · split <;> rfl
    · rw [Nat.add_right_comm]
      congr 1
      split <;> rfl

lemma literals_opened (opened opened' pos : Nat) (cs : List Char) :
    literals .plain opened pos cs = literals .plain opened' pos cs := by
  induction cs generalizing pos with
  | nil => rfl
  | cons c cs ih =>
    rw [literals_cons, literals_cons]
    by_cases hnext : plain.next c = .plain
    · rw [hnext]
      exact congrArg _ (ih (pos + 1))
    · simp [hnext]

def inLiteral (line : List Char) (n : Nat) : Bool :=
  (literals .plain 0 0 line).any fun x => x.1 < n && n < x.2

lemma inLiteral_iff (line : List Char) (n : Nat) :
    inLiteral line n ↔ ∃ x ∈ literals .plain 0 0 line, x.1 < n ∧ n < x.2 := by
  simp [inLiteral]

lemma inLiteral_append (hpre : plain.after pre = .plain) (h : inLiteral cs n)
    (post : List Char) : inLiteral (pre ++ (cs ++ post)) (pre.length + n) := by
  rw [inLiteral_iff] at h ⊢
  obtain ⟨x, hx, hfirst, hlast⟩ := h
  obtain ⟨o, hline⟩ := literals_append .plain 0 0 pre (cs ++ post)
  obtain ⟨o', hrest⟩ := literals_append .plain o pre.length cs post
  have hshift := literals_shift pre.length .plain 0 0 cs
  rw [Nat.zero_add, literals_opened _ o] at hshift
  refine ⟨(x.1 + pre.length, x.2 + pre.length), ?_, by omega, by omega⟩
  rw [hline, hpre, Nat.zero_add, hrest, hshift]
  refine mem_append_right _ (mem_append_left _ ?_)
  exact mem_map_of_mem (f := fun x : Nat × Nat => (x.1 + pre.length, x.2 + pre.length)) hx

lemma literals_quoted (hquote : quote ≠ '\\') (h : endsQuoted quote cs) (opened pos : Nat) :
    literals (.literal quote false) opened pos cs = [(opened, pos + (cs.length - 1))] ∧
      (literal quote false).after cs = .plain := by
  fun_induction endsQuoted quote cs generalizing pos with
  | case1 => cases h
  | case2 d cs ih =>
    obtain ⟨hliterals, hafter⟩ := ih h (pos + 2)
    have hlen : cs ≠ [] := by rintro rfl; cases h
    have hpos := length_pos_iff.2 hlen
    have hslash : (Place.literal quote false).next '\\' = .literal quote true := by simp [Place.next]
    have hescaped : (Place.literal quote true).next d = .literal quote false := by simp [Place.next]
    constructor
    · rw [literals_cons, hslash, literals_cons, hescaped]
      simp only [reduceCtorEq, ne_eq, not_false_eq_true, and_false, false_and, if_false, nil_append, hliterals, length_cons]
      congr 2
      omega
    · rw [after_cons, hslash, after_cons, hescaped, hafter]
  | case3 cs hne =>
    have hnext : (Place.literal quote false).next quote = .plain := by simp [Place.next, hquote]
    rw [isEmpty_iff.1 h, literals_cons, after_cons, hnext]
    exact ⟨rfl, rfl⟩
  | case4 c cs hne hc ih =>
    obtain ⟨hliterals, hafter⟩ := ih h (pos + 1)
    obtain ⟨d, ds, rfl⟩ : ∃ d ds, cs = d :: ds := exists_cons_of_ne_nil (by rintro rfl; cases h)
    have hnext : (literal quote false).next c = .literal quote false := by
      have hslash : c ≠ '\\' := fun hslash => hne d ds hslash rfl
      simp [Place.next, hslash, hc]
    constructor
    · rw [literals_cons, hnext]
      simp only [reduceCtorEq, ne_eq, not_false_eq_true, and_false, false_and, if_false, nil_append, hliterals, length_cons]
      congr 2
      omega
    · rw [after_cons, hnext, hafter]

lemma exists_of_mem_occurrences (h : n ∈ occurrences separator pos skip cs) :
    ∃ pre post, cs = pre ++ (separator ++ post) ∧ n = pos + pre.length := by
  induction cs generalizing pos skip with
  | nil => cases h
  | cons c cs ih =>
    have hlater {skip : Nat} (h : n ∈ occurrences separator (pos + 1) skip cs) :
        ∃ pre post, c :: cs = pre ++ (separator ++ post) ∧ n = pos + pre.length := by
      obtain ⟨pre, post, hcs, hn⟩ := ih h
      exact ⟨c :: pre, post, by rw [hcs, cons_append], by rw [hn, length_cons]; omega⟩
    unfold occurrences at h
    split at h
    · exact hlater h
    · split_ifs at h with hprefix
      · rcases mem_cons.1 h with rfl | h
        · obtain ⟨post, hpost⟩ := isPrefixOf_iff_prefix.1 hprefix
          exact ⟨[], post, hpost.symm, rfl⟩
        · exact hlater h
      · exact hlater h

lemma separators_parts (hsep : (separator, n) ∈ separators) :
    ∃ p q, separator = p ++ ' ' :: q ∧ n = p.length ∧ (p = [] ∨ p = [',']) ∧ q.length ≤ 3 ∧ q[1]? ≠ some '/' ∧
      ∀ c ∈ q, isLineBreak c = false := by
  have hall : separators.all (fun x => x.1 = x.1.take x.2 ++ ' ' :: x.1.drop (x.2 + 1) && x.2 = (x.1.take x.2).length &&
      (x.1.take x.2 = [] || x.1.take x.2 = [',']) && (x.1.drop (x.2 + 1)).length ≤ 3 && (x.1.drop (x.2 + 1))[1]? ≠ some '/' &&
      (x.1.drop (x.2 + 1)).all fun c => !isLineBreak c) := by decide
  have h := all_eq_true.1 hall _ hsep
  simp only [Bool.and_eq_true, Bool.or_eq_true, decide_eq_true_eq] at h
  obtain ⟨⟨⟨⟨⟨hparts, hlen⟩, hcomma⟩, hshort⟩, hslash⟩, hbreak⟩ := h
  exact ⟨_, _, hparts, hlen, hcomma, hshort, hslash, fun c hc => by simpa using all_eq_true.1 hbreak c hc⟩

lemma separator_of_mem_breaks (h : n ∈ breaks line room) :
    ∃ x ∈ separators, ∃ pre post, line = pre ++ (x.1 ++ post) ∧ n = pre.length + x.2 ∧ inLiteral line n = false := by
  simp only [breaks, mem_filter, mem_flatMap, mem_map, Bool.and_eq_true, Bool.not_eq_true'] at h
  obtain ⟨⟨x, hx, m, hm, rfl⟩, -, hliteral⟩ := h
  obtain ⟨pre, post, hline, rfl⟩ := exists_of_mem_occurrences hm
  exact ⟨x, hx, pre, post, hline, by rw [Nat.zero_add], hliteral⟩

/-! ## Comments that can do no harm -/

/-- The quotes of a text come in pairs, so that no literal goes on behind it. -/
def Paired (cs : List Char) : Prop :=
  Place.plain.after cs = .plain

/-- Every separator in the text is inside a literal. -/
def Unbroken (cs : List Char) : Prop :=
  ∀ x ∈ separators, ∀ pre post, cs = pre ++ (x.1 ++ post) → inLiteral cs (pre.length + x.2) = true

instance (cs : List Char) : Decidable (Paired cs) :=
  inferInstanceAs (Decidable (Place.plain.after cs = .plain))

lemma unbroken_iff (cs : List Char) : Unbroken cs ↔
    ((List.range cs.length).all fun k => separators.all fun x => !x.1.isPrefixOf (cs.drop k) || inLiteral cs (k + x.2)) = true := by
  simp only [List.all_eq_true, mem_range, Bool.or_eq_true, Bool.not_eq_true', isPrefixOf_iff_prefix, ← Bool.not_eq_true]
  constructor
  · intro h k hk x hx
    refine Classical.or_iff_not_imp_left.2 fun hprefix => ?_
    obtain ⟨post, hpost⟩ := not_not.1 hprefix
    have hin := h x hx (cs.take k) post (by rw [hpost, take_append_drop])
    rwa [length_take_of_le hk.le] at hin
  · rintro h x hx pre post rfl
    obtain ⟨p, q, hparts, -⟩ := separators_parts hx
    have hlen : pre.length < (pre ++ (x.1 ++ post)).length := by
      simp only [hparts, List.length_append, length_cons]
      omega
    refine (h pre.length hlen x hx).resolve_left fun hprefix => hprefix ?_
    rw [drop_left]
    exact prefix_append _ _

instance (cs : List Char) : Decidable (Unbroken cs) :=
  decidable_of_iff _ (unbroken_iff cs).symm

lemma not_isQuote_of_isSpace (h : isSpace c) : isQuote c = false := by
  by_contra hquote
  simp only [isQuote, Bool.not_eq_false, Bool.or_eq_true, decide_eq_true_eq] at hquote
  rcases hquote with rfl | rfl <;> revert h <;> decide

def Place.Proper : Place → Prop
  | .plain => True
  | .literal quote _ => isQuote quote = true

lemma Place.proper_plain : plain.Proper := trivial

lemma Place.Proper.next (h : place.Proper) (c : Char) : (place.next c).Proper := by
  cases place with
  | plain =>
    rw [Place.next]
    split
    · assumption
    · exact proper_plain
  | literal quote escaped =>
    rw [Place.next]
    split_ifs
    · exact h
    · exact h
    · exact proper_plain
    · exact h

lemma Place.Proper.after (h : place.Proper) (cs : List Char) : (place.after cs).Proper := by
  induction cs generalizing place with
  | nil => exact h
  | cons c cs ih => exact ih (h.next c)

lemma literals_unquoted (h : place.Proper) (hcs : ∀ c ∈ cs, isQuote c = false)
    (opened pos : Nat) : literals place opened pos cs = [] := by
  induction cs generalizing place opened pos with
  | nil => rfl
  | cons c cs ih =>
    obtain ⟨hc, hcs⟩ := forall_mem_cons.1 hcs
    have hopen : ¬(place ≠ .plain ∧ place.next c = .plain) := by
      rintro ⟨hplace, hnext⟩
      cases place with
      | plain => exact hplace rfl
      | literal quote escaped =>
        have hne : c ≠ quote := by
          rintro rfl
          simp [Place.Proper, hc] at h
        simp only [Place.next, hne, if_false] at hnext
        split at hnext
        · cases hnext
        · split at hnext <;> cases hnext
    rw [literals_cons, if_neg hopen, ih (h.next c) hcs, nil_append]

lemma Unbroken.of_append (h : Unbroken (cs ++ w)) (hw : Spaces w) : Unbroken cs := by
  intro x hx pre post hcs
  obtain ⟨o, hliterals⟩ := literals_append .plain 0 0 cs w
  rw [literals_unquoted (proper_plain.after cs) fun c hc => not_isQuote_of_isSpace (hw c hc), append_nil] at hliterals
  have hinside := h x hx pre (post ++ w) (by rw [hcs]; simp)
  rwa [inLiteral, hliterals] at hinside

structure Guarded (ts : List Token) : Prop where
  solid : ∀ t ∈ ts, t.Solid
  unbroken : ∀ t ∈ ts, t.kind = .comment → Unbroken t.text.toList
  paired : ∀ t ∈ ts.dropLast, t.kind = .comment → Paired t.text.toList

lemma Guarded.drop (h : Guarded (as ++ bs)) : Guarded bs := by
  refine ⟨fun t ht => h.solid t (mem_append_right _ ht), fun t ht => h.unbroken t (mem_append_right _ ht), fun t ht => ?_⟩
  refine h.paired t ?_
  cases bs with
  | nil => cases ht
  | cons b bs =>
    rw [dropLast_append_cons]
    exact mem_append_right _ ht

lemma Guarded.withLead (h : Guarded (t :: ts)) (lead : List Char) : Guarded (t.withLead lead :: ts) := by
  obtain ⟨hst, hsts⟩ := forall_mem_cons.1 h.solid
  obtain ⟨hut, huts⟩ := forall_mem_cons.1 h.unbroken
  refine ⟨forall_mem_cons.2 ⟨hst.withLead lead, hsts⟩, forall_mem_cons.2 ⟨hut, huts⟩, ?_⟩
  have hpaired := h.paired
  cases ts with
  | nil => simp
  | cons u ts =>
    rw [dropLast_cons_cons, forall_mem_cons] at hpaired ⊢
    exact hpaired

/-! ## Tokens and literals -/

lemma not_isQuote_of_code (h : Token.Reads t rest) (hcode : t.kind.segment = .code) :
    ∀ c ∈ t.text.toList, isQuote c = false := by
  obtain ⟨c, cs, htext, -, hext⟩ := h
  rw [htext, forall_mem_cons]
  rcases extent_cases hext with ⟨hne, -⟩ | ⟨-, hstart, hinner⟩
  · exact absurd hcode hne
  constructor
  · by_contra hquote
    simp only [isQuote, Bool.not_eq_false, Bool.or_eq_true, decide_eq_true_eq] at hquote
    exact (Segment.extent_ne_code_iff c (cs ++ rest)).2 (.inl hquote) hstart
  · intro d hd
    have hplain := Segment.plain_of_inner (hinner d (by rwa [take_left]))
    simp only [Segment.isPlain, Bool.not_eq_true', Bool.or_eq_false_iff] at hplain
    rw [isQuote, hplain.1.1, hplain.1.2]
    rfl

lemma paired_of_literal (hquoted : IsQuoted t quote) (hclosed : t.isClosed) (htext : t.text.toList = quote :: cs) :
    Paired t.text.toList ∧ ∀ n, 0 < n → n < cs.length → inLiteral t.text.toList n := by
  rw [hquoted.isClosed_iff, htext, tail_cons] at hclosed
  have hnext : plain.next quote = .literal quote false := by rcases hquoted with ⟨-, rfl⟩ | ⟨-, rfl⟩ <;> rfl
  obtain ⟨hliterals, hafter⟩ := literals_quoted hquoted.ne_backslash hclosed 0 1
  rw [htext]
  refine ⟨by rw [Paired, after_cons, hnext, hafter], fun n hpos hn => ?_⟩
  rw [inLiteral_iff, literals_cons, hnext]
  refine ⟨(0, 1 + (cs.length - 1)), ?_, hpos, by omega⟩
  simp [hliterals]

lemma paired_chars (hlegible : Token.Legible (as ++ bs) []) (h : Guarded (as ++ bs)) (hne : bs ≠ []) :
    Paired (chars as) := by
  induction as with
  | nil => rfl
  | cons a as ih =>
    obtain ⟨hlead, hreads, hlegible⟩ := hlegible
    have hlast : (a :: as ++ bs).dropLast = a :: (as ++ bs).dropLast := by
      rw [cons_append, dropLast_cons_of_ne_nil (by simp [hne])]
    have htext : Paired a.text.toList := by
      rcases reads_cases hreads with hcode | ⟨quote, cs, hquoted, htext, -⟩ | ⟨cs, hkind, -⟩ | ⟨cs, hkind, -⟩
      · exact after_unquoted (not_isQuote_of_code hreads hcode)
      · exact (paired_of_literal hquoted (h.solid a mem_cons_self).closed htext).1
      all_goals exact h.paired a (by rw [hlast]; exact mem_cons_self) hkind
    have hblank : Paired a.lead.toList :=
      after_unquoted fun c hc => not_isQuote_of_isSpace (isSpace_of_isBlank (hlead c hc))
    unfold Paired at hblank htext ⊢
    rw [chars_cons, Place.after_append, Place.after_append, hblank, htext]
    exact ih hlegible (Guarded.drop (show Guarded ([a] ++ (as ++ bs)) from h))

lemma exists_of_endsBlock (h : endsBlock cs) : ∃ ds, cs = ds ++ ['*', '/'] := by
  fun_induction endsBlock cs with
  | case1 => cases h
  | case2 cs => exact ⟨[], by rw [isEmpty_iff.1 h]; rfl⟩
  | case3 c cs hne ih =>
    obtain ⟨ds, rfl⟩ := ih h
    exact ⟨c :: ds, rfl⟩

lemma prefix_of_comment (hreads : Token.Reads t rest) (hs : t.Solid) (hkind : t.kind = .comment)
    (htext : t.text.toList = x ++ ' ' :: y) (hpost : y ++ rest = q ++ post) (hshort : q.length ≤ 3)
    (hslash : q[1]? ≠ some '/') (hbreak : ∀ c ∈ q, isLineBreak c = false) : ∃ z, y = q ++ z := by
  rcases append_eq_append_iff.1 hpost with ⟨z, rfl, hrest⟩ | ⟨z, rfl, -⟩
  · cases z with
    | nil => exact ⟨[], by simp⟩
    | cons c z =>
      exfalso
      by_cases hline : t.isLineComment
      · -- the comment goes up to the end of the line
        have hends := ended_of_reads hreads t rfl hline c (by rw [hrest]; rfl)
        simp [hbreak c (by simp)] at hends
      · have hclosed := hs.closed
        simp only [isClosed, hkind, Bool.not_eq_true _ ▸ hline, Bool.false_or] at hclosed
        obtain ⟨ds, hds⟩ := exists_of_endsBlock hclosed
        have hend : x ++ ' ' :: y = t.text.toList.take 2 ++ ds ++ ['*', '/'] := by
          rw [← htext, List.append_assoc, ← hds, take_append_drop]
        -- the slash that closes it would be the second character of the separator or behind a space
        rcases eq_nil_or_concat' y with rfl | ⟨y, d, rfl⟩
        · simpa using congrArg getLast? hend
        · have hlast : x ++ ' ' :: y ++ [d] = t.text.toList.take 2 ++ ds ++ ['*'] ++ ['/'] := by simpa using hend
          obtain ⟨hbefore, hd⟩ := append_inj' hlast rfl
          obtain rfl : d = '/' := by simpa using hd
          cases y with
          | nil => simpa using congrArg getLast? hbefore
          | cons e y =>
            simp only [List.length_append, length_cons, length_nil] at hshort
            obtain rfl : y = [] := eq_nil_of_length_eq_zero (by omega)
            exact hslash rfl
  · exact ⟨z, rfl⟩

lemma inLiteral_of_inside (hreads : Token.Reads t rest) (hs : t.Solid)
    (hcomment : t.kind = .comment → Unbroken t.text.toList) (hsep : (p ++ ' ' :: q, p.length) ∈ separators)
    (htext : t.text.toList = x ++ p ++ ' ' :: z) (hx : x ++ p ≠ []) (hpost : z ++ rest = q ++ post)
    (hshort : q.length ≤ 3) (hslash : q[1]? ≠ some '/') (hbreak : ∀ c ∈ q, isLineBreak c = false) :
    inLiteral t.text.toList (x ++ p).length := by
  have hinside (hkind : t.kind = .comment) : inLiteral t.text.toList (x ++ p).length := by
    obtain ⟨more, rfl⟩ := prefix_of_comment hreads hs hkind htext hpost hshort hslash hbreak
    have hin := hcomment hkind _ hsep x more (by simp [htext])
    rwa [← List.length_append] at hin
  rcases reads_cases hreads with hcode | ⟨quote, cs, hquoted, hcs, -⟩ | ⟨_, hkind, -⟩ | ⟨_, hkind, -⟩
  · have hspace := hs.spaceless hcode ' ' (by simp [htext])
    cases hspace
  · -- the last character is the closing quote, so it is behind the space
    have hclosed := hs.closed
    refine (paired_of_literal hquoted hclosed hcs).2 _ (length_pos_iff.2 hx) ?_
    rw [hquoted.isClosed_iff, hcs, tail_cons] at hclosed
    have hquote : t.text.toList.getLast? = some quote := by
      rw [hcs, getLast?_cons, getLast?_of_endsQuoted hclosed]
      rfl
    have hne : z ≠ [] := by
      rintro rfl
      rw [htext, getLast?_concat, Option.some.injEq] at hquote
      rcases hquoted with ⟨-, rfl⟩ | ⟨-, rfl⟩ <;> cases hquote
    have hlen := congrArg List.length (hcs.symm.trans htext)
    have hpos := length_pos_iff.2 hne
    rw [List.length_append, length_cons, length_cons] at hlen
    omega
  · exact hinside hkind
  · exact hinside hkind

lemma exists_cut (hlegible : Token.Legible ts []) (h : Guarded ts) (hn : n ∈ breaks (chars ts) room) :
    ∃ as t bs l r, ts = as ++ t :: bs ∧ t.lead.toList = l ++ ' ' :: r ∧ n = (Token.chars as ++ l).length := by
  obtain ⟨⟨sep, k⟩, hsep, pre, post, hline, rfl, hliteral⟩ := separator_of_mem_breaks hn
  obtain ⟨p, q, rfl, rfl, hcomma, hshort, hslash, hbreak⟩ := separators_parts hsep
  have hscan : scan (chars ts) = (ts, "") := by simpa using scan_of_legible hlegible
  have hcut : chars ts = pre ++ p ++ ' ' :: (q ++ post) := by simp [hline]
  rw [← List.length_append] at hliteral ⊢
  rw [hcut] at hscan
  rcases between_or_inside (pre ++ p) (' ' :: (q ++ post)) with
    ⟨as, us, tail, w, hbetween, hw, has⟩ | ⟨as, t, us, tail, x, y, hinside, has, htext, hx, hy⟩
  · obtain ⟨rfl, rfl⟩ := Prod.mk.inj (hscan.symm.trans hbetween)
    have hspace : Token.Blank (w ++ [' ']) := fun c hc => (mem_append.1 hc).elim (hw c) (by simp; rintro rfl; rfl)
    have hrest := scan_between hbetween has
    rw [append_cons, scan_blank_append hspace] at hrest
    obtain ⟨vs, v, hmore⟩ : ∃ vs v, scan (q ++ post) = (vs, v) := ⟨_, _, rfl⟩
    rw [hmore] at hrest
    cases vs with
    | nil => exact absurd (Prod.mk.inj hrest).2 (by rw [← toList_inj]; simp)
    | cons t bs =>
      obtain ⟨rfl, -⟩ := Prod.mk.inj hrest
      exact ⟨as, _, bs, w, t.lead.toList, rfl, by simp, by rw [has]⟩
  · exfalso
    obtain ⟨rfl, rfl⟩ := Prod.mk.inj (hscan.symm.trans hinside)
    obtain ⟨hlead, hreads, -⟩ := hlegible.drop
    change Token.Reads t (chars us ++ []) at hreads
    -- the token goes on with the space of the separator, and the comma is in the token too
    obtain ⟨z, rfl, hz⟩ : ∃ z, y = ' ' :: z ∧ z ++ (chars us ++ []) = q ++ post := by
      rw [has, chars_append, chars_cons, htext] at hcut
      obtain ⟨c, z, rfl⟩ := exists_cons_of_ne_nil hy
      simp only [List.append_assoc, append_cancel_left_eq, cons_append, List.cons.injEq] at hcut
      exact ⟨z, by rw [hcut.1], by rw [append_nil]; exact hcut.2⟩
    obtain ⟨x, rfl⟩ : ∃ x', x = x' ++ p := by
      rcases hcomma with rfl | rfl
      · exact ⟨x, by simp⟩
      · obtain ⟨x, d, rfl⟩ := (eq_nil_or_concat' x).resolve_left hx
        rw [← List.append_assoc] at has
        obtain ⟨-, hd⟩ := append_inj' has rfl
        exact ⟨x, by rw [hd]⟩
    have hin := inLiteral_of_inside hreads (h.solid t (by simp)) (h.unbroken t (by simp)) hsep htext hx hz hshort hslash hbreak
    have hpaired : Paired (chars as ++ t.lead.toList) := by
      have hchars := paired_chars hlegible h (cons_ne_nil _ _)
      unfold Paired at hchars ⊢
      rw [Place.after_append, hchars]
      exact after_unquoted fun c hc => not_isQuote_of_isSpace (isSpace_of_isBlank (hlead c hc))
    have hall := inLiteral_append hpaired hin (chars us)
    have hwhole : chars as ++ t.lead.toList ++ (t.text.toList ++ chars us) = chars (as ++ t :: us) := by simp
    rw [← List.length_append, ← has, hwhole, hliteral] at hall
    cases hall

/-! ## Lines that are written -/

def codes (ts : List Token) : List (Token.Kind × String) :=
  (ts.map Token.bare).filter (·.1 ≠ .comment)

lemma codes_append (as bs : List Token) : codes (as ++ bs) = codes as ++ codes bs := by
  rw [codes, map_append, filter_append, codes, codes]

lemma shapes_eq_codes (s : String) : Code.shapes s = codes (ofString s) :=
  Code.shapes_eq s

lemma trimLast_concat (ts : List Token) (t : Token) :
    trimLast (ts ++ [t]) = ts ++ [⟨t.kind, t.lead, ofList (dropWhileEnd isSpace t.text.toList)⟩] := by
  induction ts with
  | nil => rfl
  | cons a ts ih =>
    rw [cons_append, trimLast, ih, cons_append]
    simp

lemma codes_trimLast (hlegible : Token.Legible ts tail) (hsolid : ∀ t ∈ ts, t.Solid) :
    codes (trimLast ts) = codes ts := by
  rcases eq_nil_or_concat' ts with rfl | ⟨ts, t, rfl⟩
  · rfl
  obtain ⟨-, hreads, -⟩ := hlegible.drop
  rw [trimLast_concat, codes_append, codes_append]
  by_cases hline : t.isLineComment
  · simp [codes, bare, comment_of_isLineComment hline]
  · rw [trimEnd_text hreads (hsolid t (by simp)) (by simpa using hline), ofList_toList]

lemma dropWhileEnd_split (cs : List Char) : ∃ w, Spaces w ∧ cs = dropWhileEnd isSpace cs ++ w := by
  refine ⟨(cs.reverse.takeWhile isSpace).reverse, fun c hc => ?_, ?_⟩
  · exact mem_takeWhile_imp (mem_reverse.1 hc)
  · rw [dropWhileEnd, ← reverse_append, List.takeWhile_append_dropWhile, reverse_reverse]

lemma Guarded.trimLast (h : Guarded ts) (hlegible : Token.Legible ts tail) :
    Token.Legible (trimLast ts) [] ∧ Guarded (trimLast ts) := by
  obtain ⟨hlegible', hsolid⟩ := (relaid_trimLast none hlegible h.solid (ended_none _)).legible hlegible h.solid
  refine ⟨hlegible', hsolid, ?_, ?_⟩
  all_goals rcases eq_nil_or_concat' ts with rfl | ⟨ts, t, rfl⟩
  · exact h.unbroken
  · rw [trimLast_concat]
    intro u hu hkind
    rcases mem_append.1 hu with hu | hu
    · exact h.unbroken u (mem_append_left _ hu) hkind
    · obtain rfl := mem_singleton.1 hu
      obtain ⟨w, hw, htext⟩ := dropWhileEnd_split t.text.toList
      have hunbroken := h.unbroken t (by simp) hkind
      rw [htext] at hunbroken
      rw [toList_ofList]
      exact hunbroken.of_append hw
  · exact h.paired
  · have hpaired := h.paired
    rw [dropLast_concat] at hpaired
    rwa [trimLast_concat, dropLast_concat]

lemma endLines_cons (line : String) (lines : List String) :
    (endLines (line :: lines)).toList = line.toList ++ ['\n'] ++ (endLines lines).toList := by
  simp [endLines]

lemma shapes_written (hhead : Token.Blank head) (hlegible : Token.Legible ts []) (hsolid : ∀ t ∈ ts, t.Solid) :
    shapes (head ++ chars ts ++ ['\n']) = ts.map bare ∧ Token.Rests (head ++ chars ts ++ ['\n']) := by
  have hended : Token.Legible ts ['\n'] := by
    rw [← append_nil ts] at hlegible
    exact hlegible.take hsolid (by simp [Token.Blank]; rfl) (fun _ => by simp [BreaksOff]; rfl)
  have hscan := scan_of_legible hended
  rw [List.append_assoc]
  refine ⟨by rw [shapes_blank_append hhead, shapes, hscan], .inr ?_⟩
  rw [scan_blank_append hhead, hscan]
  cases ts with
  | nil => simp [prependBlank]
  | cons t ts => simp [prependBlank]

section Cut
variable {as bs : List Token} {t : Token} {l r : List Char} (hlegible : Token.Legible (as ++ t :: bs) []) (hsolid : ∀ u ∈ as ++ t :: bs, u.Solid)
  (hlead : t.lead.toList = l ++ ' ' :: r)

include hlegible hsolid hlead

lemma legible_before_cut : Token.Legible as l := by
  obtain ⟨hblank, -, -⟩ := hlegible.drop
  refine hlegible.take (fun u hu => hsolid u (mem_append_left _ hu)) (fun c hc => hblank c (by simp [hlead, hc])) fun hbreak => ?_
  cases l with
  | nil => simp [BreaksOff]
  | cons c l => simpa [BreaksOff, hlead] using hbreak

lemma trimmed_before_cut (hne : as ≠ []) :
    dropWhileEnd isSpace ((chars (as ++ t :: bs)).take (chars as ++ l).length) = chars (trimLast as) := by
  have hbefore := legible_before_cut hlegible hsolid hlead
  have hchars : chars (as ++ t :: bs) = chars as ++ l ++ (' ' :: r ++ (t.text.toList ++ chars bs)) := by simp [hlead]
  rw [hchars, take_left]
  exact dropWhileEnd_tokens hbefore (fun u hu => hsolid u (mem_append_left _ hu)) hne hbefore.tail.spaces

lemma trimmed_behind_cut :
    ((chars (as ++ t :: bs)).drop ((chars as ++ l).length + 1)).dropWhile isSpace = chars (t.withLead [] :: bs) := by
  obtain ⟨hblank, hreads, -⟩ := hlegible.drop
  obtain ⟨c, cs, htext, hc⟩ := head_of_reads hreads (hsolid t (by simp))
  have hchars : chars (as ++ t :: bs) = chars as ++ l ++ (' ' :: (r ++ c :: (cs ++ chars bs))) := by simp [hlead, htext]
  have hspaces : ∀ d ∈ r, isSpace d := fun d hd => isSpace_of_isBlank (hblank d (by simp [hlead, hd]))
  rw [hchars, ← drop_drop, drop_left, drop_one, tail_cons, dropWhile_append_of_pos hspaces,
    dropWhile_cons_of_neg (by simp [hc])]
  simp [htext]

end Cut

lemma wrap_cases (column : Nat) (further head line : List Char) :
    (wrap column further head line = [ofList (head ++ line)] ∧
      (column ≤ byteLength (head ++ line) → breaks line (column - byteLength head) = [])) ∨
    ∃ n ∈ breaks line (column - byteLength head), wrap column further head line =
      ofList (head ++ dropWhileEnd isSpace (line.take n)) ::
        wrap column further further ((line.drop (n + 1)).dropWhile isSpace) := by
  rw [wrap]
  split
  · rename_i hnarrow
    refine .inl ⟨rfl, fun hwide => ?_⟩
    rw [byteLength_append] at hwide
    omega
  split
  · rename_i hnone
    exact .inl ⟨rfl, fun _ => max?_eq_none_iff.1 hnone⟩
  · rename_i n hbreak
    exact .inr ⟨n, max?_mem hbreak, rfl⟩

lemma shapes_wrap (column : Nat) (hfurther : Token.Blank further) (hhead : Token.Blank head)
    (hlegible : Token.Legible ts []) (h : Guarded ts) (hlead : ∀ t ∈ ts.head?, t.lead.toList = []) :
    Code.shapes (endLines (wrap column further head (Token.chars ts))) = codes ts := by
  induction hlen : ts.length using Nat.strong_induction_on generalizing head ts with
  | _ n ih =>
    rcases wrap_cases column further head (Token.chars ts) with ⟨hwrap, -⟩ | ⟨m, hm, hwrap⟩
    · obtain ⟨hshapes, -⟩ := shapes_written hhead hlegible h.solid
      rw [hwrap, Code.shapes_eq, endLines_cons, toList_ofList, show (endLines []).toList = [] from rfl, append_nil, hshapes]
      rfl
    · obtain ⟨as, t, bs, l, r, rfl, ht, rfl⟩ := exists_cut hlegible h hm
      have hne : as ≠ [] := by
        rintro rfl
        rw [hlead t rfl] at ht
        simp at ht
      have hbefore := legible_before_cut hlegible h.solid ht
      have hsolid : ∀ u ∈ as, u.Solid := fun u hu => h.solid u (mem_append_left _ hu)
      obtain ⟨hlegible', hsolid'⟩ := (relaid_trimLast none hbefore hsolid (ended_none _)).legible hbefore hsolid
      obtain ⟨hshapes, hrests⟩ := shapes_written hhead hlegible' hsolid'
      have hshorter : (t.withLead [] :: bs).length < n := by
        have := length_pos_iff.2 hne
        simp only [← hlen, List.length_append, length_cons]
        omega
      have hrest := ih _ hshorter hfurther (hlegible.drop.withLead (by simp [Token.Blank])) (h.drop.withLead [])
        (fun u hu => by obtain rfl := Option.some.inj hu; exact lead_withLead t []) rfl
      rw [Code.shapes_eq] at hrest
      rw [hwrap, trimmed_before_cut hlegible h.solid ht hne, trimmed_behind_cut hlegible h.solid ht, Code.shapes_eq, endLines_cons,
        toList_ofList, hrests.shapes_append, filter_append, hrest, hshapes, codes_append, ← codes_trimLast hbefore hsolid]
      rfl

lemma trim_chars (hlegible : Token.Legible (t :: ts) tail) (hsolid : ∀ u ∈ t :: ts, u.Solid) :
    (Text.trim (ofList (chars (t :: ts) ++ tail))).toList = chars (trimLast (t.withLead [] :: ts)) := by
  obtain ⟨hst, hsts⟩ := forall_mem_cons.1 hsolid
  obtain ⟨c, cs, htext, hc⟩ := head_of_reads hlegible.2.1 hst
  have hdrop : (chars (t :: ts) ++ tail).dropWhile isSpace = chars (t.withLead [] :: ts) ++ tail := by
    have hchars : chars (t :: ts) ++ tail = t.lead.toList ++ c :: (cs ++ (chars ts ++ tail)) := by simp [htext]
    rw [hchars, dropWhile_append_of_pos fun d hd => isSpace_of_isBlank (hlegible.1 d hd),
      dropWhile_cons_of_neg (by simp [hc])]
    simp [htext]
  rw [Text.trim, toList_ofList, toList_ofList, hdrop]
  exact dropWhileEnd_tokens (hlegible.withLead (by simp [Token.Blank])) (forall_mem_cons.2 ⟨hst.withLead [], hsts⟩)
    (cons_ne_nil _ _) hlegible.tail.spaces

lemma chars_ne_nil (hlegible : Token.Legible ts tail) (hne : ts ≠ []) : chars ts ≠ [] := by
  obtain ⟨t, ts, rfl⟩ := exists_cons_of_ne_nil hne
  obtain ⟨-, ⟨c, cs, htext, -⟩, -⟩ := hlegible
  simp [htext]

lemma blank_indent (level : Nat) : Token.Blank (indent level) := by
  intro c hc
  rw [eq_of_mem_replicate hc]
  rfl

lemma line_blank (w : Writer) (h : (Text.trim text).toList = []) :
    (w.line text).lines = w.lines ++ [""] := by
  rw [line, h]
  rfl

lemma line_wrap (w : Writer) (h : (Text.trim text).toList ≠ []) :
    ∃ level, (w.line text).lines = w.lines ++ wrap w.column (indent (level + 1)) (indent level) (Text.trim text).toList := by
  refine ⟨w.level - (bracesOf (Text.trim text).toList).leading, ?_⟩
  unfold line
  dsimp only
  rw [if_neg (by simpa using h)]

/-- What a writer writes for a text has the code tokens of the text, if its comments and literals are closed, its code has no
spaces but blanks, and its comments have no separator outside of quotes and, unless nothing follows them, quotes in pairs. -/
theorem line_shapes (w : Writer) {text : String} (hclosed : ∀ t ∈ Token.ofString text, t.isClosed = true)
    (hspaces : ∀ t ∈ Token.ofString text, t.kind.segment = .code → ∀ c ∈ t.text.toList, Text.isSpace c = false)
    (hcomments : ∀ t ∈ Token.ofString text, t.kind = .comment → Unbroken t.text.toList)
    (hquotes : ∀ t ∈ (Token.ofString text).dropLast, t.kind = .comment → Paired t.text.toList) :
    ∃ new, (w.line text).lines = w.lines ++ new ∧ Code.shapes (endLines new) = Code.shapes text := by
  have hguarded : Guarded (Token.ofString text) := ⟨(Stream.neat_ofChars hclosed hspaces).solid, hcomments, hquotes⟩
  obtain ⟨ts, tail, hscan⟩ : ∃ ts tail, Token.scan text.toList = (ts, tail) := ⟨_, _, rfl⟩
  have htokens : Token.ofString text = ts := by rw [Token.ofString, hscan]
  have hlegible := legible_of_scan hscan
  have htext : text = ofList (Token.chars ts ++ tail.toList) := by
    rw [← chars_scan hscan, ofList_toList]
  rw [htokens] at hguarded
  rw [shapes_eq_codes, htokens]
  cases ts with
  | nil =>
    have htrim : (Text.trim text).toList = [] := by
      rw [htext, Text.trim, toList_ofList, toList_ofList, chars_nil, nil_append,
        dropWhile_eq_nil_iff.2 fun c hc => isSpace_of_isBlank (hlegible.tail c hc)]
      rfl
    exact ⟨[""], line_blank w htrim, by decide +kernel⟩
  | cons t ts =>
    have htrim := trim_chars hlegible hguarded.solid
    rw [← htext] at htrim
    have hbare := hlegible.withLead (show Token.Blank [] by simp [Token.Blank])
    obtain ⟨hlegible', hguarded'⟩ := (hguarded.withLead []).trimLast hbare
    have hlead : ∀ u ∈ (trimLast (t.withLead [] :: ts)).head?, u.lead.toList = [] := by
      intro u hu
      cases ts with
      | nil => obtain rfl := Option.some.inj hu; exact lead_withLead t []
      | cons v ts => obtain rfl := Option.some.inj hu; exact lead_withLead t []
    have hne : (Text.trim text).toList ≠ [] := by
      rw [htrim]
      exact chars_ne_nil hlegible' (by cases ts <;> simp [trimLast])
    obtain ⟨level, hlines⟩ := line_wrap w hne
    refine ⟨_, hlines, ?_⟩
    rw [htrim, shapes_wrap w.column (blank_indent _) (blank_indent _) hlegible' hguarded' hlead,
      codes_trimLast hbare (hguarded.withLead []).solid]
    rfl

/-- A line with separators in a literal and between quotes in a comment, and an apostrophe in its last comment. -/
def quotedLine : String :=
  "x = f(\"a, b\", c /* or \"c, d\" */ && e); // don't"

theorem line_shapes_quoted :
    ((ofColumn 24).line quotedLine).lines = ["x = f(\"a, b\",", "    c /* or \"c, d\" */", "    && e); // don't"] ∧
    ∃ new, ((ofColumn 24).line quotedLine).lines = (ofColumn 24).lines ++ new ∧ Code.shapes (endLines new) = Code.shapes quotedLine := by
  have hclosed : (Token.ofString quotedLine).all isClosed = true := by decide +kernel
  have hspaces : (Token.ofString quotedLine).all (fun t => t.kind.segment ≠ .code || t.text.toList.all fun c => !Text.isSpace c) = true := by
    decide +kernel
  have hcomments : (Token.ofString quotedLine).all (fun t => t.kind ≠ .comment || Unbroken t.text.toList) = true := by decide +kernel
  have hquotes : (Token.ofString quotedLine).dropLast.all (fun t => t.kind ≠ .comment || Paired t.text.toList) = true := by decide +kernel
  refine ⟨by decide +kernel, line_shapes _ (List.all_eq_true.1 hclosed) (fun t ht hcode c hc => ?_) (fun t ht hkind => ?_)
    (fun t ht hkind => ?_)⟩
  · have h := List.all_eq_true.1 hspaces t ht
    simp only [hcode, ne_eq, not_true_eq_false, decide_false, Bool.false_or] at h
    simpa using List.all_eq_true.1 h c hc
  · simpa [hkind] using List.all_eq_true.1 hcomments t ht
  · simpa [hkind] using List.all_eq_true.1 hquotes t ht

/-- A line is broken at a comma in a comment, and what follows becomes code. -/
theorem not_line_shapes_comment :
    ((ofColumn 20).line "x = 1; // first, second").lines = ["x = 1; // first,", "    second"] ∧
    Code.shapes (endLines ["x = 1; // first,", "    second"]) ≠ Code.shapes "x = 1; // first, second" := by
  decide +kernel

end DeviceForge.Writer
