import DeviceForge.Proofs.Layout.Format
/-!
# Joined assignments stay joined

After `joinStream` there is nothing left to join (`settled`).
-/

namespace DeviceForge.Layout

open List Token

variable {rows group rows' : List Row} {x y : Stream} {ts us : List Token} {r r' : Row} {joined : Option Nat}
  {t u : Token} {rest rest' tail tail' : List Char} {s : Option Token}

def settled : List Row → Prop
  | [] => True
  | r :: rows => joined? r rows = none ∧ settled rows

lemma joinRows_settled (h : settled rows) (tail : List Char) :
    joinRows tail none rows = ⟨rows.flatMap Row.tokens, tail⟩ := by
  induction rows with
  | nil => rfl
  | cons r rows ih => rw [joinRows, h.1, ih h.2, Stream.prepend, flatMap_cons]

lemma joinStream_eq_self (h : settled (rowsOf x.tokens)) : joinStream x = x := by
  rw [joinStream, joinRows_settled h, flatMap_rowsOf]

def Row.Same (r r' : Row) : Prop :=
  r'.tokens.map Token.bare = r.tokens.map Token.bare

namespace Row

variable {r r' : Row} (h : Row.Same r r')

lemma any_bare (p : Token.Kind × String → Bool) (ts : List Token) : ts.any (fun t => p t.bare) = (ts.map bare).any p := by
  rw [any_map]
  rfl

lemma hasAssignment_bare (ts : List Token) :
    hasAssignment ts = (ts.map bare).any fun b => assignmentOperators.contains b.2 :=
  any_bare (fun b => assignmentOperators.contains b.2) ts

lemma isEnd_eq (r : Row) : r.isEnd = (r.tokens.map bare).getLast?.any fun b => endsStatement b.2 := by
  rw [isEnd, tokens, getLast?_map, getLast?_cons, getLastD_eq_getLast?]
  rfl

include h

lemma Same.isKept_eq : r'.isKept = r.isKept := by
  have hany (r : Row) : r.isKept = _ := any_bare (fun b => keepsLines ⟨b.1.segment, b.2.toList⟩) r.tokens
  rw [hany, hany, h]

lemma Same.isStructured_eq : r'.isStructured = r.isStructured := by
  have hany (r : Row) : r.isStructured = _ := any_bare (fun b => hasStructure b.2) r.tokens
  rw [hany, hany, h]

lemma Same.hasAssignment_eq : hasAssignment r'.tokens = hasAssignment r.tokens := by
  rw [hasAssignment_bare, hasAssignment_bare, h]

lemma Same.isEnd_eq : r'.isEnd = r.isEnd := by
  rw [Row.isEnd_eq, Row.isEnd_eq, h]

lemma Same.begins_eq : r'.begins = r.begins := by
  obtain ⟨hfirst, -⟩ := cons.inj h
  obtain ⟨hkind, htext⟩ := Prod.mk.inj hfirst
  rw [begins, begins, h.isKept_eq, h.isStructured_eq, h.hasAssignment_eq, h.isEnd_eq, htext, isIdentifier, isIdentifier, hkind]

lemma Same.goesOn_eq (hcount : r'.first.lead.toList.count '\n' = 1 ↔ r.first.lead.toList.count '\n' = 1) : r'.goesOn = r.goesOn := by
  rw [goesOn, goesOn, h.isKept_eq, h.isStructured_eq, h.hasAssignment_eq, decide_eq_decide.2 hcount]

end Row

/-! ## The rows of joined tokens -/

lemma head?_rowsOf (ts : List Token) : (rowsOf ts).head?.map Row.first = ts.head? := by
  have h := flatMap_rowsOf ts
  cases hrows : rowsOf ts with
  | nil =>
    rw [hrows] at h
    rw [← h]
    rfl
  | cons r rows =>
    rw [hrows] at h
    rw [← h]
    rfl

lemma rowsOf_append (r : Row) (h : ∀ t ∈ ts.head?, startsLine t) : rowsOf (r.tokens ++ ts) = r :: rowsOf ts := by
  obtain ⟨first, more, hline⟩ := r
  rw [Row.tokens]
  induction more generalizing first with
  | nil =>
    rw [singleton_append, rowsOf]
    have hhead := head?_rowsOf ts
    cases hrows : rowsOf ts with
    | nil => rfl
    | cons r rows =>
      rw [hrows] at hhead
      dsimp only
      rw [dif_pos (h _ hhead.symm)]
  | cons t more ih =>
    obtain ⟨ht, hmore⟩ := forall_mem_cons.1 hline
    rw [cons_append, rowsOf, ih t hmore]
    dsimp only
    rw [dif_neg (by simpa using ht)]
    rfl

lemma prepend_prepend (ts us : List Token) (x : Stream) : (x.prepend us).prepend ts = x.prepend (ts ++ us) := by
  rw [Stream.prepend, Stream.prepend, Stream.prepend, append_assoc]

lemma joinRows_append (tail : List Char) (group rows : List Row) : joinRows tail (some group.length) (group ++ rows) =
      (joinRows tail (some 0) rows).prepend (group.flatMap fun r => (r.withLead [' ']).tokens) := by
  induction group with
  | nil => rfl
  | cons r group ih => rw [length_cons, cons_append, joinRows, ih, prepend_prepend, flatMap_cons]

inductive Merged : List Row → List Row → Prop
  | nil : Merged [] []
  | keep {r : Row} {lead : List Char} {rows rows' : List Row} (h : joined? r rows = none)
      (hlead : lead.count '\n' = r.first.lead.toList.count '\n') (hrows : Merged rows rows') : Merged (r :: rows) (r.withLead lead :: rows')
  | join {r m : Row} {group rows rows' : List Row} (h : joined? r (group ++ rows) = some group.length)
      (hm : m.tokens.map Token.bare = ((r :: group).flatMap Row.tokens).map Token.bare) (hrows : Merged rows rows') :
      Merged (r :: (group ++ rows)) (m :: rows')

lemma joined?_eq_some {n : Nat} (h : joined? r rows = some n) : r.begins ∧ span? rows = some n := by
  simpa [joined?] using h

lemma not_goesOn_of_assignment (h : hasAssignment r.tokens) : r.goesOn = false := by
  simp [Row.goesOn, h]

lemma Row.hasAssignment_of_begins (h : r.begins) : hasAssignment r.tokens := by
  simp only [begins, Bool.and_eq_true] at h
  exact h.2.2

lemma isEnd_of_span? (h : span? (group ++ rows) = some group.length) :
    ∃ init last, group = init ++ [last] ∧ last.isEnd := by
  induction group with
  | nil =>
    obtain ⟨k, hk⟩ := span?_pos h
    cases hk
  | cons r group ih =>
    obtain ⟨-, ⟨hend, hn⟩ | ⟨k, hk, hn⟩⟩ := span?_cons h
    · obtain rfl : group = [] := length_eq_zero_iff.1 (Nat.succ.inj hn)
      exact ⟨[], r, rfl, hend⟩
    · obtain rfl : group.length = k := Nat.succ.inj hn
      obtain ⟨init, last, rfl, hend⟩ := ih hk
      exact ⟨r :: init, last, rfl, hend⟩

lemma Merged.span?_eq (h : Merged rows rows') : span? rows' = span? rows := by
  induction h with
  | nil => rfl
  | keep hnone hlead hrows ih =>
    rename_i r lead rows rows'
    have hsame : Row.Same r (r.withLead lead) := rfl
    have hgoes := hsame.goesOn_eq (by rw [Row.withLead, lead_withLead, hlead])
    rw [span?, span?, hgoes, hsame.isEnd_eq, ih]
  | join hjoined hm hrows ih =>
    rename_i r m group rows rows'
    have hassign := Row.hasAssignment_of_begins (joined?_eq_some hjoined).1
    have hassign' : hasAssignment m.tokens := by
      rw [Row.hasAssignment_bare, hm, ← Row.hasAssignment_bare, flatMap_cons]
      rw [hasAssignment] at hassign ⊢
      rw [any_append, hassign, Bool.true_or]
    -- before and after joining, the row stops the search with its assignment operator
    rw [span?_of_not (not_goesOn_of_assignment hassign), span?_of_not (not_goesOn_of_assignment hassign')]

lemma Merged.settled (h : Merged rows rows') : settled rows' := by
  induction h with
  | nil => trivial
  | keep hnone hlead hrows ih =>
    rename_i r lead rows rows'
    have hsame : Row.Same r (r.withLead lead) := rfl
    refine ⟨?_, ih⟩
    rw [joined?, hsame.begins_eq, hrows.span?_eq, ← joined?, hnone]
  | join hjoined hm hrows ih =>
    rename_i r m group rows rows'
    refine ⟨?_, ih⟩
    obtain ⟨init, last, rfl, hlast⟩ := isEnd_of_span? (joined?_eq_some hjoined).2
    have hend : m.isEnd := by
      rw [Row.isEnd_eq] at hlast ⊢
      have hne : last.tokens.map bare ≠ [] := by simp [Row.tokens]
      rw [hm, ← cons_append, flatMap_append, map_append, flatMap_singleton, getLast?_append_of_ne_nil _ hne, hlast]
    have hbegins : m.begins = false := by simp [Row.begins, hend]
    rw [joined?, hbegins]
    rfl

def Row.joinAll (r : Row) (group : List Row) : Row where
  first := r.first
  more := r.more ++ group.flatMap fun u => (u.withLead [' ']).tokens
  line := by
    refine forall_mem_append.2 ⟨r.line, fun t ht => ?_⟩
    obtain ⟨u, -, hu⟩ := mem_flatMap.1 ht
    rcases mem_cons.1 hu with rfl | hmore
    · simp [Row.withLead, startsLine]
    · exact u.line t hmore

lemma bare_joinAll (r : Row) (group : List Row) :
    (r.joinAll group).tokens.map bare = ((r :: group).flatMap Row.tokens).map bare := by
  rw [Row.joinAll, Row.tokens, flatMap_cons, map_cons, map_append, map_append, map_flatMap, map_flatMap]
  rfl

lemma joinRows_cons (tail : List Char) (hjoined : joined = none ∨ joined = some 0) (r : Row) (rows : List Row) :
    ∃ lead, lead.count '\n' = r.first.lead.toList.count '\n' ∧
      joinRows tail joined (r :: rows) = (joinRows tail (joined? r rows) rows).prepend (r.withLead lead).tokens := by
  rcases hjoined with rfl | rfl
  · exact ⟨r.first.lead.toList, rfl, by rw [Row.withLead_self]; rfl⟩
  · exact ⟨_, count_dropWhile _, rfl⟩

lemma startsLine_joinRows (tail : List Char) (hjoined : joined = none ∨ joined = some 0)
    (hstarts : ∀ r ∈ rows, startsLine r.first) : ∀ t ∈ (joinRows tail joined rows).tokens.head?, startsLine t := by
  cases rows with
  | nil => rcases hjoined with rfl | rfl <;> simp [joinRows]
  | cons r rows =>
    obtain ⟨lead, hcount, hrows⟩ := joinRows_cons tail hjoined r rows
    intro t ht
    rw [hrows] at ht
    obtain rfl : r.first.withLead lead = t := by simpa [Stream.prepend, Row.tokens, Row.withLead] using ht
    have hfirst := hstarts r mem_cons_self
    rw [startsLine, contains_iff_mem, ← count_pos_iff] at hfirst ⊢
    rwa [lead_withLead, hcount]

lemma merged_joinRows (tail : List Char) (hjoined : joined = none ∨ joined = some 0) (rows : List Row)
    (hstarts : ∀ r ∈ rows.tail, startsLine r.first) : Merged rows (rowsOf (joinRows tail joined rows).tokens) := by
  -- a row takes all the rows that are joined with it at once
  induction hlength : rows.length using Nat.strong_induction_on generalizing rows joined with
  | _ length ih =>
    cases rows with
    | nil => rcases hjoined with rfl | rfl <;> exact .nil
    | cons r rows =>
      obtain ⟨lead, hcount, hrows⟩ := joinRows_cons tail hjoined r rows
      rw [tail_cons] at hstarts
      rw [length_cons] at hlength
      have hnil (u : Row) (hu : u ∈ rows.tail) : startsLine u.first := hstarts u (mem_of_mem_tail hu)
      cases hnext : joined? r rows with
      | none =>
        rw [hnext] at hrows
        rw [hrows, Stream.prepend, rowsOf_append _ (startsLine_joinRows tail (.inl rfl) hstarts)]
        exact .keep hnext hcount (ih rows.length (by omega) (.inl rfl) rows hnil rfl)
      | some n =>
        have hle := span?_le (joined?_eq_some hnext).2
        obtain ⟨group, rest, rfl, rfl⟩ : ∃ group rest, rows = group ++ rest ∧ group.length = n :=
          ⟨rows.take n, rows.drop n, (take_append_drop n rows).symm, length_take_of_le hle⟩
        have hrest : ∀ u ∈ rest, startsLine u.first := fun u hu => hstarts u (mem_append_right _ hu)
        have htokens : (joinRows tail joined (r :: (group ++ rest))).tokens =
            ((r.withLead lead).joinAll group).tokens ++ (joinRows tail (some 0) rest).tokens := by
          rw [hrows, hnext, joinRows_append, Stream.prepend, Stream.prepend, ← append_assoc]
          rfl
        rw [htokens, rowsOf_append _ (startsLine_joinRows tail (.inr rfl) hrest)]
        refine .join hnext (bare_joinAll _ _) (ih rest.length ?_ (.inr rfl) rest (fun u hu => hrest u (mem_of_mem_tail hu)) rfl)
        rw [length_append] at hlength
        omega

lemma settled_joinStream (x : Stream) : settled (rowsOf (joinStream x).tokens) :=
  (merged_joinRows x.tail (.inl rfl) (rowsOf x.tokens) (startsLine_rowsOf x.tokens)).settled

/-! ## Rows in the last passes -/

structure Alike (t u : Token) : Prop where
  keeps : keeps u = keeps t
  bare : Layout.keeps t = false → u.bare = t.bare

lemma keeps_iff (hreads : Token.Reads t rest) (hs : t.Solid) :
    keeps t ↔ t.kind = .comment ∨ '\n' ∈ t.text.toList := by
  refine ⟨fun h => ?_, fun h => ?_⟩
  · simp only [keeps, keepsLines, Bool.or_eq_true, Bool.and_eq_true, decide_eq_true_eq, contains_iff_mem] at h
    rcases h with hkind | ⟨-, hmem⟩
    · refine .inl ?_
      cases hk : t.kind <;> rw [hk] at hkind <;> cases hkind
    · exact .inr ((List.dropLast_prefix _).subset hmem)
  · rcases h with hkind | hfeed
    · simp [keeps, keepsLines, hkind, Kind.segment]
    · exact keeps_of_mem hreads hs hfeed

lemma Tidies.alike (h : Tidies s t u) (hreads : Token.Reads t rest) (hs : t.Solid)
    (hreads' : Token.Reads u rest') (hs' : u.Solid) (hreturn : '\r' ∉ t.text.toList) : Alike t u := by
  refine ⟨?_, fun hkeeps => ?_⟩
  · rw [Bool.eq_iff_iff, keeps_iff hreads hs, keeps_iff hreads' hs', h.kin.kind, h.lines]
  · have hnot : ¬(t.kind = .comment ∨ '\n' ∈ t.text.toList) := by
      rw [← keeps_iff hreads hs, hkeeps]
      exact Bool.false_ne_true
    rw [not_or] at hnot
    have hone : t.OnOneLine := by
      intro c hc
      rw [Lexeme.isLineBreak, Bool.or_eq_false_iff, decide_eq_false_iff_not, decide_eq_false_iff_not]
      exact ⟨fun h => hnot.2 (h ▸ hc), fun h => hreturn (h ▸ hc)⟩
    rw [bare, bare, h.kin.kind, h.kin.same hnot.1 hone]

structure Row.Like (r r' : Row) : Prop where
  kept : r'.isKept = r.isKept
  same : r.isKept = false → Row.Same r r'

lemma Row.Like.begins_eq (h : Row.Like r r') : r'.begins = r.begins := by
  by_cases hkept : r.isKept
  · rw [begins, begins, h.kept, hkept]
    rfl
  · exact (h.same (by simpa using hkept)).begins_eq

structure Row.LikeBehind (r r' : Row) : Prop extends Row.Like r r' where
  feeds : Layout.feeds r'.first.lead.toList = Layout.feeds r.first.lead.toList

lemma Row.LikeBehind.goesOn_eq (h : Row.LikeBehind r r') : r'.goesOn = r.goesOn := by
  by_cases hkept : r.isKept
  · rw [goesOn, goesOn, h.kept, hkept]
    rfl
  · refine (h.same (by simpa using hkept)).goesOn_eq ?_
    rw [← feeds_eq_one_iff, h.feeds, feeds_eq_one_iff]

lemma Row.isKept_of_goesOn (h : r.goesOn) : r.isKept = false := by
  simp only [goesOn, Bool.and_eq_true, Bool.not_eq_true'] at h
  exact h.1.1.1

lemma span?_like (h : Forall₂ Row.LikeBehind rows rows') : span? rows' = span? rows := by
  induction h with
  | nil => rfl
  | cons hr hrows ih =>
    rename_i r r' rows rows'
    cases hgoes : r.goesOn with
    | false => rw [span?_of_not hgoes, span?_of_not (hr.goesOn_eq.trans hgoes)]
    | true =>
      rw [span?_of_goesOn hgoes, span?_of_goesOn (hr.goesOn_eq.trans hgoes), (hr.same (Row.isKept_of_goesOn hgoes)).isEnd_eq, ih]

lemma settled_like (hr : Row.Like r r') (hrows : Forall₂ Row.LikeBehind rows rows')
    (h : settled (r :: rows)) : settled (r' :: rows') := by
  induction hrows generalizing r r' with
  | nil => exact ⟨by rw [joined?, hr.begins_eq]; exact h.1, trivial⟩
  | cons hnext hrows ih =>
    refine ⟨?_, ih hnext.toLike h.2⟩
    rw [joined?, hr.begins_eq, span?_like (.cons hnext hrows), ← joined?, h.1]

inductive RowsLike (s : Option Token) : List Row → List Row → Prop
  | nil : RowsLike s [] []
  | cons {r r' : Row} {rows rows' : List Row} (hr : Row.Like r r')
      (hfeeds : s ≠ none → feeds r'.first.lead.toList = feeds r.first.lead.toList) (hrows : Forall₂ Row.LikeBehind rows rows') :
      RowsLike s (r :: rows) (r' :: rows')

lemma startsLine_eq (h : feeds u.lead.toList = feeds t.lead.toList) : startsLine u = startsLine t := by
  have hmem : '\n' ∈ u.lead.toList ↔ '\n' ∈ t.lead.toList := by
    rw [← not_iff_not, ← feeds_eq_zero_iff, h, feeds_eq_zero_iff]
  rw [startsLine, startsLine, Bool.eq_iff_iff, contains_iff_mem, contains_iff_mem, hmem]

lemma rowsLike_cons (halike : Alike t u) (hfeeds : s ≠ none → feeds u.lead.toList = feeds t.lead.toList)
    (h : RowsLike (some t) (rowsOf ts) (rowsOf us)) : RowsLike s (rowsOf (t :: ts)) (rowsOf (u :: us)) := by
  have hsingle : Row.Like ⟨t, [], by simp⟩ ⟨u, [], by simp⟩ := by
    refine ⟨by simp [Row.isKept, Row.tokens, halike.keeps], fun hkept => ?_⟩
    have hkeeps : keeps t = false := by simpa [Row.isKept, Row.tokens] using hkept
    simp [Row.Same, Row.tokens, halike.bare hkeeps]
  rw [rowsOf, rowsOf]
  generalize rowsOf ts = rows at h ⊢
  generalize rowsOf us = rows' at h ⊢
  cases h with
  | nil => exact .cons hsingle hfeeds .nil
  | cons hr hlines hrows =>
    rename_i r r' rows rows'
    have hlines := hlines (by simp)
    dsimp only
    by_cases hstarts : startsLine r.first
    · rw [dif_pos hstarts, dif_pos (by rwa [startsLine_eq hlines])]
      exact .cons hsingle hfeeds (.cons ⟨hr, hlines⟩ hrows)
    · rw [dif_neg hstarts, dif_neg (by rwa [startsLine_eq hlines])]
      refine .cons ⟨?_, fun hkept => ?_⟩ hfeeds hrows
      · change (keeps u || r'.isKept) = (keeps t || r.isKept)
        rw [halike.keeps, hr.kept]
      · change (keeps t || r.isKept) = false at hkept
        rw [Bool.or_eq_false_iff] at hkept
        exact congrArg₂ cons (halike.bare hkept.1) (hr.same hkept.2)

lemma rowsLike_tidied (h : Token.Along Tidies (fun _ => True) s ts us) (hlegible : Legible ts tail)
    (hsolid : ∀ t ∈ ts, t.Solid) (hlegible' : Legible us tail') (hsolid' : ∀ u ∈ us, u.Solid)
    (hreturn : '\r' ∉ chars ts) : RowsLike s (rowsOf ts) (rowsOf us) := by
  induction h with
  | nil => exact .nil
  | cons hstep hsteps ih =>
    rename_i s t u ts us
    obtain ⟨hst, hsts⟩ := forall_mem_cons.1 hsolid
    obtain ⟨hsu, hsus⟩ := forall_mem_cons.1 hsolid'
    obtain ⟨-, hreads, hlegible⟩ := hlegible
    obtain ⟨-, hreads', hlegible'⟩ := hlegible'
    rw [chars_cons, mem_append, not_or, mem_append, not_or] at hreturn
    exact rowsLike_cons (hstep.alike hreads hst hreads' hsu hreturn.1.2) (fun hs => (hstep.lead hs).feeds)
      (ih hlegible hsts hlegible' hsus hreturn.2)

lemma settled_tidied (h : Token.Along Tidies (fun _ => True) none x.tokens y.tokens) (hx : Unified x)
    (hy : y.Neat) (hsettled : settled (rowsOf x.tokens)) : settled (rowsOf y.tokens) := by
  have hreturn : '\r' ∉ chars x.tokens := fun hmem => hx.feeds (mem_append_left _ hmem)
  have hlike := rowsLike_tidied h hx.neat.legible hx.neat.solid hy.legible hy.solid hreturn
  generalize rowsOf x.tokens = rows at hlike hsettled
  generalize rowsOf y.tokens = rows' at hlike
  cases hlike with
  | nil => trivial
  | cons hr hfeeds hrows => exact settled_like hr hrows hsettled

end DeviceForge.Layout
