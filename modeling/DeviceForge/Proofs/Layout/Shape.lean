import DeviceForge.Proofs.Layout.Unified
import Mathlib.Data.List.Chain
/-!
# The shape of a layout

What the passes of the layout reach together, for every text: no character but spaces is touched, a brace of code stands apart from
the rest of the text, no two lines in a row are empty, and conditions are on one line.
-/

namespace DeviceForge.Layout

open Text String Token List Reader

variable {cs ds line : List Char} {s tail : String} {r : Reader} {as bs ts comments : List Token}
  {t i o : Token} {c : Char}

/-! ## The passes -/

def finish (cs : List Char) : List Char :=
  (Text.trim (ofList (collapseEmptyLines (spaceOperators (joinAssignments (placeBraces cs)))))).toList

lemma toList_format (s : String) : (format s).toList = finish (flattenConditions (unifyBreaks s.toList)) := by
  rw [format, placeInBuffer_eq]
  rfl

lemma not_mem_of_reuses (h : Reuses cs ds) (hcs : '\r' ∉ cs) : '\r' ∉ ds := by
  intro hmem
  rcases h _ hmem with hmem | hmem | hmem
  · exact hcs hmem
  · cases hmem
  · cases hmem

lemma reuses_finish (cs : List Char) : Reuses cs (finish cs) :=
  (reuses_placeBraces cs).trans ((reuses_joinAssignments _).trans ((reuses_spaceOperators _).trans (reuses_trim _)))

section Finish

variable {cs : List Char} (hreturn : '\r' ∉ cs)

include hreturn

lemma visible_finish : (finish cs).filter (!Text.isSpace ·) = cs.filter (!Text.isSpace ·) := by
  have hplaced := not_mem_of_reuses (reuses_placeBraces cs) hreturn
  have hjoined := not_mem_of_reuses (reuses_joinAssignments _) hplaced
  rw [← map_char_glyphs .initial, ← map_char_glyphs .initial, finish, (regapped_trim _).map_char, (regapped_spaceOperators hjoined).map_char,
    (regapped_joinAssignments hplaced).map_char, (regapped_placeBraces hreturn).map_char]

lemma braced_finish : Braced none (glyphs .initial (finish cs)) := by
  have hplaced := not_mem_of_reuses (reuses_placeBraces cs) hreturn
  have hjoined := not_mem_of_reuses (reuses_joinAssignments _) hplaced
  have hkept (p : Option Glyph) (x : Glyph) (g : Gap) (h : Kept p x g) : Loosened p x g := .inl h
  have hbraced := (regapped_placeBraces hreturn).braced_of_spread
  have hbraced := (regapped_joinAssignments hplaced).braced hbraced
  have hbraced := ((regapped_spaceOperators hjoined).mono hkept).braced hbraced
  exact ((regapped_trim _).mono hkept).braced hbraced

lemma flat_finish {m : Mode} (h : Flat m (glyphs .initial cs)) : Flat m (glyphs .initial (finish cs)) := by
  have hplaced := not_mem_of_reuses (reuses_placeBraces cs) hreturn
  have hjoined := not_mem_of_reuses (reuses_joinAssignments _) hplaced
  have hkept (p : Option Glyph) (x : Glyph) (g : Gap) (h : Kept p x g) : Fed p x g := Loosened.fed (.inl h)
  have hflat := ((regapped_placeBraces hreturn).mono fun _ _ _ => Spread.fed).flat h
  have hflat := ((regapped_joinAssignments hplaced).mono fun _ _ _ => Loosened.fed).flat hflat
  have hflat := ((regapped_spaceOperators hjoined).mono hkept).flat hflat
  exact ((regapped_trim _).mono hkept).flat hflat

end Finish

lemma not_mem_flattened (s : String) : '\r' ∉ flattenConditions (unifyBreaks s.toList) :=
  not_mem_of_reuses (reuses_flattenConditions _) (not_mem_unifyBreaks _)

lemma not_mem_format (s : String) : '\r' ∉ (format s).toList := by
  rw [toList_format]
  exact not_mem_of_reuses (reuses_finish _) (not_mem_flattened s)

lemma braced_format (s : String) : Braced none (glyphs .initial (format s).toList) := by
  rw [toList_format]
  exact braced_finish (not_mem_flattened s)

lemma flat_format (h : parted ((ofString s).filter (!·.isComment)) = false) :
    Flat (.between false) (glyphs .initial (format s).toList) := by
  rw [toList_format]
  have hunified := (parted_unifyBreaks s.toList).trans h
  exact flat_finish (not_mem_flattened s) (flat_flattenConditions (not_mem_unifyBreaks _) hunified)

/-- Laying out a text changes nothing but spaces. The bytes that are written while braces are placed are always well-formed, so reading them never
falls back on replacements. -/
theorem format_spares_characters (s : String) :
    (format s).toList.filter (!Text.isSpace ·) = s.toList.filter (!Text.isSpace ·) ∧
      ∀ cs, (braceBuffer cs).IsValidUTF8 ∧ (fromUTF8? (braceBuffer cs)).map String.toList = some (placeInBuffer cs) := by
  refine ⟨?_, fun cs => ?_⟩
  · have hflattened := (regapped_flattenConditions (not_mem_unifyBreaks s.toList)).map_char
    rw [map_char_glyphs, map_char_glyphs] at hflattened
    rw [toList_format, visible_finish (not_mem_flattened s), hflattened, filter_unifyBreaks]
  · rw [fromUTF8?_braceBuffer, Option.map_some, toList_ofList, placeInBuffer_eq]
    exact ⟨isValidUTF8_braceBuffer cs, rfl⟩

lemma spaces_lastLine (h : (r.past cs).gap = .feed) : Spaces (lastLine cs) := by
  induction cs using reverseRecOn with
  | nil => exact spaces_nil
  | append_singleton cs c ih =>
    rw [past_append, past_cons, past_nil] at h
    by_cases hfeed : c = '\n'
    · rw [hfeed, lastLine_append]
      exact spaces_nil
    by_cases hc : isSpace c
    · have hgap : (r.past cs).gap = .feed := by
        rw [push_space hc, Gap.push, if_neg hfeed] at h
        by_contra hgap
        simp [if_neg hgap] at h
      have hlast : lastLine (cs ++ [c]) = lastLine cs ++ [c] := by
        rw [lastLine, reverse_append, reverse_singleton, singleton_append, takeWhile_cons_of_pos (by simpa using hfeed),
          reverse_cons, lastLine]
      rw [hlast]
      exact spaces_append.2 ⟨ih hgap, spaces_cons.2 ⟨hc, spaces_nil⟩⟩
    · rw [Bool.not_eq_true] at hc
      simp [push_char hc] at h

lemma spaces_firstLine {m : Mode} (h : ∀ x ∈ (glyphs ⟨m, .tight⟩ cs).head?, x.gap = .feed) :
    Spaces (firstLine cs) := by
  rcases spaces_or_char cs with hspaces | ⟨w, c, rest, hw, hc, rfl⟩
  · exact fun c hmem => hspaces c ((List.takeWhile_prefix _).subset hmem)
  · rw [glyphs_append, glyphs_spaces hw, nil_append, glyphs_char hc] at h
    have hgap := h _ rfl
    rw [gap_past_spaces hw, Gap.past_eq] at hgap
    have hfeed : '\n' ∈ w := by
      by_contra hfeed
      rw [if_neg (by simp [hfeed])] at hgap
      split at hgap <;> cases hgap
    obtain ⟨line, more, rfl, hline⟩ := exists_line hfeed
    rw [List.append_assoc, cons_append, firstLine_append hline]
    exact (spaces_append.1 hw).1

lemma glyphs_bracket (h : scan cs = (as ++ t :: bs, tail)) (hreturn : '\r' ∉ cs)
    (hc : isBracket c) (ht : t.text = c.toString) : glyphs .initial cs = glyphs .initial (chars as ++ t.lead.toList) ++
      ⟨(initial.past (chars as ++ t.lead.toList)).gap, c, .between false⟩ :: glyphs .opened (chars bs ++ tail.toList) := by
  have hreading := (Reading.initial h hreturn).drop
  have htext : t.text.toList = [c] := by rw [ht, Char.toString, toList_singleton]
  have hsplit : cs = chars as ++ (t.lead.toList ++ c :: (chars bs ++ tail.toList)) := by
    rw [chars_scan h, chars_append, chars_cons, htext]
    simp
  rw [hsplit, glyphs_append, hreading.glyphs_lead, (hreading.bracket hc ht).2, past_append, glyphs_append _ (chars as) t.lead.toList,
    glyphs_spaces hreading.spaces_lead, append_nil]

lemma Braced.spaces_before {xs : List Glyph}
    (h : Braced none (glyphs .initial cs ++ ⟨(initial.past cs).gap, c, .between false⟩ :: xs))
    (hc : c = '\x7b' ∨ c = '\x7d') : Spaces (lastLine cs) := by
  obtain _ | ⟨hbrace, -, -⟩ := h.append
  rcases hbrace (by rcases hc with rfl | rfl <;> rfl) with hnone | hfeed
  · rw [Option.or_none, getLast?_eq_none_iff] at hnone
    exact fun d hd => spaces_of_glyphs hnone d (lastLine_subset cs hd)
  · exact spaces_lastLine hfeed

lemma Braced.spaces_behind {p : Option Glyph} {x : Glyph} (h : Braced p (x :: glyphs .opened cs))
    (hx : x.opens) : Spaces (firstLine cs) := by
  obtain _ | ⟨-, -, hrest⟩ := h
  refine spaces_firstLine (m := .between false) fun y hy => ?_
  obtain ⟨ys, hys⟩ := head?_eq_some_iff.1 hy
  have hys : glyphs .opened cs = y :: ys := hys
  rw [hys] at hrest
  obtain _ | ⟨-, hopened, -⟩ := hrest
  exact hopened ⟨x, rfl, hx⟩

/-! ## Empty lines -/

/-- No two lines in a row are empty. -/
def Sparse (lines : List (List Char)) : Prop :=
  lines.IsChain fun line next => ¬(Spaces line ∧ Spaces next)

lemma sparse_singleton (line : List Char) : Sparse [line] :=
  .singleton line

lemma sparse_cons {lines : List (List Char)} :
    Sparse (line :: lines) ↔ (∀ next ∈ lines.head?, ¬(Spaces line ∧ Spaces next)) ∧ Sparse lines :=
  isChain_cons

lemma sparse_collapseLines (afterEmpty : Bool) (lines : List (List Char)) :
    Sparse (collapseLines afterEmpty lines) ∧ (afterEmpty → ∀ line ∈ (collapseLines afterEmpty lines).head?, ¬Spaces line) := by
  induction lines generalizing afterEmpty with
  | nil => exact ⟨.nil, by simp [collapseLines]⟩
  | cons line lines ih =>
    rw [collapseLines]
    split
    · split
      · exact ⟨(ih true).1, fun _ => (ih true).2 rfl⟩
      · rename_i hafter
        refine ⟨sparse_cons.2 ⟨fun next hnext h => (ih true).2 rfl next hnext h.2, (ih true).1⟩, fun h => absurd h hafter⟩
    · rename_i hline
      have hline : ¬Spaces line := fun h => hline (all_eq_true.2 h)
      refine ⟨sparse_cons.2 ⟨fun next _ h => hline h.1, (ih false).1⟩, fun _ first hfirst => ?_⟩
      obtain rfl := Option.some.inj hfirst
      exact hline

lemma oneLine_splitAtChars (cs : List Char) : ∀ line ∈ splitAtChars (· == '\n') cs, OneLine line := by
  induction cs using lineInduction with
  | last line h =>
    rw [splitAtChars_line h, forall_mem_singleton]
    exact h
  | more line rest h ih =>
    rw [splitAtChars_append h]
    exact forall_mem_cons.2 ⟨h, ih⟩

lemma head?_splitAtChars (cs : List Char) : (splitAtChars (· == '\n') cs).head? = some (firstLine cs) := by
  induction cs using lineInduction with
  | last line h =>
    rw [splitAtChars_line h, firstLine, takeWhile_eq_self_iff.2]
    · rfl
    · intro c hc
      simpa using fun hfeed : c = '\n' => h (hfeed ▸ hc)
  | more line rest h ih =>
    rw [splitAtChars_append h, firstLine_append h]
    rfl

lemma sparse_collapseEmptyLines (cs : List Char) : Sparse (splitAtChars (· == '\n') (collapseEmptyLines cs)) := by
  have hlines : ∀ line ∈ collapseLines false (splitAtChars (· == '\n') cs), '\n' ∉ line := by
    intro line hline
    rcases mem_collapseLines hline with rfl | hline
    · simp
    · exact oneLine_splitAtChars cs line hline
  have hne : collapseLines false (splitAtChars (· == '\n') cs) ≠ [] := by
    obtain ⟨line, lines, hsplit⟩ := exists_cons_of_ne_nil (splitAtChars_ne_nil (· == '\n') cs)
    rw [hsplit, collapseLines]
    split <;> simp
  have hsplit : splitAtChars (· == '\n') (collapseEmptyLines cs) = collapseLines false (splitAtChars (· == '\n') cs) := by
    rw [splitAtChars_eq_splitOnP, collapseEmptyLines]
    exact splitOn_intercalate '\n' hlines hne
  rw [hsplit]
  exact (sparse_collapseLines false _).1

lemma sparse_dropWhile (h : Sparse (splitAtChars (· == '\n') cs)) :
    Sparse (splitAtChars (· == '\n') (cs.dropWhile Text.isSpace)) := by
  induction cs using lineInduction with
  | last line hone =>
    rw [splitAtChars_line fun hmem => hone ((dropWhile_suffix _).subset hmem)]
    exact sparse_singleton _
  | more line rest hone ih =>
    rw [splitAtChars_append hone, sparse_cons] at h
    rw [dropWhile_append]
    split
    · rw [dropWhile_cons_of_pos rfl]
      exact ih h.2
    · rename_i hline
      have hvisible : ¬Spaces (line.dropWhile Text.isSpace) := fun hspaces => by
        have hhead := head?_dropWhile_not Text.isSpace line
        cases hdrop : line.dropWhile Text.isSpace with
        | nil => simp [hdrop] at hline
        | cons c ds =>
          rw [hdrop] at hhead hspaces
          have := (spaces_cons.1 hspaces).1
          simp [this] at hhead
      rw [splitAtChars_append fun hmem => hone ((dropWhile_suffix _).subset hmem), sparse_cons]
      exact ⟨fun next _ h => hvisible h.1, h.2⟩

lemma spaces_firstLine_dropWhileEnd (hcs : ¬Spaces cs)
    (h : Spaces (firstLine (dropWhileEnd isSpace cs))) : Spaces (firstLine cs) := by
  obtain ⟨w, c, rest, hw, hc, rfl⟩ := (spaces_or_char cs).resolve_left hcs
  rw [dropWhileEnd_append_cons w hc] at h
  by_cases hfeed : '\n' ∈ w
  · obtain ⟨line, more, rfl, hline⟩ := exists_line hfeed
    rw [List.append_assoc, cons_append, firstLine_append hline] at h ⊢
    exact h
  · have hmem : c ∈ firstLine (w ++ c :: dropWhileEnd isSpace rest) := by
      have hne : c ≠ '\n' := by
        rintro rfl
        cases hc
      rw [firstLine, takeWhile_append_of_pos, takeWhile_cons_of_pos (by simpa using hne)]
      · simp
      · intro d hd
        simpa using fun heq : d = '\n' => hfeed (heq ▸ hd)
    simp [h c hmem] at hc

lemma sparse_dropWhileEnd (h : Sparse (splitAtChars (· == '\n') cs)) :
    Sparse (splitAtChars (· == '\n') (dropWhileEnd isSpace cs)) := by
  have hsub (cs : List Char) : dropWhileEnd isSpace cs ⊆ cs := (Text.dropWhileEnd_prefix _ cs).subset
  induction cs using lineInduction with
  | last line hone =>
    rw [splitAtChars_line fun hmem => hone (hsub _ hmem)]
    exact sparse_singleton _
  | more line rest hone ih =>
    rw [splitAtChars_append hone, sparse_cons, head?_splitAtChars] at h
    by_cases hrest : Spaces rest
    · rw [dropWhileEnd_append_right line (spaces_cons.2 ⟨rfl, hrest⟩), splitAtChars_line fun hmem => hone (hsub _ hmem)]
      exact sparse_singleton _
    · have hdrop : dropWhileEnd isSpace (line ++ '\n' :: rest) = line ++ '\n' :: dropWhileEnd isSpace rest := by
        obtain ⟨w, c, more, hw, hc, rfl⟩ := (spaces_or_char rest).resolve_left hrest
        rw [← cons_append, ← List.append_assoc, dropWhileEnd_append_cons _ hc, dropWhileEnd_append_cons _ hc, List.append_assoc,
          cons_append]
      rw [hdrop, splitAtChars_append hone, sparse_cons, head?_splitAtChars]
      refine ⟨fun next hnext hboth => ?_, ih h.2⟩
      obtain rfl := Option.some.inj hnext
      exact h.1 _ rfl ⟨hboth.1, spaces_firstLine_dropWhileEnd hrest hboth.2⟩

lemma sparse_format (s : String) : Sparse (splitAtChars (· == '\n') (format s).toList) := by
  rw [toList_format, finish, Text.trim, toList_ofList, toList_ofList]
  exact sparse_dropWhileEnd (sparse_dropWhile (sparse_collapseEmptyLines _))

/-! ## Conditions -/

lemma oneLine_of_no_feed (hc : isSpace c = false) (h : ∀ x ∈ glyphs r (cs ++ [c]), x.gap ≠ .feed) :
    r.gap ≠ .feed ∧ '\n' ∉ cs ++ [c] := by
  have hvisible {d : Char} (hd : isSpace d = false) : '\n' ≠ d := by
    rintro rfl
    cases hd
  induction cs generalizing r with
  | nil =>
    rw [nil_append, glyphs_char hc] at h
    exact ⟨h _ mem_cons_self, by simpa using hvisible hc⟩
  | cons d cs ih =>
    rw [cons_append] at h ⊢
    rw [mem_cons, not_or]
    by_cases hd : isSpace d
    · rw [glyphs_space hd] at h
      obtain ⟨hgap, hone⟩ := ih h
      rw [push_space hd, Gap.push] at hgap
      refine ⟨fun hr => hgap ?_, fun hfeed => hgap ?_, hone⟩
      · rw [hr]
        split <;> rfl
      · rw [if_pos hfeed.symm]
    · rw [Bool.not_eq_true] at hd
      rw [glyphs_char hd, forall_mem_cons] at h
      exact ⟨h.1, hvisible hd, (ih h.2).2⟩

lemma Reading.isPlain {afterIf : Bool} {tail : List Char} (h : Reading r afterIf (as ++ bs) tail)
    (has : ∀ t ∈ as, t.text ≠ "\x7b" ∧ t.text ≠ "\x7d" ∧ t.isLineComment = false) : ∀ x ∈ glyphs r (chars as), x.isPlain := by
  induction as generalizing r afterIf with
  | nil => simp
  | cons t as ih =>
    obtain ⟨⟨hopen, hclose, hcomment⟩, has⟩ := forall_mem_cons.1 has
    rw [chars_cons, List.append_assoc, h.glyphs_lead, glyphs_append, forall_mem_append]
    refine ⟨fun x hx => ?_, ih h.next has⟩
    rw [Glyph.isPlain, Bool.and_eq_true, Bool.not_eq_true', Bool.not_eq_true', ← Bool.not_eq_true, ← Bool.not_eq_true]
    refine ⟨fun hbrace => ?_, fun hline => ?_⟩
    · rw [Glyph.isCodeBrace, Bool.and_eq_true, decide_eq_true_eq, Glyph.isBrace, Bool.or_eq_true, decide_eq_true_eq, decide_eq_true_eq] at hbrace
      obtain ⟨hchar, hmode⟩ := hbrace
      have htext := h.text_of_glyph hx (by rcases hchar with hc | hc <;> rw [hc] <;> rfl) hmode
      rcases hchar with hc | hc
      · exact hopen (by rw [htext, hc]; rfl)
      · exact hclose (by rw [htext, hc]; rfl)
    · simp [h.isLineComment_of_glyph hx hline] at hcomment

lemma foldl_carry (h : ∀ t ∈ ts, t.isComment ∨ t.isSpace) (afterIf : Bool) :
    ts.foldl (fun b t => carry t b) afterIf = afterIf := by
  induction ts with
  | nil => rfl
  | cons t ts ih =>
    obtain ⟨ht, hts⟩ := forall_mem_cons.1 h
    rw [foldl_cons, carry, if_pos (by simpa using ht)]
    exact ih hts

lemma Reading.behind_if {afterIf : Bool} {cs : List Token} {tail : List Char}
    (h : Reading r afterIf (i :: (cs ++ ts)) tail) (hi : i.text = "if")
    (hcs : ∀ t ∈ cs, t.isComment ∨ t.isSpace) : Reading (r.past (chars (i :: cs))) true ts tail := by
  have hcode := code_of_text h.legible.2.1 (show i.text.toList = 'i' :: ['f'] by rw [hi]; rfl) (by decide)
  have hcomment : i.isComment = false := by cases hkind : i.kind <;> simp_all [isComment, Token.Kind.segment]
  have hspace : i.isSpace = false := by
    rw [Token.isSpace, hi]
    decide
  have hdrop := (show Reading r afterIf ((i :: cs) ++ ts) tail from h).drop
  rwa [foldl_cons, foldl_carry hcs, carry, if_neg (by simp [hcomment, hspace]), hi] at hdrop

lemma Reading.closing {afterIf : Bool} {bs : List Token} {tail : List Char} (h : Reading .opened afterIf bs tail) {n : Nat}
    (hclosing : Code.closingIn .round 1 bs = some n) : ∃ inside rest, chars (bs.take (n + 1)) = inside ++ [')'] ∧
      chars bs ++ tail = inside ++ [')'] ++ rest ∧ glyphs .opened inside = glyphs .opened (chars (bs.take n)) ∧
      closing 1 (glyphs .opened (chars bs ++ tail)) = some (glyphs .opened inside).length := by
  have hagrees := agrees_marked (m := opened.here) h.unified trivial
  rw [Segment.marked_scan (scan_of_legible h.legible), toList_ofList] at hagrees
  have hglyphs := closing_glyphs hagrees 1
  obtain ⟨hnone, -⟩ | ⟨before, t, after, rfl, ht, hbefore, hchars⟩ := closingIn_tokens .round 1 h.legible
  · simp [hnone] at hclosing
  obtain rfl : before.length = n := Option.some.inj (hbefore.symm.trans hclosing)
  have htext : t.text.toList = [')'] := by
    rw [ht]
    rfl
  have hsplit : chars (before ++ t :: after) ++ tail = chars before ++ t.lead.toList ++ ([')'] ++ (chars after ++ tail)) := by
    rw [chars_append, chars_cons, htext]
    simp
  refine ⟨chars before ++ t.lead.toList, chars after ++ tail, ?_, ?_, ?_, ?_⟩
  · rw [take_length_succ, chars_append, chars_cons, chars_nil, append_nil, htext, List.append_assoc]
  · rw [hsplit, append_assoc _ [')']]
  · rw [take_left, glyphs_append, glyphs_spaces h.drop.spaces_lead, append_nil]
  · rwa [map_fst_labelled, hchars, Option.map_some, map_take, map_fst_labelled, hsplit, take_left, ← hsplit] at hglyphs

lemma Flat.oneLine (h : Flat (.between false) (glyphs .initial cs)) (hreturn : '\r' ∉ cs)
    (hscan : scan cs = (as ++ i :: (comments ++ o :: bs), tail)) (hi : i.text = "if")
    (hcomments : ∀ t ∈ comments, t.isComment ∨ t.isSpace) (ho : o.text = "(") {n : Nat}
    (hclosing : Code.closingIn .round 1 bs = some n)
    (hplain : ∀ t ∈ bs.take n, t.text ≠ "\x7b" ∧ t.text ≠ "\x7d" ∧ t.isLineComment = false) :
    '\n' ∉ Token.chars (bs.take (n + 1)) := by
  have hreading := (Reading.initial hscan hreturn).drop.behind_if hi hcomments
  rw [← past_append, ← chars_append] at hreading
  have hsplit : as ++ i :: (comments ++ o :: bs) = (as ++ i :: comments) ++ o :: bs := by simp
  rw [hsplit] at hscan
  rw [glyphs_bracket hscan hreturn (c := '(') rfl ho] at h
  obtain _ | ⟨hcondition, -⟩ := h.append
  have hafter : (((glyphs .initial (chars (as ++ i :: comments) ++ o.lead.toList)).getLast?.map Glyph.mode).getD (.between false)).afterIf =
      true := by
    have hmode := mode_past .initial (chars (as ++ i :: comments) ++ o.lead.toList)
    rw [past_append, mode_past_spaces hreading.spaces_lead] at hmode
    exact (congrArg Mode.afterIf hmode).symm.trans hreading.afterIf_eq
  have hinside := hreading.next
  rw [(hreading.bracket (c := '(') rfl ho).1] at hinside
  obtain ⟨inside, rest, hchars, hrest, hglyphs, hclose⟩ := hinside.closing hclosing
  have hfeeds := hcondition hafter rfl rfl _ hclose
  rw [hrest, take_glyphs_succ (by decide), List.append_assoc, take_glyphs, hglyphs] at hfeeds
  rw [← take_append_drop n bs] at hinside
  rw [hchars]
  exact (oneLine_of_no_feed (by decide) (hfeeds (hinside.isPlain hplain))).2

/-! ## The normal form -/

/-- Every text is laid out so: an opening brace of code is alone on its line, a closing one is the first on its line, and no two lines in a row
are empty. The condition of an `if` that has neither a brace nor a line comment in it is on one line, unless a space that is no blank parts an
`if` of the text from its condition. -/
theorem format_normal (s : String) :
    (∀ as t bs tail, Token.scan (format s).toList = (as ++ t :: bs, tail) → t.text = "\x7b" →
      Spaces (lastLine (Token.chars as ++ t.lead.toList)) ∧ Spaces (firstLine (Token.chars bs ++ tail.toList))) ∧
    (∀ as t bs tail, Token.scan (format s).toList = (as ++ t :: bs, tail) → t.text = "\x7d" →
      Spaces (lastLine (Token.chars as ++ t.lead.toList))) ∧
    Sparse (splitAtChars (· == '\n') (format s).toList) ∧
    (parted ((Token.ofString s).filter (!·.isComment)) = false →
      ∀ as i comments o bs tail n, Token.scan (format s).toList = (as ++ i :: (comments ++ o :: bs), tail) → i.text = "if" →
        (∀ t ∈ comments, t.isComment = true ∨ t.isSpace = true) → o.text = "(" → Code.closingIn .round 1 bs = some n →
        (∀ t ∈ bs.take n, t.text ≠ "\x7b" ∧ t.text ≠ "\x7d" ∧ t.isLineComment = false) → '\n' ∉ Token.chars (bs.take (n + 1))) := by
  have hreturn := not_mem_format s
  have hbraced := braced_format s
  refine ⟨fun as t bs tail hscan ht => ?_, fun as t bs tail hscan ht => ?_, sparse_format s, fun hparted => ?_⟩
  · rw [glyphs_bracket hscan hreturn (c := '\x7b') rfl ht] at hbraced
    exact ⟨hbraced.spaces_before (.inl rfl), hbraced.append.spaces_behind rfl⟩
  · rw [glyphs_bracket hscan hreturn (c := '\x7d') rfl ht] at hbraced
    exact hbraced.spaces_before (.inr rfl)
  · intro as i comments o bs tail n hscan hi hcomments ho hclosing hplain
    exact (flat_format hparted).oneLine hreturn hscan hi hcomments ho hclosing hplain

/-- A wrapped condition and braces, laid out. -/
def wrappedTokens : List Token :=
  [⟨.identifier, "", "if"⟩, ⟨.punct, "", "("⟩, ⟨.identifier, "", "a"⟩, ⟨.identifier, " ", "b"⟩, ⟨.punct, "", ")"⟩, ⟨.punct, "\n", "\x7b"⟩,
    ⟨.identifier, "\n", "c"⟩, ⟨.punct, "\n", "\x7d"⟩]

theorem format_normal_wrapped :
    Token.scan (format "if(a\nb)\x7bc\x7d").toList = (wrappedTokens, "") ∧
      parted ((Token.ofString "if(a\nb)\x7bc\x7d").filter (!·.isComment)) = false ∧
      (Spaces (lastLine (Token.chars (wrappedTokens.take 5) ++ ['\n'])) ∧ Spaces (firstLine (Token.chars (wrappedTokens.drop 6)))) ∧
      Spaces (lastLine (Token.chars (wrappedTokens.take 7) ++ ['\n'])) ∧ '\n' ∉ Token.chars ((wrappedTokens.drop 2).take 3) := by
  have hscan : Token.scan (format "if(a\nb)\x7bc\x7d").toList = (wrappedTokens, "") := by decide +kernel
  have hparted : parted ((Token.ofString "if(a\nb)\x7bc\x7d").filter (!·.isComment)) = false := by decide +kernel
  obtain ⟨hopen, hclose, -, hcondition⟩ := format_normal "if(a\nb)\x7bc\x7d"
  have hone := hcondition hparted [] ⟨.identifier, "", "if"⟩ [] ⟨.punct, "", "("⟩ (wrappedTokens.drop 2) "" 2 hscan rfl (by simp) rfl rfl
    (by simp [wrappedTokens, isLineComment])
  have hbrace := hopen (wrappedTokens.take 5) ⟨.punct, "\n", "\x7b"⟩ (wrappedTokens.drop 6) "" hscan rfl
  rw [toList_empty, append_nil] at hbrace
  exact ⟨hscan, hparted, hbrace, hclose (wrappedTokens.take 7) ⟨.punct, "\n", "\x7d"⟩ [] "" hscan rfl, hone⟩

/-- A vertical tab on a line of its own parts the `if` from its condition until the empty lines are taken away: the condition stays wrapped. -/
theorem not_format_normal_parted : ∃ as i comments o bs tail n,
    Token.scan (format "if\n\x0b\n(a\nb)").toList = (as ++ i :: (comments ++ o :: bs), tail) ∧ i.text = "if" ∧ comments = [] ∧ o.text = "(" ∧
      Code.closingIn .round 1 bs = some n ∧ (∀ t ∈ bs.take n, t.text ≠ "\x7b" ∧ t.text ≠ "\x7d" ∧ t.isLineComment = false) ∧
      '\n' ∈ Token.chars (bs.take (n + 1)) := by
  refine ⟨[], ⟨.identifier, "", "if"⟩, [], ⟨.punct, "\n\n", "("⟩, [⟨.identifier, "", "a"⟩, ⟨.identifier, "\n", "b"⟩, ⟨.punct, "", ")"⟩], "", 2,
    ?_, rfl, rfl, rfl, rfl, ?_, ?_⟩
  · decide +kernel
  · simp [isLineComment]
  · simp [chars_cons]

end DeviceForge.Layout
