import DeviceForge.Proofs.Code.Append
import Mathlib.Data.List.Chain
/-!
# Texts without their comments

Where a comment is taken out, two tokens may come together.
-/

namespace DeviceForge

open List String Token Segment

/-! ## What is left -/

namespace Code

/-- Drops comments but keeps the blanks before them; `lead` is what has been passed since the last token. -/
def dropComments (lead : String) : List Token → String → Code
  | [], tail => ⟨[], lead ++ tail⟩
  | t :: ts, tail =>
    if t.isComment then dropComments (lead ++ t.lead) ts tail
    else
      let rest := dropComments "" ts tail
      ⟨⟨t.kind, lead ++ t.lead, t.text⟩ :: rest.tokens, rest.tail⟩

/-- The tokens of a text that are no comments, and the blanks between them. -/
def uncommented (s : String) : Code :=
  dropComments "" (Token.ofString s) (Token.scan s.toList).2

lemma dropComments_comment {t : Token} (h : t.isComment) (lead : String) (ts : List Token) (tail : String) :
    dropComments lead (t :: ts) tail = dropComments (lead ++ t.lead) ts tail := by
  rw [dropComments, if_pos h]

lemma dropComments_code {t : Token} (h : t.isComment = false) (lead : String) (ts : List Token) (tail : String) :
    dropComments lead (t :: ts) tail =
      ⟨⟨t.kind, lead ++ t.lead, t.text⟩ :: (dropComments "" ts tail).tokens, (dropComments "" ts tail).tail⟩ := by
  rw [dropComments, if_neg (by simp [h])]

lemma map_bare_dropComments (lead : String) (ts : List Token) (tail : String) :
    (dropComments lead ts tail).tokens.map bare = (ts.map bare).filter (·.1 ≠ .comment) := by
  induction ts generalizing lead with
  | nil => rfl
  | cons t ts ih =>
    cases h : t.isComment with
    | true =>
      have hkind : t.kind = .comment := by simpa [isComment] using h
      rw [dropComments_comment h, ih, map_cons, filter_cons_of_neg (by simp [bare, hkind])]
    | false =>
      have hkind : t.kind ≠ .comment := by simpa [isComment] using h
      rw [dropComments_code h, map_cons, map_cons, ih, filter_cons_of_pos (by simp [bare, hkind])]
      rfl

lemma map_bare_uncommented (s : String) : (uncommented s).tokens.map bare = shapes s := by
  rw [uncommented, map_bare_dropComments, shapes_eq]
  rfl

lemma chars_dropComments (lead : String) (ts : List Token) (tail : String) :
    chars (dropComments lead ts tail).tokens ++ (dropComments lead ts tail).tail.toList =
      lead.toList ++ (ts.flatMap fun t => t.lead.toList ++ if t.isComment then [] else t.text.toList) ++ tail.toList := by
  induction ts generalizing lead with
  | nil => simp [dropComments]
  | cons t ts ih =>
    cases h : t.isComment with
    | true =>
      rw [dropComments_comment h, ih]
      simp [h]
    | false =>
      have hrest := ih ""
      simp only [toList_empty, nil_append] at hrest
      rw [dropComments_code h, Token.chars_cons, List.append_assoc, hrest]
      simp [h]

lemma blank_dropComments {lead : String} (hlead : Token.Blank lead.toList) {ts : List Token} {tail : String}
    (h : Token.Legible ts tail.toList) :
    (∀ t ∈ (dropComments lead ts tail).tokens, Token.Blank t.lead.toList ∧ (∃ rest, Token.Reads t rest) ∧ t.isComment = false) ∧
      Token.Blank (dropComments lead ts tail).tail.toList := by
  have happend {a b : String} (ha : Token.Blank a.toList) (hb : Token.Blank b.toList) : Token.Blank (a ++ b).toList := by
    rw [toList_append]
    exact fun c hc => (mem_append.1 hc).elim (ha c) (hb c)
  induction ts generalizing lead with
  | nil => exact ⟨by simp [dropComments], happend hlead h⟩
  | cons t ts ih =>
    obtain ⟨hblank, hreads, h⟩ := h
    cases hcomment : t.isComment with
    | true =>
      rw [dropComments_comment hcomment]
      exact ih (happend hlead hblank) h
    | false =>
      rw [dropComments_code hcomment]
      obtain ⟨htokens, htail⟩ := ih (show Token.Blank "".toList by simp [Token.Blank]) h
      exact ⟨forall_mem_cons.2 ⟨⟨happend hlead hblank, ⟨_, hreads⟩, hcomment⟩, htokens⟩, htail⟩

end Code

lemma Segment.toList_removeComments (s : String) :
    (removeComments s).toList = ((marked s.toList).filter (·.2 ≠ .comment)).map (·.1) := by
  rw [removeComments, toList_ofList, marked]
  induction ofChars s.toList with
  | nil => rfl
  | cons seg segs ih =>
    rw [flatMap_cons, filter_append, map_append, ← ih, filter_map, List.map_map, filter_cons]
    by_cases h : seg.kind = .comment <;> simp [h, Function.comp_def]

lemma Code.toList_removeComments (s : String) :
    (Segment.removeComments s).toList = Token.chars (uncommented s).tokens ++ (uncommented s).tail.toList := by
  rw [Segment.toList_removeComments, Segment.marked_scan (Prod.eta (Token.scan s.toList)).symm, uncommented, chars_dropComments,
    filter_append, map_append, filter_flatMap, map_flatMap]
  congr 1
  · rw [toList_empty, nil_append, Token.ofString]
    refine flatMap_congr fun t _ => ?_
    cases hkind : t.kind <;>
      simp [Segment.labelledToken, filter_map, Function.comp_def, Token.isComment, Token.Kind.segment, hkind]
  · simp [filter_map, Function.comp_def]

/-! ## Tokens that come together -/

namespace Token

variable {t u : Token} {rest rest' tail : List Char} {ts : List Token}

def isSingle (text : String) : Bool :=
  match text.toList with
  | [c] => c ∈ ['(', ')', '[', ']', '\x7b', '\x7d', ';', ',']
  | _ => false

def joins (a b : Kind × String) : Bool :=
  a.1 = .str || a.1 = .char || isSingle a.2 || b.2.toList.head?.any isStop || (a.1 = .identifier && b.1 = .punct) ||
    (a.1 = .punct && b.1 = .identifier)

lemma reads_single (h : Reads t rest) (hsingle : isSingle t.text) (more : List Char) : Reads t more := by
  obtain ⟨c, cs, htext, hblank, hext⟩ := h
  rw [isSingle, htext] at hsingle
  cases cs with
  | cons d cs => cases hsingle
  | nil =>
    refine ⟨c, [], htext, hblank, ?_⟩
    have hpunct (rest : List Char) : extent c rest = (.punct, 0) := by
      simp only [mem_cons, not_mem_nil, or_false, decide_eq_true_eq] at hsingle
      rcases hsingle with rfl | rfl | rfl | rfl | rfl | rfl | rfl | rfl <;> simp [extent, Lexeme.operator, Lexeme.operators]
    rw [nil_append, hpunct] at hext ⊢
    exact hext

lemma not_wordChar_of_punct (h : Reads t rest) (hkind : t.kind = .punct) :
    ∀ c ∈ t.text.toList.head?, Text.isWordChar c = false := by
  obtain ⟨c, cs, htext, -, hext⟩ := h
  intro d hd
  obtain rfl : c = d := by simpa [htext] using hd
  rw [hkind] at hext
  obtain ⟨-, hnumber, hletter, -⟩ := (extent_iff rfl).1 hext
  rw [startsNumber, Bool.or_eq_false_iff] at hnumber
  rw [Bool.or_eq_false_iff] at hletter
  simp_all [Text.isWordChar, Char.isAlphanum]

lemma reads_joins (ht : Reads t rest) (hclosed : t.isClosed) (hcomment : t.isComment = false)
    (hu : Reads u rest') (h : joins t.bare u.bare) (more : List Char) : Reads t (u.text.toList ++ more) := by
  have hline : t.isLineComment = false := not_isLineComment (by simpa [isComment] using hcomment)
  obtain ⟨d, ds, hds, -⟩ := id hu
  simp only [joins, Bool.or_eq_true, Bool.and_eq_true, decide_eq_true_iff] at h
  change ((((t.kind = .str ∨ t.kind = .char) ∨ isSingle t.text) ∨ u.text.toList.head?.any isStop) ∨
    t.kind = .identifier ∧ u.kind = .punct) ∨ t.kind = .punct ∧ u.kind = .identifier at h
  rcases h with ((((h | h) | h) | h) | ⟨h, h'⟩) | ⟨h, h'⟩
  · exact reads_of_isClosed ht hclosed (by rw [h]; decide) hline _
  · exact reads_of_isClosed ht hclosed (by rw [h]; decide) hline _
  · exact reads_single ht h _
  · rw [hds] at h ⊢
    exact reads_stop_of_isClosed ht hclosed hline (by simpa using h) _
  · refine reads_identifier h (isIdentifierText_of_reads ht h) fun c hc => not_wordChar_of_punct hu h' c ?_
    rwa [head?_append_of_ne_nil _ (by simp [hds])] at hc
  · obtain ⟨c, cs, hcs, hc⟩ := exists_letter (isIdentifierText_of_reads hu h')
    rw [hcs]
    exact reads_letter ht h hc _

lemma Legible.opens (h : Legible ts tail) : Opens ts tail := by
  induction ts with
  | nil => trivial
  | cons t ts ih => exact ⟨h.1, h.2.1, ih h.2.2⟩

lemma legible_of_joins (hts : ∀ t ∈ ts, Blank t.lead.toList ∧ (∃ rest, Reads t rest) ∧ t.isComment = false)
    (hclosed : ∀ t ∈ ts, t.isClosed) (htail : Blank tail)
    (hchain : ts.IsChain fun t u => u.lead = "" → joins t.bare u.bare) : Legible ts tail := by
  induction ts with
  | nil => exact htail
  | cons t ts ih =>
    obtain ⟨⟨hlead, ⟨rest, hreads⟩, hcomment⟩, hts⟩ := forall_mem_cons.1 hts
    obtain ⟨hct, hcts⟩ := forall_mem_cons.1 hclosed
    refine ⟨hlead, ?_, ih hts hcts hchain.tail⟩
    -- a blank ends every token, and without one the next token comes directly behind
    have hhalts {cs : List Char} (h : Halts cs) : Reads t cs := by
      by_cases hcode : t.kind.segment = .code
      · exact reads_halts hreads hcode h
      · exact reads_of_isClosed hreads hct hcode (not_isLineComment (by simpa [isComment] using hcomment)) _
    have hblank {w : List Char} (hw : Blank w) (hne : w ≠ []) (more : List Char) : Halts (w ++ more) := by
      intro c hc
      rw [head?_append_of_ne_nil _ hne] at hc
      rw [hw c (mem_of_mem_head? hc), Bool.true_or]
    cases ts with
    | nil =>
      by_cases hne : tail = []
      · exact hhalts (by simp [hne, Halts])
      · have := hblank htail hne []
        rw [append_nil] at this
        exact hhalts this
    | cons u ts =>
      obtain ⟨⟨hulead, ⟨rest', hu⟩, -⟩, -⟩ := forall_mem_cons.1 hts
      change Reads t (chars (u :: ts) ++ tail)
      rw [chars_cons, List.append_assoc, List.append_assoc]
      by_cases hne : u.lead.toList = []
      · have hjoins := (isChain_cons_cons.1 hchain).1 (toList_injective hne)
        rw [hne, nil_append]
        exact reads_joins hreads hct hcomment hu hjoins _
      · exact hhalts (hblank hulead hne _)

end Token

namespace Code

lemma isClosed_dropComments {lead : String} {ts : List Token} {tail : String} (h : Token.Legible ts tail.toList) :
    ∀ t ∈ (dropComments lead ts tail).tokens.dropLast, t.isClosed := by
  induction ts generalizing lead with
  | nil => simp [dropComments]
  | cons t ts ih =>
    obtain ⟨-, hreads, hts⟩ := h
    by_cases hcomment : t.isComment
    · rw [dropComments_comment hcomment]
      exact ih hts
    · rw [dropComments_code (by simpa using hcomment)]
      cases hrest : (dropComments "" ts tail).tokens with
      | nil => simp
      | cons u us =>
        -- another token follows, so this one ends before the text does
        have hne : chars ts ++ tail.toList ≠ [] := by
          cases ts with
          | nil => simp [dropComments] at hrest
          | cons v vs =>
            obtain ⟨c, cs, htext, -⟩ := hts.2.1
            simp [htext]
        rw [dropLast_cons_cons, ← hrest]
        exact forall_mem_cons.2 ⟨isClosed_of_reads hreads hne, ih hts⟩

end Code

lemma Code.scan_removeComments {s : String} (hclosed : ∀ t ∈ (uncommented s).tokens, t.isClosed)
    (hchain : (uncommented s).tokens.IsChain fun t u => u.lead = "" → joins t.bare u.bare = true) :
    scan (removeComments s).toList = ((uncommented s).tokens, (uncommented s).tail) := by
  have hlegible : Token.Legible (Token.ofString s) (Token.scan s.toList).2.toList :=
    legible_of_scan (Prod.eta (scan s.toList)).symm
  obtain ⟨htokens, htail⟩ := blank_dropComments (show Token.Blank "".toList by simp [Token.Blank]) hlegible
  have hscan := scan_of_legible (legible_of_joins htokens hclosed htail hchain)
  rw [ofList_toList] at hscan
  rw [toList_removeComments]
  exact hscan

end DeviceForge
