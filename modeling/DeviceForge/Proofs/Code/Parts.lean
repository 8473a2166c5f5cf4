import DeviceForge.Proofs.Code.Append
import DeviceForge.Proofs.Layout.EmptyLines
/-!
# Parts of a text

A part of a text from behind one token of code up to another is read by itself as the tokens between them
(`shapes_part`), also when it is trimmed, as long as the code of the text has no spaces but blanks.
-/

namespace DeviceForge

open String List Token Text

namespace Layout

lemma trim_chars {x : Stream} (h : x.Neat) : (Text.trim (ofList x.chars)).toList = (trimStream x).chars := by
  rw [Text.trim, toList_ofList, toList_ofList]
  obtain ⟨tokens, tail⟩ := x
  obtain ⟨hlegible, hsolid⟩ := h
  cases tokens with
  | nil =>
    have hdrop : tail.dropWhile isSpace = [] := dropWhile_eq_nil_iff.2 (Blank.spaces hlegible)
    simp [Stream.chars, trimStream, trimEnds, hdrop, dropWhileEnd]
  | cons t ts =>
    have hbare := hlegible.withLead (by simp [Token.Blank] : Token.Blank [])
    obtain ⟨hst, hsts⟩ := forall_mem_cons.1 hsolid
    obtain ⟨hlead, hreads, hlegible⟩ := hlegible
    obtain ⟨c, cs, htext, hc⟩ := head_of_reads hreads hst
    have hdrop : (Stream.chars ⟨t :: ts, tail⟩).dropWhile isSpace = chars (t.withLead [] :: ts) ++ tail := by
      rw [Stream.chars, chars_cons, List.append_assoc, List.append_assoc, dropWhile_append_of_pos hlead.spaces, htext,
        cons_append, dropWhile_cons_of_neg (by simp [hc]), chars_cons, lead_withLead, text_withLead, htext]
      simp
    rw [hdrop, dropWhileEnd_tokens hbare (forall_mem_cons.2 ⟨hst.withLead [], hsts⟩) (cons_ne_nil _ _) hlegible.tail.spaces]
    simp [Stream.chars, trimStream, trimEnds]

lemma bare_trimLast {ts : List Token} {tail : List Char} (hlegible : Token.Legible ts tail) (hsolid : ∀ t ∈ ts, t.Solid) :
    ((trimLast ts).map bare).filter (·.1 ≠ .comment) = (ts.map bare).filter (·.1 ≠ .comment) := by
  induction ts with
  | nil => rfl
  | cons t ts ih =>
    obtain ⟨-, hreads, hlegible⟩ := hlegible
    obtain ⟨hst, hsts⟩ := forall_mem_cons.1 hsolid
    cases ts with
    | nil =>
      by_cases hcomment : t.kind = .comment
      · simp [trimLast, bare, hcomment]
      · obtain ⟨ds, d, hds, hd⟩ := last_of_reads hreads hst (not_isLineComment hcomment)
        have hsame : dropWhileEnd isSpace t.text.toList = t.text.toList := by
          refine dropWhileEnd_eq_self fun c hc => ?_
          obtain rfl : d = c := by simpa [hds] using hc
          exact hd
        rw [trimLast, hsame, ofList_toList]
    | cons u ts =>
      rw [trimLast, map_cons, map_cons, filter_cons, filter_cons, ih hlegible hsts]
      simp

lemma bare_trimStream {x : Stream} (h : x.Neat) :
    ((trimStream x).tokens.map bare).filter (·.1 ≠ .comment) = (x.tokens.map bare).filter (·.1 ≠ .comment) := by
  obtain ⟨tokens, tail⟩ := x
  obtain ⟨hlegible, hsolid⟩ := h
  cases tokens with
  | nil => rfl
  | cons t ts =>
    obtain ⟨hst, hsts⟩ := forall_mem_cons.1 hsolid
    have hbare := hlegible.withLead (by simp [Token.Blank] : Token.Blank [])
    exact bare_trimLast hbare (forall_mem_cons.2 ⟨hst.withLead [], hsts⟩)

end Layout

namespace Stream

lemma Neat.shapes {x : Stream} (h : x.Neat) {s : String} (hs : s.toList = x.chars) :
    Code.shapes s = (x.tokens.map Token.bare).filter (·.1 ≠ .comment) := by
  rw [Code.shapes_eq, Token.shapes, hs, h.scan]

end Stream

namespace Code

def Plain (s : String) : Prop :=
  (Stream.ofChars s.toList).Neat

lemma Plain.trim {s : String} (h : Plain s) : Plain (Text.trim s) ∧ shapes (Text.trim s) = shapes s := by
  have hchars := Layout.trim_chars h
  rw [Stream.chars_ofChars, ofList_toList] at hchars
  have hneat := h.relaid (Layout.relaid_trimStream h)
  constructor
  · rw [Plain, hchars, hneat.ofChars_chars]
    exact hneat
  · rw [hneat.shapes hchars, h.shapes (Stream.chars_ofChars _).symm, Layout.bare_trimStream h]

/-! ## From one token up to another -/

lemma foldComments_split {lead : String} {us : List Token} {tail : String} {ts more : List Token} {t : Token}
    (h : (foldComments lead us tail).tokens = ts ++ t :: more) :
    ∃ vs u ws, us = vs ++ u :: ws ∧ lead ++ (spell vs ++ u.lead) = spell ts ++ t.lead ∧
      (vs.map Token.bare).filter (·.1 ≠ .comment) = ts.map Token.bare ∧ (foldComments "" ws tail).tokens = more := by
  induction us generalizing lead ts with
  | nil => simp [foldComments] at h
  | cons u us ih =>
    by_cases hu : u.isComment
    · have hkind : u.kind = .comment := by simpa [isComment] using hu
      rw [foldComments, if_pos hu] at h
      obtain ⟨vs, v, ws, rfl, hspell, hbare, hmore⟩ := ih h
      refine ⟨u :: vs, v, ws, rfl, ?_, ?_, hmore⟩
      · rw [← hspell, spell_cons, spelling]
        simp [String.append_assoc]
      · rw [map_cons, filter_cons_of_neg (by simp [Token.bare, hkind]), hbare]
    · have hkind : u.kind ≠ .comment := by simpa [isComment] using hu
      rw [foldComments, if_neg hu] at h
      cases ts with
      | nil =>
        obtain ⟨rfl, hmore⟩ := List.cons.inj h
        exact ⟨[], u, us, rfl, by simp [spell_nil], rfl, hmore⟩
      | cons t' ts =>
        obtain ⟨rfl, hts⟩ := List.cons.inj h
        obtain ⟨vs, v, ws, rfl, hspell, hbare, hmore⟩ := ih hts
        refine ⟨u :: vs, v, ws, rfl, ?_, ?_, hmore⟩
        · rw [empty_append] at hspell
          simp only [spell_cons, String.append_assoc, ← hspell]
        · rw [map_cons, filter_cons_of_pos (by simp [Token.bare, hkind]), hbare]
          rfl

/-- The code of a text has no spaces but blanks. -/
def Spaceless (s : String) : Prop :=
  ∀ t ∈ Token.ofString s, t.kind.segment = .code → ∀ c ∈ t.text.toList, Text.isSpace c = false

lemma spaceless_iff (s : String) : Spaceless s ↔
    ∀ t ∈ Token.ofString s, t.kind.segment = .code → t.text.toList.all (fun c => !isSpace c) = true := by
  simp only [Spaceless, all_eq_true, Bool.not_eq_true']

instance (s : String) : Decidable (Spaceless s) :=
  decidable_of_iff _ (spaceless_iff s).symm

end Code

lemma solid_of_legible {ts us : List Token} {tail : List Char} (h : Legible (ts ++ us) tail) (hne : us ≠ [])
    (hspace : ∀ t ∈ ts, t.kind.segment = .code → ∀ c ∈ t.text.toList, isSpace c = false) : ∀ t ∈ ts, t.Solid := by
  induction ts with
  | nil => simp
  | cons t ts ih =>
    obtain ⟨-, hreads, hlegible⟩ := h
    obtain ⟨ht, hts⟩ := forall_mem_cons.1 hspace
    refine forall_mem_cons.2 ⟨⟨isClosed_of_reads hreads ?_, oneLine_of_reads hreads, ht⟩, ih hlegible hts⟩
    obtain ⟨u, us, rfl⟩ := exists_cons_of_ne_nil hne
    obtain ⟨c, cs, htext, -⟩ := hlegible.drop.2.1
    simp [htext]

namespace Code

structure Part (s : String) (ts : List Token) (part : String) : Prop where
  intro ::
  cut : ∃ pre p t post, (ofString s).tokens = pre ++ p :: (ts ++ t :: post) ∧ part = spell ts ++ t.lead

lemma Part.plain {s part : String} {ts : List Token} (h : Part s ts part) (hs : Spaceless s) :
    Plain part ∧ shapes part = ts.map bare := by
  obtain ⟨⟨pre, p, t, post, htokens, rfl⟩⟩ := h
  have hlegible := legible_of_scan (Prod.eta (scan s.toList)).symm
  rw [ofString] at htokens
  obtain ⟨as, a, us, hus, -, -, hrest⟩ := foldComments_split htokens
  obtain ⟨vs, v, ws, rfl, hspell, hbare, -⟩ := foldComments_split hrest
  rw [empty_append] at hspell
  rw [hus] at hlegible
  have hlegible := (Token.Legible.drop hlegible).2.2
  have hspace : ∀ u ∈ vs, u.kind.segment = .code → ∀ c ∈ u.text.toList, isSpace c = false :=
    fun u hu => hs u (by rw [Token.ofString, hus]; simp [hu])
  have hsolid := solid_of_legible hlegible (cons_ne_nil _ _) hspace
  have hneat : Stream.Neat ⟨vs, v.lead.toList⟩ := by
    refine ⟨hlegible.take hsolid hlegible.drop.1 fun hbreak c hc => ?_, hsolid⟩
    refine hbreak c ?_
    obtain ⟨w, hw⟩ := head?_eq_some_iff.1 hc
    simp [chars_cons, show v.lead.toList = c :: w from hw]
  have hchars : (spell ts ++ t.lead).toList = Stream.chars ⟨vs, v.lead.toList⟩ := by
    rw [← hspell, toList_append, toList_spell, Stream.chars]
  constructor
  · rw [Plain, hchars, hneat.ofChars_chars]
    exact hneat
  · rw [hneat.shapes hchars, hbare]

lemma bare_append (a b : Code) : (a.append b).tokens.map bare = a.tokens.map bare ++ b.tokens.map bare := by
  obtain ⟨ts, tail⟩ := b
  cases ts <;> simp [append, behind, bare]

lemma trivia_lineFeed : Trivia "\n" :=
  trivia_blank (by simp [Token.Blank, isBlank])

lemma shapes_empty : shapes "" = [] := by
  decide +kernel

lemma Plain.shapes_line {a : String} (ha : Plain a) (b : String) : shapes (a ++ ("\n" ++ b)) = shapes a ++ shapes b := by
  have hmore : ("\n" ++ b).toList = '\n' :: b.toList := by simp
  have happend : ofString (a ++ ("\n" ++ b)) = (ofString a).append (ofString ("\n" ++ b)) := by
    refine ofString_append (by rw [hmore]; simp) fun t ht _ => ?_
    have hmem := mem_of_mem_getLast? ht
    have hsolid := ha.solid t hmem
    obtain ⟨rest, hreads⟩ := ha.legible.reads t hmem
    refine hsolid.kin_refl.reads hsolid hreads (fun hcode => ?_) fun _ => ?_
    · exact reads_halts hreads hcode fun c hc => by
        obtain rfl : '\n' = c := by simpa [hmore] using hc
        decide
    · intro c hc
      obtain rfl : '\n' = c := by simpa [hmore] using hc
      decide
  rw [shapes, happend, bare_append]
  exact congrArg (shapes a ++ ·) (shapes_trivia trivia_lineFeed b)

lemma Plain.shapes_lines {a b : String} (ha : Plain a) :
    shapes ("\n".intercalate ([a, b].filter (!·.isEmpty))) = shapes a ++ shapes b := by
  by_cases hae : a = "" <;> by_cases hbe : b = ""
  · subst hae hbe
    rw [shapes_empty]
    exact shapes_empty
  · subst hae
    simp [hbe, shapes_empty]
  · subst hbe
    simp [hae, shapes_empty]
  · have hjoin : "\n".intercalate [a, b] = a ++ ("\n" ++ b) := by
      simp [String.intercalate_cons_cons, String.append_assoc]
    simpa [hae, hbe, hjoin] using ha.shapes_line b

end Code

end DeviceForge
