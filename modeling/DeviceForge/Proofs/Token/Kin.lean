import DeviceForge.Proofs.Text.Runs
import DeviceForge.Proofs.Token.Between
import DeviceForge.Proofs.Segment.Closing
/-!
# Tokens with other spaces

What a layout may do to a single token: the spaces inside a literal or a comment may change, and nothing else
(`Kin`).
-/

namespace DeviceForge

open List Lexeme Text String

namespace Token

variable {ts as bs : List Token} {t u : Token} {rest cs rest' w : List Char} {c d quote : Char}
  {f : List Char → List Char}

/-! ## Tokens -/

lemma Legible.reads {tail : List Char} (h : Legible ts tail) : ∀ t ∈ ts, ∃ rest, Reads t rest := by
  induction ts with
  | nil => simp
  | cons t ts ih => exact forall_mem_cons.2 ⟨⟨_, h.2.1⟩, ih h.2.2⟩

lemma Legible.blank {tail : List Char} (h : Legible ts tail) : ∀ t ∈ ts, Blank t.lead.toList := by
  induction ts with
  | nil => simp
  | cons t ts ih => exact forall_mem_cons.2 ⟨h.1, ih h.2.2⟩

lemma Legible.tail {tail : List Char} (h : Legible ts tail) : Blank tail := by
  induction ts with
  | nil => exact h
  | cons t ts ih => exact ih h.2.2

/-- No character of the token breaks a line. -/
def OnOneLine (t : Token) : Prop :=
  ∀ c ∈ t.text.toList, isLineBreak c = false

/-- The literal or comment is closed, a comment up to the end of its line does not go on behind it, and code has no
spaces in it. -/
structure Solid (t : Token) : Prop where
  closed : t.isClosed = true
  oneLine : t.isLineComment = true → t.OnOneLine
  spaceless : t.kind.segment = .code → ∀ c ∈ t.text.toList, Text.isSpace c = false

structure Kin (t u : Token) : Prop where
  kind : u.kind = t.kind
  alike : t.isLineComment = false → Text.Alike t.text.toList u.text.toList
  line : t.isLineComment = true → u.isLineComment = true ∧ u.OnOneLine
  same : t.kind ≠ .comment → t.OnOneLine → u.text = t.text
  reuses : Reuses t.text.toList u.text.toList

def withLead (t : Token) (lead : List Char) : Token :=
  ⟨t.kind, ofList lead, t.text⟩

@[simp] lemma kind_withLead (t : Token) (lead : List Char) : (t.withLead lead).kind = t.kind := rfl

@[simp] lemma text_withLead (t : Token) (lead : List Char) : (t.withLead lead).text = t.text := rfl

@[simp] lemma lead_withLead (t : Token) (lead : List Char) : (t.withLead lead).lead.toList = lead :=
  toList_ofList

lemma Solid.kin_refl (h : t.Solid) : Kin t t :=
  ⟨rfl, fun _ => Alike.refl _, fun hline => ⟨hline, h.oneLine hline⟩, fun _ _ => rfl, Reuses.refl _⟩

lemma Solid.kin_withLead (h : t.Solid) (lead : List Char) : Kin t (t.withLead lead) :=
  ⟨rfl, fun _ => Alike.refl _, fun hline => ⟨hline, h.oneLine hline⟩, fun _ _ => rfl, Reuses.refl _⟩

lemma Solid.withLead (h : t.Solid) (lead : List Char) : (t.withLead lead).Solid :=
  ⟨h.closed, h.oneLine, h.spaceless⟩

lemma Solid.of_bare (h : t.Solid) (hbare : t.bare = u.bare) : u.Solid := by
  obtain ⟨kind, lead, text⟩ := t
  obtain ⟨kind', lead', text'⟩ := u
  obtain ⟨rfl, rfl⟩ := Prod.mk.inj hbare
  exact ⟨h.closed, h.oneLine, h.spaceless⟩

lemma Legible.withLead {tail lead : List Char} (h : Legible (t :: ts) tail) (hlead : Blank lead) :
    Legible (t.withLead lead :: ts) tail :=
  ⟨by rwa [lead_withLead], h.2.1, h.2.2⟩

lemma comment_of_isLineComment (h : t.isLineComment) : t.kind = .comment := by
  simp only [isLineComment, Bool.and_eq_true, decide_eq_true_eq] at h
  exact h.1

lemma lineComment_text (h : t.isLineComment) : ∃ cs, t.text.toList = '/' :: '/' :: cs := by
  simp only [isLineComment, Bool.and_eq_true, decide_eq_true_eq] at h
  rcases htext : t.text.toList with _ | ⟨c, _ | ⟨d, cs⟩⟩
  · simp [htext] at h
  · simp [htext] at h
  · simp only [htext, take_succ_cons, take_zero, cons.injEq, and_true] at h
    exact ⟨cs, by rw [h.2.1, h.2.2]⟩

lemma not_isLineComment_of_code (h : t.kind.segment = .code) : t.isLineComment = false := by
  refine not_isLineComment fun hkind => ?_
  rw [hkind] at h
  cases h

lemma Solid.kin_trim (h : t.Solid) {p : Char → Bool} (hp : p '/' = false)
    (hsame : t.isLineComment = false → dropWhileEnd p t.text.toList = t.text.toList) (lead : List Char) :
    Kin t ⟨t.kind, ofList lead, ofList (dropWhileEnd p t.text.toList)⟩ := by
  have hpre := dropWhileEnd_prefix p t.text.toList
  refine ⟨rfl, fun hline => ?_, fun hline => ?_, fun hkind _ => ?_, fun c hc => .inl (hpre.subset (by simpa using hc))⟩
  · rw [hsame hline, ofList_toList]
    exact Alike.refl _
  · obtain ⟨cs, hcs⟩ := lineComment_text hline
    refine ⟨?_, fun c hc => h.oneLine hline c (hpre.subset (by simpa using hc))⟩
    simp [isLineComment, comment_of_isLineComment hline, hcs, dropWhileEnd_cons hp]
  · rw [hsame (not_isLineComment hkind), ofList_toList]

lemma Kin.text_eq (h : Kin t u) (hs : t.Solid) (hcode : t.kind.segment = .code) : u.text = t.text :=
  toList_injective ((h.alike (not_isLineComment_of_code hcode)).eq (hs.spaceless hcode))

lemma head_of_reads (h : Reads t rest) (hs : t.Solid) : ∃ c cs, t.text.toList = c :: cs ∧ isSpace c = false := by
  rcases reads_cases h with hcode | ⟨quote, cs, hq, htext, -⟩ | ⟨cs, -, htext, -⟩ | ⟨cs, -, htext, -⟩
  · obtain ⟨c, cs, htext, -, -⟩ := h
    exact ⟨c, cs, htext, hs.spaceless hcode c (by rw [htext]; exact mem_cons_self)⟩
  · refine ⟨quote, cs, htext, ?_⟩
    rcases hq with ⟨-, rfl⟩ | ⟨-, rfl⟩ <;> decide
  · exact ⟨_, _, htext, by decide⟩
  · exact ⟨_, _, htext, by decide⟩

lemma last_of_reads (h : Reads t rest) (hs : t.Solid) (hline : t.isLineComment = false) :
    ∃ cs d, t.text.toList = cs ++ [d] ∧ isSpace d = false := by
  obtain ⟨c, cs, htext, -, -⟩ := id h
  rcases eq_nil_or_concat t.text.toList with hnil | ⟨ds, d, hds⟩
  · simp [hnil] at htext
  rw [concat_eq_append] at hds
  have hlast : t.text.toList.getLast? = some d := by rw [hds, getLast?_concat]
  refine ⟨ds, d, hds, ?_⟩
  rcases getLast?_of_isClosed h hs.closed hlast hline with ⟨hcode, -⟩ | rfl | rfl | rfl
  · exact hs.spaceless hcode d (mem_of_getLast? hlast)
  all_goals decide

lemma Kin.head (h : Kin t u) (htext : t.text.toList = c :: cs) (hc : isSpace c = false) :
    ∃ ds, u.text.toList = c :: ds := by
  by_cases hline : t.isLineComment
  · obtain ⟨ts, ht⟩ := lineComment_text hline
    obtain ⟨us, hu⟩ := lineComment_text (h.line hline).1
    obtain ⟨rfl, -⟩ := cons.inj (htext.symm.trans ht)
    exact ⟨_, hu⟩
  · have halike := h.alike (by simpa using hline)
    rw [htext] at halike
    obtain ⟨ds, hds, -⟩ := (Alike.cons_iff hc).1 halike
    exact ⟨ds, hds⟩

lemma text_of_bracket (h : Reads t rest) (hcode : t.kind.segment = .code) (hd : isBracket d)
    (hmem : d ∈ t.text.toList) : t.text = d.toString := by
  obtain ⟨c, cs, htext, -, hext⟩ := h
  rcases extent_cases hext with ⟨hne, -⟩ | ⟨-, -, hinner⟩
  · exact absurd hcode hne
  · rw [take_left] at hinner
    rw [htext, mem_cons] at hmem
    rcases hmem with rfl | hmem
    · exact ((Segment.bracket_iff hext (by rw [take_left, htext]) hd).2 rfl).2
    · exact absurd rfl (Segment.ne_bracket_of_inner hd (hinner d hmem))

lemma kind_of_bracket (h : Reads t rest) (hd : isBracket d) (htext : t.text = d.toString) : t.kind = .punct := by
  obtain ⟨c, cs, hcs, -, hext⟩ := h
  rw [htext, Char.toString, toList_singleton] at hcs
  obtain ⟨rfl, rfl⟩ := cons.inj hcs
  rw [extent_bracket hd] at hext
  exact (Prod.mk.inj hext).1.symm

lemma Kin.isQuoted (h : Kin t u) (hq : IsQuoted t quote) : IsQuoted u quote := by
  rw [IsQuoted, h.kind]
  exact hq

lemma IsQuoted.not_space (h : IsQuoted t quote) : isSpace quote = false := by
  rcases h with ⟨-, rfl⟩ | ⟨-, rfl⟩ <;> decide

lemma IsQuoted.not_lineComment (h : IsQuoted t quote) : t.isLineComment = false := by
  refine not_isLineComment ?_
  rcases h with ⟨hk, -⟩ | ⟨hk, -⟩ <;> rw [hk] <;> decide

lemma blockComment_text (hreads : Reads t rest) (hkind : t.kind = .comment)
    (hline : t.isLineComment = false) : ∃ cs, t.text.toList = '/' :: '*' :: cs := by
  rcases reads_cases hreads with hcode | ⟨quote, cs, hq, -⟩ | ⟨cs, -, htext, -⟩ | ⟨cs, -, htext, -⟩
  · rw [hkind] at hcode
    cases hcode
  · rcases hq with ⟨hk, -⟩ | ⟨hk, -⟩ <;> rw [hk] at hkind <;> cases hkind
  · rw [(isLineComment_iff hkind htext).2 ⟨rfl, rfl⟩] at hline
    cases hline
  · exact ⟨cs, htext⟩

lemma Kin.blockComment (h : Kin t u) (hreads : Reads t rest) (hkind : t.kind = .comment)
    (hline : t.isLineComment = false) :
    ∃ cs ds, t.text.toList = '/' :: '*' :: cs ∧ u.text.toList = '/' :: '*' :: ds ∧ Text.Alike cs ds := by
  obtain ⟨cs, htext⟩ := blockComment_text hreads hkind hline
  have halike := h.alike hline
  rw [htext, Alike.cons_iff (by decide)] at halike
  obtain ⟨ds, hds, halike⟩ := halike
  rw [Alike.cons_iff (by decide)] at halike
  obtain ⟨es, rfl, halike⟩ := halike
  exact ⟨cs, es, htext, hds, halike⟩

lemma Kin.isLineComment_eq (h : Kin t u) (hreads : Reads t rest) : u.isLineComment = t.isLineComment := by
  by_cases hline : t.isLineComment
  · rw [hline, (h.line hline).1]
  by_cases hkind : t.kind = .comment
  · obtain ⟨cs, ds, htext, hds, -⟩ := h.blockComment hreads hkind (by simpa using hline)
    simp [isLineComment, hds, htext]
  · rw [not_isLineComment hkind, not_isLineComment (by rwa [h.kind])]

lemma Kin.solid (h : Kin t u) (hs : t.Solid) (hreads : Reads t rest) : u.Solid := by
  have hlines := h.isLineComment_eq hreads
  refine ⟨?_, fun hline => (h.line (hlines ▸ hline)).2, fun hcode => ?_⟩
  · by_cases hline : t.isLineComment
    · have hkind := comment_of_isLineComment hline
      simp [isClosed, h.kind, hkind, hlines, hline]
    rw [Bool.not_eq_true] at hline
    have hclosed := hs.closed
    rcases reads_cases hreads with hcode | ⟨quote, cs, hq, htext, -⟩ | ⟨cs, hkind, htext, -⟩ | ⟨cs, hkind, -⟩
    · cases hk : t.kind <;> simp_all [isClosed, Kind.segment, h.kind]
    · have halike := h.alike hline
      rw [htext, Alike.cons_iff hq.not_space] at halike
      obtain ⟨ds, hds, halike⟩ := halike
      rw [hq.isClosed_iff, htext, tail_cons, (halike.endsQuoted_both hq.not_space).1] at hclosed
      rw [(h.isQuoted hq).isClosed_iff, hds, tail_cons, hclosed]
    · simp [(isLineComment_iff hkind htext).2 ⟨rfl, rfl⟩] at hline
    · obtain ⟨cs, ds, htext, hds, halike⟩ := h.blockComment hreads hkind hline
      have hblock : endsBlock cs := by simpa [isClosed, hkind, hline, htext] using hclosed
      rw [halike.endsBlock_both.1] at hblock
      simp [isClosed, h.kind, hkind, hds, hblock]
  · rw [h.kind] at hcode
    rw [h.text_eq hs hcode]
    exact hs.spaceless hcode

lemma Kin.reads (h : Kin t u) (hs : t.Solid) (hreads : Reads t rest) (hcode : t.kind.segment = .code → Reads t rest')
    (hline : t.isLineComment → BreaksOff rest') : Reads u rest' := by
  have hu := h.solid hs hreads
  rcases reads_cases hreads with hc | ⟨quote, cs, hq, htext, -⟩ | ⟨cs, hkind, htext, -⟩ | ⟨cs, hkind, htext, -⟩
  · obtain ⟨c, cs, htext, hblank, hext⟩ := hcode hc
    exact ⟨c, cs, by rw [h.text_eq hs hc, htext], hblank, by rw [h.kind, hext]⟩
  · obtain ⟨ds, hds⟩ := h.head htext hq.not_space
    have hclosed := hu.closed
    rw [(h.isQuoted hq).isClosed_iff, hds] at hclosed
    exact (h.isQuoted hq).reads hds (quoted_append hq.ne_backslash rest' ds hclosed)
  · have hcomment := (isLineComment_iff hkind htext).2 ⟨rfl, rfl⟩
    obtain ⟨ds, hds⟩ := lineComment_text (h.line hcomment).1
    refine reads_lineComment (h.kind.trans hkind) hds (fun c hc => (h.line hcomment).2 c ?_) (hline hcomment)
    rw [hds]
    exact mem_cons_of_mem _ (mem_cons_of_mem _ hc)
  · have hcomment : t.isLineComment = false := by simp [isLineComment, htext]
    obtain ⟨cs, ds, -, hds, -⟩ := h.blockComment hreads hkind hcomment
    have hclosed := hu.closed
    rw [isClosed, h.kind, hkind] at hclosed
    have hblock : endsBlock ds := by simpa [h.isLineComment_eq hreads, hcomment, hds] using hclosed
    exact reads_block (h.kind.trans hkind) hds (block_append hblock rest')

def Ended (s : Option Token) (rest : List Char) : Prop :=
  ∀ p ∈ s, p.isLineComment = true → BreaksOff rest

lemma ended_none (rest : List Char) : Ended none rest := by
  intro p hp
  cases hp

lemma ended_of_reads (h : Reads t rest) : Ended (some t) rest := by
  rintro p hp hline
  obtain rfl : t = p := by simpa using hp
  obtain ⟨-, -, -, -, hbreaks⟩ := reads_line h hline
  exact hbreaks

lemma code_of_text (hreads : Reads t rest) (htext : t.text.toList = c :: cs)
    (hc : c ≠ '"' ∧ c ≠ '\'' ∧ c ≠ '/') : t.kind.segment = .code := by
  rcases reads_cases hreads with hcode | ⟨quote, ds, hq, hds, -⟩ | ⟨ds, -, hds, -⟩ | ⟨ds, -, hds, -⟩
  · exact hcode
  · obtain ⟨rfl, -⟩ := cons.inj (htext.symm.trans hds)
    rcases hq with ⟨-, rfl⟩ | ⟨-, rfl⟩
    · exact absurd rfl hc.1
    · exact absurd rfl hc.2.1
  all_goals exact absurd (cons.inj (htext.symm.trans hds)).1 hc.2.2

lemma Kin.text_eq_iff (h : Kin t u) (hs : t.Solid) (hreads : Reads t rest) {word : String}
    (hword : word.toList = c :: cs) (hc : c ≠ '"' ∧ c ≠ '\'' ∧ c ≠ '/') : u.text = word ↔ t.text = word := by
  constructor
  · intro hu
    obtain ⟨d, ds, htext, hd⟩ := head_of_reads hreads hs
    obtain ⟨es, hes⟩ := h.head htext hd
    rw [hu, hword] at hes
    obtain ⟨rfl, -⟩ := cons.inj hes
    rw [← h.text_eq hs (code_of_text hreads htext hc), hu]
  · intro ht
    rw [h.text_eq hs (code_of_text hreads (by rw [ht, hword]) hc), ht]

lemma Legible.drop {tail : List Char} (h : Legible (as ++ bs) tail) : Legible bs tail := by
  induction as with
  | nil => exact h
  | cons a as ih => exact ih h.2.2

lemma follows_take (cs rest : List Char) (hw : Blank w) : Follows (cs ++ rest) (cs ++ w) := by
  match cs with
  | [] =>
    refine .inl ?_
    cases w with
    | nil => exact apart_nil
    | cons b w => exact apart_cons (hw b mem_cons_self) w
  | [c] =>
    refine .inr ⟨rfl, fun h => ?_⟩
    cases w with
    | nil => cases h
    | cons b w =>
      obtain ⟨-, rfl⟩ : c = '.' ∧ b = '.' := by simpa using h
      exact absurd (hw '.' mem_cons_self) (by decide)
  | c :: d :: cs => exact .inr ⟨rfl, fun h => h⟩

lemma Legible.take {tail : List Char} (h : Legible (as ++ bs) tail) (hs : ∀ t ∈ as, t.Solid)
    (hw : Blank w) (hbreak : BreaksOff (chars bs ++ tail) → BreaksOff w) : Legible as w := by
  induction as with
  | nil => exact hw
  | cons a as ih =>
    obtain ⟨hlead, hreads, hlegible⟩ := h
    obtain ⟨hsa, hsas⟩ := forall_mem_cons.1 hs
    refine ⟨hlead, ?_, ih hlegible hsas⟩
    change Reads a (chars (as ++ bs) ++ tail) at hreads
    rw [chars_append, List.append_assoc] at hreads
    by_cases hcode : a.kind.segment = .code
    · exact reads_of_follows hreads hcode (follows_take _ _ hw)
    by_cases hline : a.isLineComment
    · have hends : BreaksOff (chars as ++ (chars bs ++ tail)) := (ended_of_reads hreads) a rfl hline
      have hends' : BreaksOff (chars as ++ w) := by
        cases hcs : chars as with
        | nil =>
          rw [hcs] at hends
          exact hbreak hends
        | cons c cs =>
          rw [hcs] at hends
          exact hends
      exact hsa.kin_refl.reads hsa hreads (fun h => absurd h hcode) fun _ => hends'
    · exact reads_of_isClosed hreads hsa.closed hcode (by simpa using hline) _

def respaced (f : List Char → List Char) (t : Token) : Token :=
  ⟨t.kind, ofList (f t.lead.toList), ofList (respace f [] t.text.toList)⟩

lemma lead_respaced (f : List Char → List Char) (t : Token) : (respaced f t).lead.toList = f t.lead.toList :=
  toList_ofList

lemma OnOneLine.not_mem (h : t.OnOneLine) : '\n' ∉ t.text.toList :=
  fun hmem => absurd (h _ hmem) (by decide)

lemma Solid.kin_respaced (h : t.Solid) (hf : RunChange f) : Kin t (respaced f t) := by
  have hsame (hone : t.OnOneLine) : (respaced f t).text = t.text := by
    rw [respaced, hf.respace_oneLine (by simp) hone.not_mem, nil_append, ofList_toList]
  refine ⟨rfl, fun _ => ?_, fun hline => ?_, fun _ => hsame, ?_⟩
  · rw [respaced, toList_ofList]
    exact hf.alike spaces_nil _
  · have htext := hsame (h.oneLine hline)
    rw [OnOneLine, htext]
    exact ⟨by rwa [isLineComment, htext], h.oneLine hline⟩
  · rw [respaced, toList_ofList]
    exact hf.reuses_respace [] _

lemma Blank.spaces (h : Blank cs) : Spaces cs :=
  fun c hc => isSpace_of_isBlank (h c hc)

lemma respace_token (hf : RunChange f) (hlead : Blank t.lead.toList) (hreads : Reads t rest)
    (hs : t.Solid) (hline : t.isLineComment = false) (more : List Char) :
    respace f [] (t.lead.toList ++ (t.text.toList ++ more)) =
      (respaced f t).lead.toList ++ ((respaced f t).text.toList ++ respace f [] more) := by
  obtain ⟨c, cs, htext, hc⟩ := head_of_reads hreads hs
  obtain ⟨ds, d, hds, hd⟩ := last_of_reads hreads hs hline
  have happend : respace f [] (t.text.toList ++ more) = respace f [] t.text.toList ++ respace f [] more := by
    rw [hds, List.append_assoc, singleton_append, hf.respace_append hd]
  rw [htext] at happend
  rw [htext, cons_append, hf.respace_lead hlead.spaces hc, ← cons_append, happend, ← htext, lead_respaced, respaced,
    toList_ofList]

end Token

end DeviceForge
