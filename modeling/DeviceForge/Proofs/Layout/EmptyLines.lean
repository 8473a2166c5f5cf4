import DeviceForge.Layout
import DeviceForge.Proofs.Token.Kin
/-!
# Streams of tokens

Every pass of the layout takes a text apart into tokens, changes the blanks between them and the spaces inside literals
and comments, and spells the result.
-/

namespace DeviceForge

open Token List Lexeme

lemma oneLine_of_reads {t : Token} {rest : List Char} (hreads : Reads t rest) (hline : t.isLineComment) : t.OnOneLine := by
  obtain ⟨cs, -, htext, hbreak, -⟩ := reads_line hreads hline
  intro c hc
  rw [htext, mem_cons, mem_cons] at hc
  rcases hc with rfl | rfl | hc
  · decide
  · decide
  · exact hbreak c hc

structure Stream where
  tokens : List Token
  tail : List Char

namespace Stream

def chars (x : Stream) : List Char :=
  Token.chars x.tokens ++ x.tail

def ofChars (cs : List Char) : Stream :=
  ⟨(Token.scan cs).1, (Token.scan cs).2.toList⟩

def prepend (ts : List Token) (x : Stream) : Stream :=
  ⟨ts ++ x.tokens, x.tail⟩

structure Neat (x : Stream) : Prop where
  legible : Token.Legible x.tokens x.tail
  solid : ∀ t ∈ x.tokens, t.Solid

lemma chars_prepend (ts : List Token) (x : Stream) : (x.prepend ts).chars = Token.chars ts ++ x.chars := by
  rw [prepend, chars, chars_append, append_assoc, chars]

lemma chars_ofChars (cs : List Char) : (ofChars cs).chars = cs :=
  (chars_scan (Prod.eta (scan cs)).symm).symm

lemma Neat.scan {x : Stream} (h : x.Neat) : scan x.chars = (x.tokens, String.ofList x.tail) :=
  scan_of_legible h.legible

lemma Neat.ofChars_chars {x : Stream} (h : x.Neat) : ofChars x.chars = x := by
  rw [ofChars, h.scan, String.toList_ofList]

lemma neat_ofChars {cs : List Char} (hclosed : ∀ t ∈ (scan cs).1, t.isClosed)
    (hspace : ∀ t ∈ (scan cs).1, t.kind.segment = .code → ∀ c ∈ t.text.toList, Text.isSpace c = false) :
    (ofChars cs).Neat := by
  have hlegible := legible_of_scan (Prod.eta (scan cs)).symm
  refine ⟨hlegible, fun t ht => ⟨hclosed t ht, ?_, hspace t ht⟩⟩
  obtain ⟨rest, hreads⟩ := hlegible.reads t ht
  exact oneLine_of_reads hreads

end Stream

/-! ## Changing the blanks -/

namespace Token

variable {t u s : Token} {rest cs ds tail tail' : List Char} {p : Option Token} {ts us : List Token}

def IsSign (t : Token) : Prop :=
  t.kind = .punct ∧ (t.text = "-" ∨ t.text = "+" ∨ t.text = "*")

def Parts (t u : Token) : Prop :=
  IsSign t ∧ operator (t.text.toList ++ u.text.toList) = 1

lemma Parts.withLead (h : Parts t u) (lead : List Char) : Parts t (u.withLead lead) := by
  rw [Parts, text_withLead]
  exact h

lemma Parts.reads (h : Parts t u) (hne : u.text.toList ≠ []) (more : List Char) :
    Reads t (u.text.toList ++ more) := by
  obtain ⟨⟨hkind, hsign⟩, hone⟩ := h
  obtain ⟨d, ds, hds⟩ := exists_cons_of_ne_nil hne
  rw [hds] at hone ⊢
  rw [operator_eq_one_iff] at hone
  have hread {c : Char} (hc : c = '-' ∨ c = '+' ∨ c = '*') (htext : t.text.toList = [c]) : Reads t (d :: ds ++ more) := by
    rw [htext] at hone
    have hlong : (c :: (d :: ds ++ more)).take 3 ∉ longOperators := by
      simp only [longOperators, take_succ_cons, mem_cons, cons.injEq, not_mem_nil, or_false]
      rcases hc with rfl | rfl | rfl <;> simp
    have hoperator : operator (c :: (d :: ds ++ more)) = 1 :=
      (operator_eq_one_iff _).2 ⟨hlong, hone.2⟩
    refine ⟨c, [], htext, ?_, ?_⟩
    · rcases hc with rfl | rfl | rfl <;> decide
    · rw [nil_append, extent, hoperator, hkind]
      rcases hc with rfl | rfl | rfl <;> simp
  rcases hsign with h | h | h
  · exact hread (.inl rfl) (by rw [h]; rfl)
  · exact hread (.inr (.inl rfl)) (by rw [h]; rfl)
  · exact hread (.inr (.inr rfl)) (by rw [h]; rfl)

structure Gap (s t u : Token) : Prop where
  apart : s.kind.segment = .code → u.lead.toList = [] → t.lead.toList = [] ∨ Parts s u
  breaks : s.isLineComment = true → u.lead.toList ≠ [] ∧ BreaksOff u.lead.toList

inductive Relaid (tail tail' : List Char) : Option Token → List Token → List Token → Prop
  | nil {s : Option Token} (htail : Text.Reuses tail tail')
      (hline : ∀ p ∈ s, p.isLineComment = true → BreaksOff tail') : Relaid tail tail' s [] []
  | cons {s : Option Token} {t u : Token} {ts us : List Token} (hkin : Kin t u)
      (hlead : Text.Reuses t.lead.toList u.lead.toList) (hgap : ∀ p ∈ s, Gap p t u)
      (h : Relaid tail tail' (some t) ts us) : Relaid tail tail' s (t :: ts) (u :: us)

inductive Along (R : Option Token → Token → Token → Prop) (E : Option Token → Prop) :
    Option Token → List Token → List Token → Prop
  | nil {s : Option Token} (h : E s) : Along R E s [] []
  | cons {s : Option Token} {t u : Token} {ts us : List Token} (h : R s t u) (rest : Along R E (some t) ts us) :
      Along R E s (t :: ts) (u :: us)

lemma Ended.lead {s : Option Token} (h : Ended s (chars (t :: ts) ++ tail))
    (hlegible : Legible (t :: ts) tail) : ∀ p ∈ s, p.isLineComment → t.lead.toList ≠ [] ∧ BreaksOff t.lead.toList := by
  intro p hp hline
  have hbreak := h p hp hline
  obtain ⟨c, cs, htext, hblank, -⟩ := hlegible.2.1
  rw [chars_cons, htext, append_assoc, append_assoc] at hbreak
  cases hlead : t.lead.toList with
  | nil =>
    rw [hlead] at hbreak
    have hc := hbreak c rfl
    simp only [isLineBreak, Bool.or_eq_true, decide_eq_true_eq] at hc
    rcases hc with rfl | rfl <;> cases hblank
  | cons d lead =>
    rw [hlead] at hbreak
    exact ⟨cons_ne_nil _ _, hbreak⟩

lemma mem_lead_of_breaksOff {lead : List Char} (h : lead ≠ [] ∧ BreaksOff lead) (hreturn : '\r' ∉ lead) : '\n' ∈ lead := by
  obtain ⟨c, lead, rfl⟩ := exists_cons_of_ne_nil h.1
  have hc := h.2 c rfl
  simp only [isLineBreak, Bool.or_eq_true, decide_eq_true_eq] at hc
  rcases hc with rfl | rfl
  · exact mem_cons_self
  · exact absurd mem_cons_self hreturn

lemma Gap.of_lead (hapart : u.lead.toList = [] → t.lead.toList = [])
    (hline : s.isLineComment → t.lead.toList ≠ [] ∧ BreaksOff t.lead.toList)
    (hbreak : BreaksOff t.lead.toList → BreaksOff u.lead.toList) : Gap s t u :=
  ⟨fun _ h => .inl (hapart h), fun h => ⟨fun hnil => (hline h).1 (hapart hnil), hbreak (hline h).2⟩⟩

lemma Blank.reuses (h : Blank cs) (hr : Text.Reuses cs ds) : Blank ds :=
  hr.forall rfl rfl h

lemma apart_of_blank {lead : List Char} (h : Blank lead) (hne : lead ≠ [] ∨ rest = []) :
    Lexeme.Apart (lead ++ rest) := by
  cases lead with
  | nil =>
    rw [hne.resolve_left fun h => h rfl]
    exact apart_nil
  | cons c lead => exact apart_cons (h c mem_cons_self) _

variable (h : Relaid tail tail' p ts us)

include h

lemma Relaid.behind (hlegible : Legible ts tail)
    (hsolid : ∀ t ∈ ts, t.Solid) : ∀ s ∈ p, (s.kind.segment = .code → Follows (chars ts ++ tail) (chars us ++ tail') ∨
        IsSign s ∧ Reads s (chars us ++ tail')) ∧ (s.isLineComment → BreaksOff (chars us ++ tail')) := by
  induction h with
  | nil htail hline =>
    intro s hs
    refine ⟨fun _ => .inl (.inl ?_), hline s hs⟩
    have := apart_of_blank (hlegible.reuses htail) (.inr rfl)
    rwa [append_nil] at this
  | cons hkin hreuses hgap h ih =>
    rename_i p t u ts us
    intro s hs
    obtain ⟨hlead, hreads, hlegible⟩ := hlegible
    obtain ⟨hst, hsts⟩ := forall_mem_cons.1 hsolid
    obtain ⟨c, cs, htext, hc⟩ := head_of_reads hreads hst
    obtain ⟨ds, hds⟩ := hkin.head htext hc
    rw [chars_cons, chars_cons]
    by_cases hlead' : u.lead.toList = []
    · refine ⟨fun hcode => ?_, fun hline => absurd hlead' ((hgap s hs).breaks hline).1⟩
      rcases (hgap s hs).apart hcode hlead' with hlead | hparts
      · refine .inl (.inr ?_)
        rw [hlead', hlead, nil_append, nil_append, htext, hds]
        refine ⟨rfl, fun hdots => ?_⟩
        obtain ⟨rfl, hnext⟩ : c = '.' ∧ (ds ++ (chars us ++ tail')).head? = some '.' := by
          rw [append_assoc, cons_append, take_succ_cons, cons.injEq] at hdots
          refine ⟨hdots.1, ?_⟩
          cases hrest : ds ++ (chars us ++ tail') with
          | nil => simp [hrest] at hdots
          | cons d more => simpa [hrest] using hdots.2
        have hcode' := code_of_text hreads htext (by decide)
        obtain rfl : ds = cs := by
          have := hkin.text_eq hst hcode'
          rw [← String.toList_inj, hds, htext] at this
          exact (cons.inj this).2
        have hnext' : (ds ++ (chars ts ++ tail)).head? = some '.' := by
          cases ds with
          | cons d ds => exact hnext
          | nil =>
            -- the second point belongs to another token, and was there before
            rcases (ih hlegible hsts t rfl).1 hcode' with hfollows | ⟨hsign, -⟩
            · exact hfollows.head hnext (by decide)
            · rcases hsign.2 with h | h | h <;> rw [h] at htext <;> cases htext
        obtain ⟨more, hmore⟩ := head?_eq_some_iff.1 hnext'
        rw [append_assoc, cons_append, hmore]
        rfl
      · refine .inr ⟨hparts.1, ?_⟩
        rw [hlead', nil_append, append_assoc]
        exact hparts.reads (by rw [hds]; exact cons_ne_nil _ _) _
    · refine ⟨fun _ => .inl (.inl ?_), fun hline => ?_⟩
      · rw [append_assoc, append_assoc]
        exact apart_of_blank (Blank.reuses hlead hreuses) (.inl hlead')
      · rw [append_assoc, append_assoc, BreaksOff, head?_append_of_ne_nil _ hlead']
        exact ((hgap s hs).breaks hline).2

lemma Relaid.legible (hlegible : Legible ts tail)
    (hsolid : ∀ t ∈ ts, t.Solid) : Legible us tail' ∧ ∀ u ∈ us, u.Solid := by
  induction h with
  | nil htail => exact ⟨hlegible.reuses htail, by simp⟩
  | cons hkin hreuses hgap h ih =>
    obtain ⟨hblank, hreads, hlegible⟩ := hlegible
    obtain ⟨hst, hsts⟩ := forall_mem_cons.1 hsolid
    obtain ⟨hlegible', hsolid'⟩ := ih hlegible hsts
    obtain ⟨hcode, hline⟩ := h.behind hlegible hsts _ rfl
    refine ⟨⟨hblank.reuses hreuses, hkin.reads hst hreads (fun hc => ?_) hline, hlegible'⟩,
      forall_mem_cons.2 ⟨hkin.solid hst hreads, hsolid'⟩⟩
    rcases hcode hc with hfollows | ⟨-, hsign⟩
    · exact reads_of_follows hreads hc hfollows
    · exact hsign

lemma Relaid.reuses : Text.Reuses (chars ts ++ tail) (chars us ++ tail') := by
  induction h with
  | nil htail => exact htail
  | cons hkin hlead hgap h ih =>
    rw [chars_cons, chars_cons, append_assoc _ (chars _) tail, append_assoc _ (chars _) tail']
    exact (hlead.append hkin.reuses).append ih

lemma Relaid.map_eq {α : Type} (hlegible : Legible ts tail)
    (hsolid : ∀ t ∈ ts, t.Solid) {f : Token → α}
    (hf : ∀ t u rest, Kin t u → t.Solid → Reads t rest → f u = f t) : us.map f = ts.map f := by
  induction h with
  | nil => rfl
  | cons hkin hlead hgap h ih =>
    obtain ⟨-, hreads, hlegible⟩ := hlegible
    obtain ⟨hst, hsts⟩ := forall_mem_cons.1 hsolid
    rw [map_cons, map_cons, hf _ _ _ hkin hst hreads, ih hlegible hsts]

lemma Relaid.bare_eq (hone : ∀ t ∈ ts, t.kind ≠ .comment → t.OnOneLine) :
    (us.map bare).filter (·.1 ≠ .comment) = (ts.map bare).filter (·.1 ≠ .comment) ∧
      ∀ u ∈ us, u.kind ≠ .comment → u.OnOneLine := by
  induction h with
  | nil => exact ⟨rfl, by simp⟩
  | cons hkin hlead hgap h ih =>
    rename_i t u ts us
    obtain ⟨hbare, hones⟩ := ih fun t ht => hone t (mem_cons_of_mem _ ht)
    by_cases hkind : t.kind = .comment
    · rw [map_cons, filter_cons_of_neg (by simp [bare, hkin.kind, hkind]), map_cons,
        filter_cons_of_neg (by simp [bare, hkind])]
      exact ⟨hbare, forall_mem_cons.2 ⟨fun h => absurd (hkin.kind.trans hkind) h, hones⟩⟩
    · have hline := hone t mem_cons_self hkind
      have htext := hkin.same hkind hline
      rw [map_cons, filter_cons_of_pos (by simp [bare, hkin.kind, hkind]), map_cons,
        filter_cons_of_pos (by simp [bare, hkind]), hbare, bare, bare, hkin.kind, htext]
      exact ⟨rfl, forall_mem_cons.2 ⟨fun _ => by rwa [OnOneLine, htext], hones⟩⟩

end Token

namespace Stream

def Relaid (x y : Stream) : Prop :=
  Token.Relaid x.tail y.tail none x.tokens y.tokens

lemma Neat.relaid {x y : Stream} (h : x.Neat) (hr : Relaid x y) : y.Neat :=
  ⟨(Token.Relaid.legible hr h.legible h.solid).1, (Token.Relaid.legible hr h.legible h.solid).2⟩

end Stream

end DeviceForge

/-!
# Empty lines among tokens

`collapseEmptyLines` works on lines.
-/

namespace DeviceForge.Layout

open Text List String Token

variable {line rest w cs pending tail : List Char} {c d : Char} {lines : List (List Char)} {t : Token}
  {ts : List Token} {x : Stream}

def firstLine (w : List Char) : List Char :=
  w.takeWhile (· ≠ '\n')

def lastLine (w : List Char) : List Char :=
  (w.reverse.takeWhile (· ≠ '\n')).reverse

def squeezeRun (w : List Char) : List Char :=
  if 2 ≤ w.count '\n' then firstLine w ++ '\n' :: '\n' :: lastLine w else w

lemma firstLine_append (h : OneLine line) (rest : List Char) : firstLine (line ++ '\n' :: rest) = line := by
  rw [firstLine, takeWhile_append_cons _ (by decide)]
  refine takeWhile_eq_self_iff.2 fun c hc => ?_
  simpa using fun hfeed : c = '\n' => h (hfeed ▸ hc)

lemma lastLine_append (line rest : List Char) : lastLine (line ++ '\n' :: rest) = lastLine rest := by
  rw [lastLine, reverse_append, reverse_cons, List.append_assoc, singleton_append,
    takeWhile_append_cons _ (by decide), lastLine]

lemma lastLine_line (h : OneLine line) : lastLine line = line := by
  rw [lastLine, takeWhile_eq_self_iff.2, reverse_reverse]
  intro c hc
  simpa using fun hfeed : c = '\n' => h (hfeed ▸ mem_reverse.1 hc)

lemma oneLine_lastLine (w : List Char) : '\n' ∉ lastLine w := by
  intro h
  have := mem_takeWhile_imp (mem_reverse.1 h)
  simp at this

lemma lastLine_subset (w : List Char) : lastLine w ⊆ w := by
  intro c hc
  exact mem_reverse.1 ((List.takeWhile_prefix _).subset (mem_reverse.1 hc))

lemma squeezeRun_line (h : OneLine line) (h' : OneLine rest) :
    squeezeRun (line ++ '\n' :: rest) = line ++ '\n' :: rest := by
  refine if_neg ?_
  rw [count_append, count_cons_self, count_eq_zero.2 h, count_eq_zero.2 h']
  omega

lemma squeezeRun_more (h : OneLine line) (hfeed : '\n' ∈ rest) :
    squeezeRun (line ++ '\n' :: rest) = line ++ '\n' :: '\n' :: lastLine rest := by
  have hcount : 2 ≤ (line ++ '\n' :: rest).count '\n' := by
    have := count_pos_iff.2 hfeed
    rw [count_append, count_cons_self]
    omega
  rw [squeezeRun, if_pos hcount, firstLine_append h, lastLine_append]

lemma squeezeRun_oneLine (h : '\n' ∉ w) : squeezeRun w = w := by
  refine if_neg ?_
  rw [count_eq_zero.2 h]
  omega

lemma squeezeRun_cases (h : '\n' ∈ w) : ∃ line rest, w = line ++ '\n' :: rest ∧ OneLine line ∧
    (OneLine rest ∧ squeezeRun w = w ∨ '\n' ∈ rest ∧ squeezeRun w = line ++ '\n' :: '\n' :: lastLine rest) := by
  obtain ⟨line, rest, rfl, hline⟩ := exists_line h
  refine ⟨line, rest, rfl, hline, ?_⟩
  by_cases hrest : '\n' ∈ rest
  · exact .inr ⟨hrest, squeezeRun_more hline hrest⟩
  · exact .inl ⟨hrest, squeezeRun_line hline hrest⟩

lemma squeezeRun_subset (w : List Char) : squeezeRun w ⊆ w := by
  by_cases h : '\n' ∈ w
  · obtain ⟨line, rest, rfl, -, ⟨-, hw⟩ | ⟨-, hw⟩⟩ := squeezeRun_cases h
    · rw [hw]
      exact Subset.refl _
    · rw [hw]
      intro c hc
      simp only [mem_append, mem_cons] at hc ⊢
      rcases hc with hc | rfl | rfl | hc
      · exact .inl hc
      · exact .inr (.inl rfl)
      · exact .inr (.inl rfl)
      · exact .inr (.inr (lastLine_subset rest hc))
  · rw [squeezeRun_oneLine h]
    exact Subset.refl _

lemma runChange_squeezeRun : RunChange squeezeRun where
  nil := rfl
  spaces w hne hw := by
    refine ⟨fun hnil => ?_, fun c hc => hw c (squeezeRun_subset w hc)⟩
    by_cases h : '\n' ∈ w
    · obtain ⟨line, rest, rfl, -, ⟨-, hw⟩ | ⟨-, hw⟩⟩ := squeezeRun_cases h
      · exact hne (hw ▸ hnil)
      · rw [hw] at hnil
        simp at hnil
    · exact hne (squeezeRun_oneLine h ▸ hnil)
  oneLine w h := squeezeRun_oneLine h
  reuses w c hc := .inl (squeezeRun_subset w hc)

/-! ## Lines -/

def collapseRest (cs : List Char) : List Char :=
  match splitAtChars (· == '\n') cs with
  | [] => []
  | line :: lines => line ++ joinAfter (collapseLines false lines)

lemma collapseRest_line (h : OneLine line) : collapseRest line = line := by
  simp [collapseRest, splitAtChars_line h, collapseLines, joinAfter]

lemma collapseRest_append (h : OneLine line) (rest : List Char) :
    collapseRest (line ++ '\n' :: rest) = line ++ joinAfter (collapseLines false (splitAtChars (· == '\n') rest)) := by
  rw [collapseRest, splitAtChars_append h]

lemma collapseRest_oneLine (h : OneLine cs) (rest : List Char) :
    collapseRest (cs ++ rest) = cs ++ collapseRest rest := by
  by_cases hrest : '\n' ∈ rest
  · obtain ⟨line, rest, rfl, hline⟩ := exists_line hrest
    rw [← List.append_assoc, collapseRest_append (h.append hline), collapseRest_append hline, List.append_assoc]
  · rw [collapseRest_line (h.append hrest), collapseRest_line hrest]

lemma oneLine_char (hc : isSpace c = false) : OneLine [c] := by
  intro hmem
  obtain rfl : '\n' = c := by simpa using hmem
  cases hc

lemma collapseRest_char (hc : isSpace c = false) (cs : List Char) : collapseRest (c :: cs) = c :: collapseRest cs :=
  collapseRest_oneLine (oneLine_char hc) cs

lemma joinAfter_char (hone : OneLine w) (hc : isSpace c = false) (cs : List Char) (afterEmpty : Bool) :
    joinAfter (collapseLines afterEmpty (splitAtChars (· == '\n') (w ++ c :: cs))) = '\n' :: w ++ c :: collapseRest cs := by
  have hchar := oneLine_char hc
  have hfull (more : List Char) : (w ++ c :: more).all isSpace = false := by simp [hc]
  by_cases hrest : '\n' ∈ cs
  · obtain ⟨line, rest, rfl, hline⟩ := exists_line hrest
    have hsplit : w ++ c :: (line ++ '\n' :: rest) = (w ++ c :: line) ++ '\n' :: rest := by simp
    have hone' : OneLine (w ++ c :: line) := hone.append (hchar.append hline)
    rw [hsplit, splitAtChars_append hone', collapseLines, hfull, collapseRest_append hline]
    simp [joinAfter]
  · have hone' : OneLine (w ++ c :: cs) := hone.append (hchar.append hrest)
    rw [splitAtChars_line hone', collapseLines, hfull, collapseRest_line hrest]
    simp [joinAfter, collapseLines]

lemma joinAfter_empty (hone : OneLine w) (hw : Spaces w) (cs : List Char) (afterEmpty : Bool) :
    joinAfter (collapseLines afterEmpty (splitAtChars (· == '\n') (w ++ '\n' :: cs))) =
      (if afterEmpty then [] else ['\n']) ++ joinAfter (collapseLines true (splitAtChars (· == '\n') cs)) := by
  have hempty : w.all isSpace := all_eq_true.2 hw
  rw [splitAtChars_append hone, collapseLines, if_pos hempty]
  cases afterEmpty <;> simp [joinAfter]

lemma joinAfter_true (hw : Spaces w) (hc : isSpace c = false) (cs : List Char) :
    joinAfter (collapseLines true (splitAtChars (· == '\n') (w ++ c :: cs))) = '\n' :: lastLine w ++ c :: collapseRest cs := by
  induction w using lineInduction with
  | last line hline => rw [joinAfter_char hline hc, lastLine_line hline]
  | more line rest hline ih =>
    obtain ⟨hspaces, hrest⟩ := spaces_append.1 hw
    rw [List.append_assoc, cons_append, joinAfter_empty hline hspaces, if_pos rfl, nil_append,
      ih (spaces_cons.1 hrest).2, lastLine_append]

lemma collapseRest_run (hw : Spaces w) (hc : isSpace c = false) (cs : List Char) :
    collapseRest (w ++ c :: cs) = squeezeRun w ++ c :: collapseRest cs := by
  by_cases hfeed : '\n' ∈ w
  · obtain ⟨line, rest, rfl, hline, ⟨hrest, hsqueeze⟩ | ⟨hrest, hsqueeze⟩⟩ := squeezeRun_cases hfeed
    · rw [hsqueeze, List.append_assoc, cons_append, collapseRest_append hline, joinAfter_char hrest hc]
      simp
    · obtain ⟨line', rest, rfl, hline'⟩ := exists_line hrest
      have hspaces := (spaces_cons.1 (spaces_append.1 hw).2).2
      obtain ⟨hspaces, hspaces'⟩ := spaces_append.1 hspaces
      rw [hsqueeze, List.append_assoc, cons_append, collapseRest_append hline, List.append_assoc, cons_append,
        joinAfter_empty hline' hspaces, joinAfter_true (spaces_cons.1 hspaces').2 hc, lastLine_append]
      simp
  · rw [squeezeRun_oneLine hfeed, collapseRest_oneLine hfeed, collapseRest_char hc]

lemma spaces_collapseLines (afterEmpty : Bool) (h : ∀ line ∈ lines, Spaces line) :
    ∀ line ∈ collapseLines afterEmpty lines, Spaces line := by
  induction lines generalizing afterEmpty with
  | nil => simp [collapseLines]
  | cons line lines ih =>
    obtain ⟨hline, hlines⟩ := forall_mem_cons.1 h
    rw [collapseLines, if_pos (all_eq_true.2 hline)]
    split
    · exact ih true hlines
    · exact forall_mem_cons.2 ⟨spaces_nil, ih true hlines⟩

lemma spaces_splitAtChars (hw : Spaces w) : ∀ line ∈ splitAtChars (· == '\n') w, Spaces line := by
  induction w using lineInduction with
  | last line hline =>
    rw [splitAtChars_line hline]
    exact forall_mem_cons.2 ⟨hw, by simp⟩
  | more line rest hline ih =>
    obtain ⟨hspaces, hrest⟩ := spaces_append.1 hw
    rw [splitAtChars_append hline]
    exact forall_mem_cons.2 ⟨hspaces, ih (spaces_cons.1 hrest).2⟩

lemma spaces_joinAfter (h : ∀ line ∈ lines, Spaces line) : Spaces (joinAfter lines) := by
  intro c hc
  obtain ⟨line, hline, hc⟩ := mem_flatMap.1 hc
  rcases mem_cons.1 hc with rfl | hc
  · rfl
  · exact h line hline c hc

lemma spaces_collapseRest (hw : Spaces w) : Spaces (collapseRest w) := by
  have hlines := spaces_splitAtChars hw
  rw [collapseRest]
  split
  · exact spaces_nil
  · rename_i line lines hsplit
    rw [hsplit] at hlines
    obtain ⟨hline, hlines⟩ := forall_mem_cons.1 hlines
    exact spaces_append.2 ⟨hline, spaces_joinAfter (spaces_collapseLines false hlines)⟩

lemma spaces_collapseEmptyLines (hw : Spaces w) : Spaces (collapseEmptyLines w) := by
  have hlines := spaces_collapseLines false (spaces_splitAtChars hw)
  rw [collapseEmptyLines]
  cases hcollapse : collapseLines false (splitAtChars (· == '\n') w) with
  | nil => exact spaces_nil
  | cons line lines =>
    rw [hcollapse] at hlines
    obtain ⟨hline, hlines⟩ := forall_mem_cons.1 hlines
    rw [intercalate_lines]
    exact spaces_append.2 ⟨hline, spaces_joinAfter hlines⟩

lemma collapseEmptyLines_run (hw : Spaces w) (hc : isSpace c = false) (cs : List Char) :
    ∃ w', Spaces w' ∧ collapseEmptyLines (w ++ c :: cs) = w' ++ c :: collapseRest cs := by
  -- the first line is like a line behind a line feed
  have hhead (line : List Char) (lines : List (List Char)) :
      '\n' :: ['\n'].intercalate (line :: lines) = joinAfter (line :: lines) := by
    rw [intercalate_lines]
    rfl
  have hne : collapseLines false (splitAtChars (· == '\n') (w ++ c :: cs)) ≠ [] := by
    obtain ⟨line, lines, hsplit⟩ := exists_cons_of_ne_nil (splitAtChars_ne_nil (· == '\n') (w ++ c :: cs))
    rw [hsplit, collapseLines]
    split <;> simp
  obtain ⟨line, lines, hlines⟩ := exists_cons_of_ne_nil hne
  have hjoin := hhead line lines
  rw [← hlines, ← collapseEmptyLines] at hjoin
  by_cases hfeed : '\n' ∈ w
  · obtain ⟨first, rest, rfl, hfirst⟩ := exists_line hfeed
    obtain ⟨hspaces, hrest⟩ := spaces_append.1 hw
    have hrest := (spaces_cons.1 hrest).2
    rw [List.append_assoc, cons_append, joinAfter_empty hfirst hspaces, joinAfter_true hrest hc] at hjoin
    refine ⟨'\n' :: lastLine rest, spaces_cons.2 ⟨rfl, fun d hd => hrest d (lastLine_subset rest hd)⟩, ?_⟩
    simpa using hjoin
  · rw [joinAfter_char hfeed hc] at hjoin
    exact ⟨w, hw, by simpa using hjoin⟩

lemma collapseRest_respace (hd : isSpace d = false) (hpending : Spaces pending) (cs rest : List Char) :
    collapseRest (pending ++ (cs ++ d :: rest)) = respace squeezeRun pending (cs ++ [d]) ++ collapseRest rest := by
  induction cs generalizing pending with
  | nil =>
    rw [nil_append, nil_append, collapseRest_run hpending hd, respace_char hd, respace, runChange_squeezeRun.nil,
      List.append_assoc, singleton_append]
  | cons c cs ih =>
    by_cases hc : isSpace c
    · have hspaces : Spaces (pending ++ [c]) := spaces_append.2 ⟨hpending, spaces_cons.2 ⟨hc, spaces_nil⟩⟩
      have := ih hspaces
      rw [List.append_assoc, singleton_append] at this
      rw [cons_append, this, cons_append, respace, if_pos hc]
    · rw [Bool.not_eq_true] at hc
      rw [cons_append, collapseRest_run hpending hc, cons_append, respace_char hc, List.append_assoc, cons_append]
      exact congrArg (squeezeRun pending ++ c :: ·) (ih spaces_nil)

/-! ## Streams -/

def trimLast : List Token → List Token
  | [] => []
  | [t] => [⟨t.kind, t.lead, ofList (dropWhileEnd Text.isSpace t.text.toList)⟩]
  | t :: ts => t :: trimLast ts

def trimEnds : List Token → List Token
  | [] => []
  | t :: ts => trimLast (t.withLead [] :: ts)

def squeezeStream (x : Stream) : Stream :=
  ⟨x.tokens.map (respaced squeezeRun), x.tail⟩

def trimStream (x : Stream) : Stream :=
  ⟨trimEnds x.tokens, []⟩

lemma collapseRest_text (hreads : Token.Reads t rest) (hs : t.Solid) (more : List Char) :
    collapseRest (t.text.toList ++ more) = (respaced squeezeRun t).text.toList ++ collapseRest more := by
  rw [respaced, toList_ofList]
  by_cases hline : t.isLineComment
  · have hone := (hs.oneLine hline).not_mem
    rw [collapseRest_oneLine hone, runChange_squeezeRun.respace_oneLine (by simp) hone, nil_append]
  · obtain ⟨ds, d, hds, hd⟩ := last_of_reads hreads hs (by simpa using hline)
    rw [hds, List.append_assoc, singleton_append]
    exact collapseRest_respace hd spaces_nil ds more

lemma collapseRest_tokens (hlegible : Legible ts tail) (hsolid : ∀ t ∈ ts, t.Solid) :
    collapseRest (chars ts ++ tail) = chars (ts.map (respaced squeezeRun)) ++ collapseRest tail := by
  induction ts with
  | nil => rfl
  | cons t ts ih =>
    obtain ⟨hlead, hreads, hlegible⟩ := hlegible
    obtain ⟨hst, hsts⟩ := forall_mem_cons.1 hsolid
    obtain ⟨c, cs, htext, hc⟩ := head_of_reads hreads hst
    have hlead' (more : List Char) :
        collapseRest (t.lead.toList ++ (t.text.toList ++ more)) = squeezeRun t.lead.toList ++ collapseRest (t.text.toList ++ more) := by
      rw [htext, cons_append, collapseRest_run hlead.spaces hc, collapseRest_char hc]
    rw [chars_cons, List.append_assoc, List.append_assoc, hlead', collapseRest_text hreads hst, ih hlegible hsts, map_cons,
      chars_cons, lead_respaced, List.append_assoc, List.append_assoc]

lemma dropWhileEnd_tokens (hlegible : Legible ts tail) (hsolid : ∀ t ∈ ts, t.Solid) (hne : ts ≠ []) (hw : Spaces w) :
    dropWhileEnd isSpace (chars ts ++ w) = chars (trimLast ts) := by
  induction ts with
  | nil => exact absurd rfl hne
  | cons t ts ih =>
    obtain ⟨-, hreads, hlegible⟩ := hlegible
    obtain ⟨hst, hsts⟩ := forall_mem_cons.1 hsolid
    cases ts with
    | nil =>
      obtain ⟨c, cs, htext, hc⟩ := head_of_reads hreads hst
      rw [trimLast, chars_cons, chars_cons, chars_nil, append_nil, append_nil, toList_ofList,
        dropWhileEnd_append_right _ hw, htext, dropWhileEnd_append_cons _ hc, dropWhileEnd_cons hc]
    | cons u ts =>
      have ih := ih hlegible hsts (cons_ne_nil _ _)
      obtain ⟨-, hreads', -⟩ := hlegible
      obtain ⟨c, cs, htext, hc⟩ := head_of_reads hreads' (hsts u mem_cons_self)
      have hsplit : chars (u :: ts) ++ w = u.lead.toList ++ c :: (cs ++ (chars ts ++ w)) := by simp [htext]
      rw [hsplit, dropWhileEnd_append_cons _ hc] at ih
      rw [trimLast, chars_cons t, chars_cons t, List.append_assoc _ (Token.chars (u :: ts)) w, hsplit, ← List.append_assoc,
        dropWhileEnd_append_cons _ hc, ← ih, List.append_assoc]
      all_goals simp

lemma head?_squeezeRun (w : List Char) : (squeezeRun w).head? = w.head? := by
  by_cases h : '\n' ∈ w
  · obtain ⟨line, rest, rfl, -, ⟨-, hw⟩ | ⟨-, hw⟩⟩ := squeezeRun_cases h
    · rw [hw]
    · rw [hw]
      cases line <;> rfl
  · rw [squeezeRun_oneLine h]

lemma relaid_squeeze (p : Option Token) (hlegible : Legible ts tail) (hsolid : ∀ t ∈ ts, t.Solid)
    (hended : Token.Ended p (chars ts ++ tail)) : Relaid tail tail p ts (ts.map (respaced squeezeRun)) := by
  induction ts generalizing p with
  | nil => exact .nil (Reuses.refl tail) hended
  | cons t ts ih =>
    obtain ⟨hst, hsts⟩ := forall_mem_cons.1 hsolid
    have hlead := hended.lead hlegible
    obtain ⟨hblank, hreads, hlegible⟩ := hlegible
    have hkin := hst.kin_respaced runChange_squeezeRun
    have hrest := ih (some t) hlegible hsts (ended_of_reads hreads)
    rw [map_cons]
    refine .cons hkin ?_ (fun s hs => ?_) hrest
    · rw [lead_respaced]
      exact runChange_squeezeRun.reuses _
    · refine .of_lead (fun hnil => ?_) (hlead s hs) fun hbreak => ?_
      · rw [lead_respaced] at hnil
        by_contra hne
        exact (runChange_squeezeRun.spaces _ hne hblank.spaces).1 hnil
      · rwa [lead_respaced, Lexeme.BreaksOff, head?_squeezeRun]

lemma relaid_squeezeStream (h : x.Neat) : x.Relaid (squeezeStream x) :=
  relaid_squeeze none h.legible h.solid (ended_none _)

lemma trimEnd_text (hreads : Token.Reads t rest) (hs : t.Solid) (hline : t.isLineComment = false) :
    dropWhileEnd isSpace t.text.toList = t.text.toList := by
  obtain ⟨ds, d, hds, hd⟩ := last_of_reads hreads hs hline
  refine dropWhileEnd_eq_self fun c hc => ?_
  obtain rfl : d = c := by simpa [hds] using hc
  exact hd

lemma kin_trimEnd (hreads : Token.Reads t rest) (hs : t.Solid) (lead : List Char) :
    t.Kin ⟨t.kind, ofList lead, ofList (dropWhileEnd isSpace t.text.toList)⟩ :=
  hs.kin_trim (by decide) (trimEnd_text hreads hs) lead

lemma relaid_trimLast (p : Option Token) (hlegible : Legible ts tail) (hsolid : ∀ t ∈ ts, t.Solid)
    (hended : Token.Ended p (chars ts ++ tail)) : Relaid tail [] p ts (trimLast ts) := by
  have hnil (p : Option Token) : Relaid tail [] p [] [] :=
    .nil (fun c hc => absurd hc not_mem_nil) (by simp [Lexeme.BreaksOff])
  induction ts generalizing p with
  | nil => exact hnil p
  | cons t ts ih =>
    obtain ⟨hst, hsts⟩ := forall_mem_cons.1 hsolid
    have hlead := hended.lead hlegible
    obtain ⟨-, hreads, hlegible⟩ := hlegible
    cases ts with
    | nil =>
      have hkin := kin_trimEnd hreads hst t.lead.toList
      rw [ofList_toList] at hkin
      exact .cons hkin (Reuses.refl _) (fun s hs => .of_lead id (hlead s hs) id) (hnil _)
    | cons u ts =>
      exact .cons hst.kin_refl (Reuses.refl _) (fun s hs => .of_lead id (hlead s hs) id)
        (ih _ hlegible hsts (ended_of_reads hreads))

lemma relaid_trimStream (h : x.Neat) : x.Relaid (trimStream x) := by
  obtain ⟨tokens, tail⟩ := x
  obtain ⟨hlegible, hsolid⟩ := h
  cases tokens with
  | nil => exact relaid_trimLast none hlegible hsolid (ended_none _)
  | cons t ts =>
    obtain ⟨hst, hsts⟩ := forall_mem_cons.1 hsolid
    obtain ⟨-, hreads, hlegible⟩ := hlegible
    have hrest := relaid_trimLast (some t) hlegible hsts (ended_of_reads hreads)
    have hlead : Reuses t.lead.toList [] := fun c hc => absurd hc not_mem_nil
    cases ts with
    | nil => exact .cons (kin_trimEnd hreads hst []) (by simpa using hlead) (by simp) hrest
    | cons u ts => exact .cons (hst.kin_withLead []) (by simpa using hlead) (by simp) hrest

lemma trim_collapse_chars (h : x.Neat) :
    (Text.trim (ofList (collapseEmptyLines x.chars))).toList = (trimStream (squeezeStream x)).chars := by
  rw [Text.trim, toList_ofList, toList_ofList]
  obtain ⟨hlegible', hsolid'⟩ := h.relaid (relaid_squeezeStream h)
  obtain ⟨tokens, tail⟩ := x
  obtain ⟨hlegible, hsolid⟩ := h
  cases tokens with
  | nil =>
    have hspaces := spaces_collapseEmptyLines (Blank.spaces hlegible)
    have hdrop : (collapseEmptyLines tail).dropWhile isSpace = [] := dropWhile_eq_nil_iff.2 hspaces
    simp [Stream.chars, trimStream, squeezeStream, trimEnds, hdrop, dropWhileEnd]
  | cons t ts =>
    obtain ⟨hst, hsts⟩ := forall_mem_cons.1 hsolid
    obtain ⟨hst', hsts'⟩ := forall_mem_cons.1 hsolid'
    obtain ⟨hlead, hreads, hlegible⟩ := hlegible
    obtain ⟨c, cs, htext, hc⟩ := head_of_reads hreads hst
    -- from its first character that is no space on, the text is that of the squeezed tokens
    have hchars : Stream.chars ⟨t :: ts, tail⟩ = t.lead.toList ++ c :: (cs ++ (chars ts ++ tail)) := by
      simp [Stream.chars, htext]
    have hrest : c :: collapseRest (cs ++ (chars ts ++ tail)) =
        chars ((respaced squeezeRun t).withLead [] :: ts.map (respaced squeezeRun)) ++ collapseRest tail := by
      rw [← collapseRest_char hc, ← cons_append, ← htext, collapseRest_text hreads hst, collapseRest_tokens hlegible hsts,
        chars_cons, lead_withLead, text_withLead, nil_append, List.append_assoc]
    have hbare := hlegible'.withLead (by simp [Token.Blank] : Token.Blank [])
    obtain ⟨w, hw, hcollapse⟩ := collapseEmptyLines_run hlead.spaces hc (cs ++ (chars ts ++ tail))
    rw [hchars, hcollapse, dropWhile_append_of_pos hw, dropWhile_cons_of_neg (by simp [hc]), hrest,
      dropWhileEnd_tokens hbare (forall_mem_cons.2 ⟨hst'.withLead [], hsts'⟩) (cons_ne_nil _ _)
        (spaces_collapseRest hlegible.tail.spaces)]
    simp [Stream.chars, trimStream, squeezeStream, trimEnds]

end DeviceForge.Layout
