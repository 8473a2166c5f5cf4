import DeviceForge.Proofs.Code.Parts
import DeviceForge.Proofs.Layout.Settled
/-!
# Conditions stay flat and braces stay in place

Flattening takes the line feeds out of a condition, and placing brings some of them back where a brace stands in it, so
the two passes have a normal form together.
-/

namespace DeviceForge.Layout

open Token List Text Option String

variable {t u : Token} {rest lead tail lead' tail' : List Char} {s : Option Token} {ts us : List Token}
  {flag : Bool} {flags : List Bool}

/-! ## Tokens and braces -/

/-- What a token is where braces are placed. -/
structure Mark where
  opening : Bool
  closing : Bool
  word : Bool

def markOf (t : Token) : Mark :=
  ⟨isOpen t, isClose t, t.text = "else"⟩

/-- Placing ends a line between a token of the mark `s` and one of the mark `m`. -/
def splits (s : Option Mark) (m : Mark) : Bool :=
  m.opening || m.closing || s.any fun s => s.opening || s.closing && m.word

lemma markOf_kin (h : t.Kin u) (hs : t.Solid) (hreads : Token.Reads t rest) : markOf u = markOf t := by
  have hopen := h.text_eq_iff hs hreads (show "\x7b".toList = '\x7b' :: [] by simp) (by decide)
  have hclose := h.text_eq_iff hs hreads (show "\x7d".toList = '\x7d' :: [] by simp) (by decide)
  have hword := h.text_eq_iff hs hreads (show "else".toList = 'e' :: ['l', 's', 'e'] by simp) (by decide)
  simp only [markOf, isOpen, isClose, hopen, hclose, hword]

lemma markOf_congr (h : u.text = t.text) : markOf u = markOf t := by
  simp only [markOf, isOpen, isClose, h]

structure Placed (s : Option Mark) (m : Mark) (lead : List Char) : Prop where
  first : s = none → m.opening = true → lead = []
  alone : s ≠ none → m.opening = true → lead = ['\n']
  closes : s ≠ none → m.closing = true → '\n' ∈ lead
  opened : s.any Mark.opening = true → lead.head? = some '\n'
  word : s.any Mark.closing = true → m.word = true → lead = ['\n']

lemma head?_openedLead (lead : List Char) : (openedLead lead).head? = some '\n' := by
  unfold openedLead
  dsimp only
  split
  · assumption
  · rfl

lemma placed_braceLead (s : Option Token) (t : Token) : Placed (s.map markOf) (markOf t) (braceLead s t) := by
  cases s with
  | none => exact ⟨fun _ hopen => if_pos hopen, fun h => absurd rfl h, fun h => absurd rfl h, by simp, by simp⟩
  | some s =>
    have hopened (h : isOpen s) : (afterLead s t).head? = some '\n' := by
      rw [afterLead, if_pos h]
      exact head?_openedLead _
    refine ⟨by simp, fun _ hopen => if_pos hopen, fun _ hclose => ?_, fun hs => ?_, fun hs hword => ?_⟩
    · change isClose t = true at hclose
      rw [braceLead]
      split
      · exact mem_singleton_self _
      · by_cases hfeed : '\n' ∈ afterLead s t <;> simp [hclose, hfeed]
    · have hhead := hopened hs
      have hfeed : '\n' ∈ afterLead s t := mem_of_mem_head? hhead
      rw [braceLead]
      split
      · rfl
      · simpa [hfeed] using hhead
    · have hs : s.text = "\x7d" := by simpa [markOf, isClose] using hs
      have ht : t.text = "else" := by simpa [markOf] using hword
      simp [braceLead, afterLead, isOpen, isClose, hs, ht]

lemma braceLead_eq (h : Placed (s.map markOf) (markOf t) t.lead.toList) : braceLead s t = t.lead.toList := by
  cases s with
  | none =>
    rw [braceLead]
    split
    · rename_i hopen
      exact (h.first rfl hopen).symm
    · rfl
  | some s =>
    have hafter : afterLead s t = t.lead.toList := by
      rw [afterLead]
      split
      · rename_i hs
        obtain ⟨lead, hlead⟩ := head?_eq_some_iff.1 (h.opened hs)
        simp [hlead, openedLead, isTab]
      split
      · rename_i hs
        rw [Bool.and_eq_true] at hs
        exact (h.word hs.1 hs.2).symm
      · rfl
    rw [braceLead, hafter]
    split
    · rename_i hopen
      exact (h.alone (by simp) hopen).symm
    split
    · rename_i hclose
      rw [Bool.and_eq_true, Bool.not_eq_true', ← Bool.not_eq_true, contains_iff_mem] at hclose
      exact absurd (h.closes (by simp) hclose.1) hclose.2
    · rfl

lemma braceLead_of_splits {s : Token} (h : splits (some (markOf s)) (markOf t))
    (hlead : ∀ c ∈ t.lead.toList, isTab c) : braceLead (some s) t = ['\n'] := by
  have hdrop : t.lead.toList.dropWhile isTab = [] := dropWhile_eq_nil_iff.2 hlead
  have hdropEnd := dropWhileEnd_eq_nil hlead
  have hfeed : '\n' ∉ t.lead.toList := fun hmem => absurd (hlead _ hmem) (by decide)
  have hopened : openedLead t.lead.toList = ['\n'] := by simp [openedLead, hdrop]
  simp only [splits, markOf, any_some, Bool.or_eq_true, Bool.and_eq_true, decide_eq_true_eq] at h
  rw [braceLead, afterLead, hopened]
  by_cases hopen : isOpen t
  · simp [hopen]
  by_cases hs : isOpen s
  · simp [hs]
  by_cases hword : isClose s ∧ t.text = "else"
  · simp [hs, hword]
  · have hclose : isClose t := (h.resolve_right fun h => h.elim hs hword).resolve_left hopen
    have helse : (isClose s && decide (t.text = "else")) = false := by simpa using hword
    simp [hopen, hs, helse, hclose, hfeed, hdropEnd]

lemma braceLead_of_not_splits {s : Token} (h : splits (some (markOf s)) (markOf t) = false) :
    braceLead (some s) t = t.lead.toList := by
  simp only [splits, markOf, any_some, Bool.or_eq_false_iff] at h
  simp [braceLead, afterLead, h]

inductive Stands : Bool → Option Mark → Mark → List Char → Prop
  | split {s m : Mark} (h : splits (some s) m = true) : Stands true (some s) m ['\n']
  | line {s m : Mark} {lead : List Char} (h : splits (some s) m = false) (hlead : OneLine lead) : Stands true (some s) m lead
  | outside {s : Option Mark} {m : Mark} {lead : List Char} (h : Placed s m lead) : Stands false s m lead

inductive Standing : Option Mark → List Bool → List Token → Prop
  | nil {s : Option Mark} : Standing s [] []
  | cons {s : Option Mark} {flag : Bool} {flags : List Bool} {t : Token} {ts : List Token}
      (hlead : Stands flag s (markOf t) t.lead.toList) (htext : flag = true → OneLine t.text.toList)
      (hends : ts.head?.any isOpen = true → isTrimmed t) (h : Standing (some (markOf t)) flags ts) : Standing s (flag :: flags) (t :: ts)

lemma textBefore_eq (h : ts.head?.any isOpen → isTrimmed t)
    (hhead : us.head?.any isOpen = ts.head?.any isOpen) : textBefore us t = t.text.toList := by
  rw [textBefore, hhead]
  split
  · exact h ‹_›
  · rfl

lemma flatIf_text (h : flag → OneLine t.text.toList) : (flatIf flag t).text = t.text := by
  cases flag with
  | false => rfl
  | true =>
    have hrun := runChange_flatRun.respace_oneLine (by simp : '\n' ∉ []) (h rfl)
    rw [flatIf, if_pos rfl, respaced, hrun, nil_append, ofList_toList]

lemma head?_flatTokens {s : Option Mark} (h : Standing s flags ts) :
    (flatTokens flags ts).head?.any isOpen = ts.head?.any isOpen := by
  cases h with
  | nil => rfl
  | cons _ htext _ _ => simp only [flatTokens, zipWith_cons_cons, head?_cons, any_some, isOpen, flatIf_text htext]

lemma braceLead_flatIf (h : Stands flag (s.map markOf) (markOf t) t.lead.toList)
    (htext : flag → OneLine t.text.toList) : braceLead s (flatIf flag t) = t.lead.toList := by
  have hmark := markOf_congr (flatIf_text htext)
  generalize hs : s.map markOf = m at h
  generalize hlead : t.lead.toList = lead at h
  cases h with
  | split hsplits =>
    -- the line feed has become a space, which is what placing finds
    obtain ⟨s, rfl, rfl⟩ := map_eq_some_iff.1 hs
    refine braceLead_of_splits (by rwa [hmark]) ?_
    rw [lead_flatIf, if_pos rfl, hlead]
    exact forall_mem_singleton.2 (by decide)
  | line hsplits hline =>
    obtain ⟨s, rfl, rfl⟩ := map_eq_some_iff.1 hs
    rw [braceLead_of_not_splits (by rwa [hmark]), lead_flatIf, if_pos rfl, hlead, flatRun_of_oneLine hline]
  | outside hplaced =>
    subst hs hlead
    exact braceLead_eq hplaced

lemma placeTokens_flatTokens (h : Standing (s.map markOf) flags ts) : placeTokens s (flatTokens flags ts) = ts := by
  generalize hs : s.map markOf = m at h
  induction h generalizing s with
  | nil => rfl
  | cons hlead htext hends h ih =>
    rename_i flag flags t ts
    have hkind : (flatIf flag t).kind = t.kind := by cases flag <;> rfl
    have hflat := flatIf_text htext
    have htrim : isTrimmed t → isTrimmed (flatIf flag t) := by
      rw [isTrimmed, isTrimmed, hflat]
      exact id
    subst hs
    rw [flatTokens_cons, placeTokens, ih (by rw [map_some, markOf_congr hflat]), braceLead_flatIf hlead htext,
      textBefore_eq (htrim ∘ hends) (head?_flatTokens h), hflat, hkind, ofList_toList, ofList_toList]

/-! ## Flattening and placing reach it -/

/-- No form feed stands next to a brace in a condition; `s` is the mark of the token before the tokens. -/
def feedsApart (s : Option Mark) : List Bool → List Token → Bool
  | flag :: flags, t :: ts =>
    (!(flag && splits s (markOf t)) || !t.lead.toList.contains '\x0c') && feedsApart (some (markOf t)) flags ts
  | _, _ => true

inductive Clear : Option Mark → List Bool → List Token → Prop
  | nil {s : Option Mark} : Clear s [] []
  | cons {s : Option Mark} {flag : Bool} {flags : List Bool} {t : Token} {ts : List Token} (hfirst : flag = true → s ≠ none)
      (hlead : flag = true → OneLine t.lead.toList) (htext : flag = true → OneLine t.text.toList)
      (htabs : flag = true → splits s (markOf t) = true → ∀ c ∈ t.lead.toList, isTab c = true)
      (h : Clear (some (markOf t)) flags ts) : Clear s (flag :: flags) (t :: ts)

lemma isTab_of_blank {c : Char} (h : isBlank c) (hline : c ≠ '\n') (hreturn : c ≠ '\r') (hfeed : c ≠ '\x0c') :
    isTab c := by
  simpa [isBlank, isTab, hline, hreturn, hfeed] using h

lemma isTab_flatRun (hblank : Token.Blank lead) (hreturn : '\r' ∉ lead) (hfeed : '\x0c' ∉ lead) :
    ∀ c ∈ flatRun lead, isTab c := by
  by_cases hline : '\n' ∈ lead
  · rw [flatRun, if_pos (by simpa using hline)]
    exact forall_mem_singleton.2 (by decide)
  · rw [flatRun_of_oneLine hline]
    exact fun c hc => isTab_of_blank (hblank c hc) (ne_of_mem_of_not_mem hc hline) (ne_of_mem_of_not_mem hc hreturn)
      (ne_of_mem_of_not_mem hc hfeed)

lemma clear_flatTokens {s : Option Mark} (hlegible : Legible ts tail) (hsolid : ∀ t ∈ ts, t.Solid)
    (hreturn : '\r' ∉ chars ts) (hlen : flags.length = ts.length)
    (hfirst : s = none → flags.head? ≠ some true) (h : feedsApart s flags ts) :
    Clear s flags (flatTokens flags ts) := by
  induction ts generalizing s flags with
  | nil =>
    obtain rfl := length_eq_zero_iff.1 hlen
    exact .nil
  | cons t ts ih =>
    obtain ⟨flag, flags, rfl⟩ := exists_cons_of_length_eq_add_one hlen
    obtain ⟨hblank, hreads, hlegible⟩ := hlegible
    obtain ⟨hst, hsts⟩ := forall_mem_cons.1 hsolid
    rw [chars_cons, mem_append, not_or, mem_append, not_or] at hreturn
    rw [feedsApart, Bool.and_eq_true] at h
    have hmark := markOf_kin (kin_flatIf hst flag) hst hreads
    rw [flatTokens_cons]
    refine .cons (fun hflag hs => hfirst hs (by rw [hflag]; rfl)) (fun hflag => ?_) (fun hflag => ?_) (fun hflag hsplits => ?_) ?_
    · rw [lead_flatIf, if_pos hflag]
      exact oneLine_flatRun _
    · rw [hflag, flatIf, if_pos rfl, respaced, toList_ofList]
      exact oneLine_respace _ _
    · rw [hmark] at hsplits
      have hfeed : '\x0c' ∉ t.lead.toList := by simpa [hflag, hsplits] using h.1
      rw [lead_flatIf, if_pos hflag]
      exact isTab_flatRun hblank hreturn.1.1 hfeed
    · rw [hmark]
      exact ih hlegible hsts hreturn.2 (by simpa using hlen) (by simp) h.2

lemma stands_braceLead (hfirst : flag → s.map markOf ≠ none) (hlead : flag → OneLine t.lead.toList)
    (htabs : flag → splits (s.map markOf) (markOf t) → ∀ c ∈ t.lead.toList, isTab c) :
    Stands flag (s.map markOf) (markOf t) (braceLead s t) := by
  cases flag with
  | false => exact .outside (placed_braceLead s t)
  | true =>
    obtain ⟨s, rfl⟩ : ∃ p, s = some p := by simpa [ne_none_iff_exists'] using hfirst rfl
    by_cases hsplits : splits (some (markOf s)) (markOf t)
    · rw [braceLead_of_splits hsplits (htabs rfl hsplits)]
      exact .split hsplits
    · rw [Bool.not_eq_true] at hsplits
      rw [braceLead_of_not_splits hsplits]
      exact .line hsplits (hlead rfl)

lemma isTrimmed_textBefore (t : Token) (lead : String) (h : ts.head?.any isOpen) :
    isTrimmed ⟨t.kind, lead, ofList (textBefore ts t)⟩ := by
  rw [isTrimmed, toList_ofList, textBefore, if_pos h]
  exact dropWhileEnd_eq_self (getLast?_dropWhileEnd _ _)

lemma standing_placeTokens (hlegible : Legible ts tail) (hsolid : ∀ t ∈ ts, t.Solid)
    (h : Clear (s.map markOf) flags ts) : Standing (s.map markOf) flags (placeTokens s ts) := by
  induction ts generalizing s flags with
  | nil =>
    cases h
    exact .nil
  | cons t ts ih =>
    obtain ⟨-, hreads, hlegible⟩ := hlegible
    obtain ⟨hst, hsts⟩ := forall_mem_cons.1 hsolid
    cases h with
    | cons hfirst hlead htext htabs h =>
      rename_i flag flags
      have hmark := markOf_kin (kin_place hreads hst (braceLead s t) ts) hst hreads
      -- the token behind this one is an opening brace after placing only if it was one before
      have hnext : (placeTokens (some t) ts).head?.any isOpen = ts.head?.any isOpen := by
        cases ts with
        | nil => rfl
        | cons u ts =>
          have hu := markOf_kin (kin_place hlegible.2.1 (hsts u mem_cons_self) (braceLead (some t) u) ts) (hsts u mem_cons_self)
            hlegible.2.1
          exact congrArg Mark.opening hu
      rw [placeTokens]
      refine .cons ?_ (fun hflag => ?_) (fun hopen => isTrimmed_textBefore t _ (by rwa [hnext] at hopen)) ?_
      · rw [hmark, toList_ofList]
        exact stands_braceLead hfirst hlead htabs
      · rw [toList_ofList, textBefore]
        split
        · exact fun hmem => htext hflag ((Text.dropWhileEnd_prefix _ _).subset hmem)
        · exact htext hflag
      · rw [hmark]
        exact ih (s := some t) hlegible hsts h

/-! ## Later passes keep it -/

lemma Placed.kept {s : Option Mark} {m : Mark} (h : Placed s m lead)
    (hfirst : s = none → lead = [] → lead' = []) (hkept : s ≠ none → LeadKept lead lead') : Placed s m lead' := by
  have hsome {p : Mark → Bool} (hs : s.any p) : s ≠ none := by
    rintro rfl
    cases hs
  refine ⟨fun hs hopen => hfirst hs (h.first hs hopen), fun hs hopen => (hkept hs).single (h.alone hs hopen),
    fun hs hclose => (hkept hs).mem_iff.2 (h.closes hs hclose), fun hs => (hkept (hsome hs)).head (h.opened hs),
    fun hs hword => (hkept (hsome hs)).single (h.word hs hword)⟩

lemma Stands.kept {s : Option Mark} {m : Mark} (h : Stands flag s m lead)
    (hfirst : s = none → lead = [] → lead' = []) (hkept : s ≠ none → LeadKept lead lead') : Stands flag s m lead' := by
  cases h with
  | split hsplits =>
    rw [(hkept (by simp)).single rfl]
    exact .split hsplits
  | line hsplits hline => exact .line hsplits (mt (hkept (by simp)).mem_iff.1 hline)
  | outside hplaced => exact .outside (hplaced.kept hfirst hkept)

lemma Standing.tidied (h : Token.Along Tidies (fun _ => True) s ts us) (hlegible : Legible ts tail)
    (hsolid : ∀ t ∈ ts, t.Solid) (hlegible' : Legible us tail') (hsolid' : ∀ u ∈ us, u.Solid)
    (hstanding : Standing (s.map markOf) flags ts) : Standing (s.map markOf) flags us := by
  induction h generalizing flags with
  | nil => exact hstanding
  | cons hstep hsteps ih =>
    rename_i s t u ts us
    obtain ⟨-, hreads, hlegible⟩ := hlegible
    obtain ⟨hst, hsts⟩ := forall_mem_cons.1 hsolid
    obtain ⟨-, hreads', hlegible'⟩ := hlegible'
    obtain ⟨hsu, hsus⟩ := forall_mem_cons.1 hsolid'
    have hmark := markOf_kin hstep.kin hst hreads
    cases hstanding with
    | cons hlead htext hends hstanding =>
      refine .cons ?_ (fun hflag => mt hstep.lines.1 (htext hflag)) (fun hopen => ?_) ?_
      · rw [hmark]
        exact hlead.kept (fun hs => hstep.first (by simpa using hs)) fun hs => hstep.lead (by simpa using hs)
      · -- only a comment up to the end of its line can have blanks at its end
        by_cases hline : t.isLineComment
        · refine hstep.ends hline (hends ?_)
          cases hsteps with
          | nil => exact hopen
          | cons hnext _ =>
            have := congrArg Mark.opening (markOf_kin hnext.kin (hsts _ mem_cons_self) hlegible.2.1)
            exact this.symm.trans hopen
        · refine dropWhileEnd_text hreads' hsu ?_
          rw [hstep.kin.isLineComment_eq hreads]
          simpa using hline
      · rw [hmark]
        exact ih hlegible hsts hlegible' hsus hstanding

lemma Joinable.markOf_eq (h : Joinable t) : (markOf t).opening = false ∧ (markOf t).closing = false := by
  have hplain := h.plain
  constructor
  · simp only [markOf, isOpen, decide_eq_false_iff_not]
    intro htext
    rw [htext] at hplain
    revert hplain
    decide
  · simp only [markOf, isClose, decide_eq_false_iff_not]
    intro htext
    rw [htext] at hplain
    revert hplain
    decide

lemma Stands.joined (h : Stands flag (s.map markOf) (markOf t) t.lead.toList) (hstep : JoinStep s t u) :
    Stands flag (s.map markOf) (markOf u) u.lead.toList := by
  cases hstep with
  | same => exact h
  | close hp hfeed =>
    obtain ⟨hopen, hclose⟩ := hp.markOf_eq
    rw [lead_withLead, markOf_congr (text_withLead _ _)]
    generalize t.lead.toList = lead at h hfeed
    cases h with
    | split hsplits => exact .split hsplits
    | line hsplits hline => exact absurd hfeed hline
    | outside hplaced =>
      -- what goes away stands before the line feed, where neither brace has anything
      refine .outside ⟨by simp, fun hs hopen => by rw [hplaced.alone hs hopen]; rfl, fun hs hclose => ?_, fun hs => ?_, fun hs => ?_⟩
      · rw [← count_pos_iff, count_dropWhile, count_pos_iff]
        exact hplaced.closes hs hclose
      · simp [map_some, any_some, hopen] at hs
      · simp [map_some, any_some, hclose] at hs
  | join hp ht hfeed =>
    obtain ⟨hopen, hclose⟩ := hp.markOf_eq
    obtain ⟨hopen', hclose'⟩ := ht.markOf_eq
    rw [lead_withLead, markOf_congr (text_withLead _ _)]
    generalize t.lead.toList = lead at h hfeed
    cases h with
    | split hsplits => simp [splits, hopen, hclose, hopen', hclose'] at hsplits
    | line hsplits hline => exact absurd hfeed hline
    | outside hplaced => exact .outside ⟨by simp, by simp [hopen'], by simp [hclose'], by simp [hopen], by simp [hclose]⟩

lemma Standing.joined {E : Option Token → Prop}
    (h : Token.Along JoinStep E s ts us) (hstanding : Standing (s.map markOf) flags ts) : Standing (s.map markOf) flags us := by
  have htext {s : Option Token} {t u : Token} (hstep : JoinStep s t u) : u.text = t.text := by cases hstep <;> rfl
  induction h generalizing flags with
  | nil => exact hstanding
  | cons hstep hsteps ih =>
    cases hstanding with
    | cons hlead hline hends hstanding =>
      refine .cons (hlead.joined hstep) (by rwa [htext hstep]) (fun hopen => ?_) ?_
      · rw [isTrimmed, htext hstep]
        refine hends ?_
        cases hsteps with
        | nil => exact hopen
        | cons hnext _ =>
          simp only [head?_cons, any_some, isOpen, htext hnext] at hopen ⊢
          exact hopen
      · rw [markOf_congr (htext hstep)]
        exact ih hstanding

end DeviceForge.Layout

/-!
# The normal layout

A stream in its `Normal` layout is one that every pass leaves alone, and laying out a stream gives one
(`normal_formatStream`), so a text that is laid out twice is laid out once (`format_format`).
-/

namespace DeviceForge.Layout

open Text String Token List

variable {line rest tail tail' : List Char} {previous previous' p : Option Token} {ts us : List Token}
  {t : Token} {x y : Stream}

/-! ## Spaces -/

lemma strip_strip (gap : List Char) : strip (strip gap) = strip gap := by
  induction gap using lineInduction with
  | last line h => rw [strip_line h, strip_line h]
  | more line rest h ih =>
    have hline : OneLine (dropWhileEnd isTab line) := fun hmem => h ((Text.dropWhileEnd_prefix _ _).subset hmem)
    rw [strip_append h, strip_append hline, ih, dropWhileEnd_eq_self (getLast?_dropWhileEnd _ _)]

lemma toList_spaced {gap : String} (h : '\n' ∈ gap.toList) (left right : Role) : (spaced left right gap).toList = strip gap.toList := by
  rcases spaced_cases left right gap with ⟨-, heq⟩ | ⟨hfeed, -⟩
  · exact heq
  · exact absurd h hfeed

lemma spaced_spaced (left right : Role) (gap : String) : spaced left right (spaced left right gap) = spaced left right gap := by
  by_cases hfeed : '\n' ∈ gap.toList
  · have hstrip := toList_spaced hfeed left right
    have hfeed' : '\n' ∈ (spaced left right gap).toList := by rwa [hstrip, mem_strip]
    rw [← toList_inj, toList_spaced hfeed', hstrip, strip_strip]
  · unfold spaced
    cases left <;> cases right <;> simp [hfeed]

lemma dropWhileEnd_of_strip (h : OneLine line)
    (hstrip : strip (line ++ '\n' :: rest) = line ++ '\n' :: rest) : dropWhileEnd isTab line = line := by
  have hline : OneLine (dropWhileEnd isTab line) := fun hmem => h ((Text.dropWhileEnd_prefix _ _).subset hmem)
  rw [strip_append h] at hstrip
  have hfirst := congrArg firstLine hstrip
  rwa [firstLine_append hline, firstLine_append h] at hfirst

lemma strip_squeezeRun {gap : List Char} (h : strip gap = gap) : strip (squeezeRun gap) = squeezeRun gap := by
  by_cases hfeed : '\n' ∈ gap
  · obtain ⟨line, rest, rfl, hline, ⟨-, hrun⟩ | ⟨hrest, hrun⟩⟩ := squeezeRun_cases hfeed
    · rw [hrun, h]
    · rw [hrun, strip_append hline, dropWhileEnd_of_strip hline h, strip_feed, strip_line (oneLine_lastLine rest)]
  · rw [squeezeRun_oneLine hfeed, h]

lemma spaced_squeezed {left right : Role} {lead lead' : String} (hlead : lead'.toList = squeezeRun lead.toList)
    (h : spaced left right lead = lead) : spaced left right lead' = lead' := by
  by_cases hfeed : '\n' ∈ lead.toList
  · have hfeed' : '\n' ∈ lead'.toList := by rwa [hlead, (leadKept_squeezeRun _).mem_iff]
    have hstrip : strip lead.toList = lead.toList := by rw [← toList_spaced hfeed left right, h]
    rw [← toList_inj, toList_spaced hfeed', hlead, strip_squeezeRun hstrip]
  · rw [squeezeRun_oneLine hfeed, toList_inj] at hlead
    rw [hlead, h]

lemma spacedTokens_congr (h : opensOperand previous' = opensOperand previous) (left : Option Role)
    (ts : List Token) : spacedTokens left previous' ts = spacedTokens left previous ts := by
  induction ts generalizing left previous previous' with
  | nil => rfl
  | cons t ts ih =>
    have hrole : role previous' t = role previous t := by rw [role, role, roleOf, roleOf, h]
    have hpassed : opensOperand (passed previous' t) = opensOperand (passed previous t) := by
      rw [passed, passed]
      split
      · exact h
      · rfl
    rw [spacedTokens, spacedTokens, hrole, ih hpassed]

lemma gapOf_gapOf (left : Option Role) (right : Role) (lead : String) :
    gapOf left right (gapOf left right lead) = gapOf left right lead := by
  cases left with
  | none => rfl
  | some left => exact spaced_spaced left right lead

lemma spacedTokens_spacedTokens (left : Option Role) (previous : Option Token) (ts : List Token) :
    spacedTokens left previous (spacedTokens left previous ts) = spacedTokens left previous ts := by
  induction ts generalizing left previous with
  | nil => rfl
  | cons t ts ih =>
    generalize hgap : gapOf left (role previous t) t.lead = gap
    have hidem : gapOf left (role previous t) gap = gap := by rw [← hgap, gapOf_gapOf]
    have hrole : role previous (t.withLead gap.toList) = role previous t := rfl
    have hlead : (t.withLead gap.toList).lead = gap := ofList_toList
    have hpassed : opensOperand (passed previous (t.withLead gap.toList)) = opensOperand (passed previous t) := by
      rw [passed, passed]
      change opensOperand (if t.isComment = true then _ else _) = _
      split <;> rfl
    rw [spacedTokens, hgap, spacedTokens, hrole, hlead, hidem, spacedTokens_congr hpassed, ih]
    rfl

lemma spacedTokens_trimmed {s : Option Token} {left : Option Role}
    (h : Token.Along Trims (fun _ => True) s ts us) (hlegible : Token.Legible ts tail)
    (hsolid : ∀ t ∈ ts, t.Solid) (hleft : s = none → left = none)
    (hprevious : opensOperand previous' = opensOperand previous)
    (hspaced : spacedTokens left previous ts = ts) : spacedTokens left previous' us = us := by
  induction h generalizing left previous previous' with
  | nil => rfl
  | cons hstep hsteps ih =>
    rename_i s t u ts us
    obtain ⟨-, hreads, hlegible⟩ := hlegible
    obtain ⟨hst, hsts⟩ := forall_mem_cons.1 hsolid
    obtain ⟨hfirst, hrest⟩ := cons.inj hspaced
    have hrole := role_kin hstep.kin hst hprevious
    have hpassed : opensOperand (passed previous' u) = opensOperand (passed previous t) := by
      have hcomment : u.isComment = t.isComment := by rw [isComment, hstep.kin.kind, isComment]
      rw [passed, passed, hcomment]
      split
      · exact hprevious
      · exact opensOperand_kin hstep.kin hst hreads
    have hgap : gapOf left (role previous t) u.lead = u.lead := by
      have hlead : gapOf left (role previous t) t.lead = t.lead := by
        have := congrArg lead hfirst
        rwa [withLead, ofList_toList] at this
      -- the first token of the stream has no neighbour that decides about its blanks
      cases left with
      | none => rfl
      | some left =>
        have hs : s ≠ none := fun hs => by cases hleft hs
        rcases hstep.gap hs with hsame | hsqueezed
        · rw [toList_inj.1 hsame, hlead]
        · exact spaced_squeezed hsqueezed hlead
    rw [spacedTokens, hrole, hgap, ih hlegible hsts (by simp) hpassed hrest, withLead, ofList_toList]

lemma squeezeRun_squeezeRun (w : List Char) : squeezeRun (squeezeRun w) = squeezeRun w := by
  by_cases hfeed : '\n' ∈ w
  · obtain ⟨line, rest, rfl, hline, ⟨-, hrun⟩ | ⟨-, hrun⟩⟩ := squeezeRun_cases hfeed
    · rw [hrun, hrun]
    · have hlast : lastLine ('\n' :: lastLine rest) = lastLine rest := by
        rw [← nil_append ('\n' :: _), lastLine_append, lastLine_line (oneLine_lastLine rest)]
      rw [hrun, squeezeRun_more hline mem_cons_self, hlast]
  · rw [squeezeRun_oneLine hfeed, squeezeRun_oneLine hfeed]

def isSqueezed (t : Token) : Prop :=
  respaced squeezeRun t = t

lemma isSqueezed_respaced (t : Token) : isSqueezed (respaced squeezeRun t) := by
  have htext := runChange_squeezeRun.respace_respace squeezeRun_squeezeRun spaces_nil t.text.toList
  simp only [isSqueezed, respaced, toList_ofList, squeezeRun_squeezeRun, htext]

lemma isSqueezed_withLead (h : isSqueezed t) : isSqueezed (t.withLead []) := by
  have htext : ofList (respace squeezeRun [] t.text.toList) = t.text := congrArg text h
  rw [isSqueezed, respaced, lead_withLead, text_withLead, htext]
  rfl

lemma isSqueezed_trimEnd (hreads : Token.Reads t rest) (hs : t.Solid) (h : isSqueezed t) :
    isSqueezed ⟨t.kind, t.lead, ofList (dropWhileEnd isSpace t.text.toList)⟩ := by
  by_cases hline : t.isLineComment
  · have hone := (hs.oneLine hline).not_mem
    have hone' : '\n' ∉ dropWhileEnd isSpace t.text.toList := fun hmem => hone ((Text.dropWhileEnd_prefix _ _).subset hmem)
    have hlead : ofList (squeezeRun t.lead.toList) = t.lead := congrArg lead h
    rw [isSqueezed, respaced, hlead, toList_ofList, runChange_squeezeRun.respace_oneLine (by simp) hone', nil_append]
  · rwa [trimEnd_text hreads hs (by simpa using hline), ofList_toList]

lemma isSqueezed_trimLast (hlegible : Token.Legible ts tail) (hsolid : ∀ t ∈ ts, t.Solid)
    (h : ∀ t ∈ ts, isSqueezed t) : ∀ t ∈ trimLast ts, isSqueezed t := by
  induction ts with
  | nil => exact h
  | cons t ts ih =>
    obtain ⟨-, hreads, hlegible⟩ := hlegible
    obtain ⟨hst, hsts⟩ := forall_mem_cons.1 hsolid
    obtain ⟨ht, hts⟩ := forall_mem_cons.1 h
    cases ts with
    | nil => exact forall_mem_singleton.2 (isSqueezed_trimEnd hreads hst ht)
    | cons u ts => exact forall_mem_cons.2 ⟨ht, ih hlegible hsts hts⟩

lemma isSqueezed_trimStream (h : x.Neat) (hsqueezed : ∀ t ∈ x.tokens, isSqueezed t) :
    ∀ t ∈ (trimStream x).tokens, isSqueezed t := by
  obtain ⟨tokens, tail⟩ := x
  obtain ⟨hlegible, hsolid⟩ := h
  cases tokens with
  | nil => exact hsqueezed
  | cons t ts =>
    obtain ⟨hst, hsts⟩ := forall_mem_cons.1 hsolid
    obtain ⟨ht, hts⟩ := forall_mem_cons.1 hsqueezed
    exact isSqueezed_trimLast (hlegible.withLead (by simp [Token.Blank])) (forall_mem_cons.2 ⟨hst.withLead [], hsts⟩)
      (forall_mem_cons.2 ⟨isSqueezed_withLead ht, hts⟩)

lemma trimLast_cons (t : Token) (h : ts ≠ []) : trimLast (t :: ts) = t :: trimLast ts := by
  cases ts with
  | nil => exact absurd rfl h
  | cons u ts => rfl

lemma trimLast_ne_nil (h : ts ≠ []) : trimLast ts ≠ [] := by
  cases ts with
  | nil => exact absurd rfl h
  | cons t ts => cases ts <;> simp [trimLast]

lemma trimLast_trimLast (ts : List Token) : trimLast (trimLast ts) = trimLast ts := by
  induction ts with
  | nil => rfl
  | cons t ts ih =>
    cases ts with
    | nil => simp only [trimLast, toList_ofList, dropWhileEnd_eq_self (getLast?_dropWhileEnd _ _)]
    | cons u ts =>
      have hne : u :: ts ≠ [] := cons_ne_nil _ _
      rw [trimLast_cons t hne, trimLast_cons t (trimLast_ne_nil hne), ih]

lemma trimEnds_trimEnds (ts : List Token) : trimEnds (trimEnds ts) = trimEnds ts := by
  cases ts with
  | nil => rfl
  | cons t ts =>
    cases ts with
    | nil => exact trimLast_trimLast [t.withLead []]
    | cons u ts =>
      have hne : u :: ts ≠ [] := cons_ne_nil _ _
      rw [trimEnds, trimLast_cons _ hne, trimEnds, trimLast_cons _ (trimLast_ne_nil hne), trimLast_trimLast]
      rfl

/-! ## All passes -/

structure Normal (x : Stream) : Prop where
  feeds : '\r' ∉ x.chars
  standing : Standing none (conditionFlags false x.tokens) x.tokens
  settled : settled (rowsOf x.tokens)
  spaced : spacedTokens none none x.tokens = x.tokens
  squeezed : ∀ t ∈ x.tokens, isSqueezed t
  trimmed : trimEnds x.tokens = x.tokens
  tail : x.tail = []

lemma unifyStream_eq_self (h : '\r' ∉ x.chars) : unifyStream x = x := by
  rw [Stream.chars, mem_append, not_or] at h
  have htokens : x.tokens.map unifyToken = x.tokens := by
    refine (map_congr_left fun t ht => ?_).trans (map_id _)
    have hchars (c : Char) (hc : c ∈ t.lead.toList ∨ c ∈ t.text.toList) : c ∈ chars x.tokens :=
      mem_flatMap.2 ⟨t, ht, by simpa [spelling] using hc⟩
    rw [unifyToken, unifyBreaks_eq_self fun hmem => h.1 (hchars _ (.inl hmem)),
      unifyBreaks_eq_self fun hmem => h.1 (hchars _ (.inr hmem)), ofList_toList, ofList_toList]
    rfl
  rw [unifyStream, htokens, unifyBreaks_eq_self h.2]

lemma Normal.formatStream_eq (h : Normal x) : formatStream x = x := by
  have hplace : placeStream (flatStream x) = x := by
    have htokens := placeTokens_flatTokens (s := none) h.standing
    have htail : placeTail none (flatStream x).tokens [] = [] := by
      rw [placeTail]
      split <;> rfl
    rw [placeStream, flatStream, htokens, h.tail]
    rw [flatStream] at htail
    rw [htail, ← h.tail]
  have hspace : spaceStream x = x := by rw [spaceStream, h.spaced, h.tail, strip_line (by simp [OneLine]), ← h.tail]
  have hsqueeze : squeezeStream x = x := by rw [squeezeStream, map_congr_left h.squeezed, map_id']
  have htrim : trimStream x = x := by rw [trimStream, h.trimmed, ← h.tail]
  rw [formatStream, unifyStream_eq_self h.feeds, hplace, joinStream_eq_self h.settled, hspace, hsqueeze, htrim]

lemma conditionFlags_relaid (h : x.Neat) (hr : x.Relaid y) :
    conditionFlags false y.tokens = conditionFlags false x.tokens :=
  conditionFlags_congr (Relaid.map_eq hr h.legible h.solid fun _ _ _ hkin hs hreads => conditionView_eq hkin hs hreads)

lemma conditionFlags_laid (h : Relation.ReflTransGen Stream.Relaid x y) (hx : Ready x) :
    conditionFlags false y.tokens = conditionFlags false x.tokens := by
  induction h with
  | refl => rfl
  | tail hlaid hr ih => rw [conditionFlags_relaid (ready_laid hlaid hx).neat hr, ih]

lemma feedsApart_relaid (h : Relaid tail tail' p ts us) (hlegible : Token.Legible ts tail)
    (hsolid : ∀ t ∈ ts, t.Solid) {s : Option Mark} {flags : List Bool}
    (hfeeds : feedsApart s flags ts) : feedsApart s flags us := by
  induction h generalizing s flags with
  | nil => exact hfeeds
  | cons hkin hlead hgap h ih =>
    obtain ⟨-, hreads, hlegible⟩ := hlegible
    obtain ⟨hst, hsts⟩ := forall_mem_cons.1 hsolid
    cases flags with
    | nil => rfl
    | cons flag flags =>
      rename_i t u ts us
      have hmem : '\x0c' ∈ u.lead.toList → '\x0c' ∈ t.lead.toList := fun hmem => by simpa using hlead _ hmem
      rw [feedsApart, Bool.and_eq_true] at hfeeds
      rw [feedsApart, Bool.and_eq_true, markOf_kin hkin hst hreads]
      refine ⟨?_, ih hlegible hsts hfeeds.2⟩
      have hfirst := hfeeds.1
      simp only [Bool.or_eq_true, Bool.not_eq_true', ← Bool.not_eq_true, contains_iff_mem] at hfirst ⊢
      exact hfirst.imp_right fun hnot hu => hnot (hmem hu)

lemma Standing.relaid {flags : List Bool} (hx : x.Neat) (hr : x.Relaid y)
    (h : Token.Along Tidies (fun _ => True) none x.tokens y.tokens) (hstanding : Standing none flags x.tokens) :
    Standing none flags y.tokens := by
  have hy := hx.relaid hr
  exact Standing.tidied (s := none) h hx.legible hx.solid hy.legible hy.solid hstanding

lemma head?_conditionFlags (ts : List Token) : (conditionFlags false ts).head? ≠ some true := by
  cases ts with
  | nil => simp [conditionFlags]
  | cons t ts =>
    rw [conditionFlags]
    split <;> simp

lemma normal_formatStream (h : Ready x)
    (hfeeds : feedsApart none (conditionFlags false x.tokens) x.tokens) : Normal (formatStream x) := by
  have hunify := h.unify
  have hplace := hunify.flat.place
  have hjoin := hplace.join
  have hspace := hjoin.space
  have hsqueeze := hspace.squeeze
  have hflags := conditionFlags_relaid h.neat (relaid_unifyStream h.neat)
  have hspaceSteps := tidies_spaceStream hjoin.neat
  have hsqueezeSteps := trims_squeezeStream hspace.neat
  have htrimSteps := trims_trimStream hsqueeze.neat
  refine ⟨hsqueeze.trim.feeds, ?_, ?_, ?_, ?_, trimEnds_trimEnds _, rfl⟩
  · -- flattening and placing
    rw [conditionFlags_laid (laid_formatStream h) h, ← hflags]
    have hreturn : '\r' ∉ chars (unifyStream x).tokens := fun hmem => hunify.feeds (mem_append_left _ hmem)
    have hapart := feedsApart_relaid (relaid_unifyStream h.neat) h.neat.legible h.neat.solid hfeeds
    rw [← hflags] at hapart
    have hclear := clear_flatTokens hunify.neat.legible hunify.neat.solid hreturn (length_conditionFlags _ _)
      (fun _ => head?_conditionFlags _) hapart
    have hplaced := standing_placeTokens (s := none) hunify.flat.neat.legible hunify.flat.neat.solid hclear
    have hjoined := Standing.joined (s := none) (along_joinStream (placeStream (flatStream (unifyStream x)))) hplaced
    have hspaced := hjoined.relaid hjoin.neat hjoin.relaid_space hspaceSteps
    have hsqueezed := hspaced.relaid hspace.neat (relaid_squeezeStream hspace.neat) (tidies_of_trims hsqueezeSteps)
    exact hsqueezed.relaid hsqueeze.neat (relaid_trimStream hsqueeze.neat) (tidies_of_trims htrimSteps)
  · -- joining
    have hjoined := settled_joinStream (placeStream (flatStream (unifyStream x)))
    have hspaced := settled_tidied hspaceSteps hjoin hspace.neat hjoined
    have hsqueezed := settled_tidied (tidies_of_trims hsqueezeSteps) hspace hsqueeze.neat hspaced
    exact settled_tidied (tidies_of_trims htrimSteps) hsqueeze hsqueeze.trim.neat hsqueezed
  · -- spacing
    have hspaced := spacedTokens_spacedTokens none none (joinStream (placeStream (flatStream (unifyStream x)))).tokens
    have hsqueezed := spacedTokens_trimmed hsqueezeSteps hspace.neat.legible hspace.neat.solid (fun _ => rfl) rfl hspaced
    exact spacedTokens_trimmed htrimSteps hsqueeze.neat.legible hsqueeze.neat.solid (fun _ => rfl) rfl hsqueezed
  · -- squeezing
    refine isSqueezed_trimStream hsqueeze.neat fun t ht => ?_
    obtain ⟨u, -, rfl⟩ := mem_map.1 ht
    exact isSqueezed_respaced u

/-- Laying out a text twice is laying it out once, if its comments and literals are closed, its code has no spaces but
blanks, no sign in a unary place makes a longer operator with the token behind it, and no form feed stands next to a brace
in a condition. -/
theorem format_format {s : String} (hclosed : ∀ t ∈ Token.ofString s, t.isClosed = true) (hspaceless : Code.Spaceless s)
    (hsigns : signsApart none none (Token.ofString s) = true)
    (hfeeds : feedsApart none (conditionFlags false (Token.ofString s)) (Token.ofString s) = true) : format (format s) = format s := by
  have hready : Ready (Stream.ofChars s.toList) := ⟨Stream.neat_ofChars hclosed hspaceless, hsigns⟩
  have honce := format_chars hready (Stream.chars_ofChars _)
  have hready' := ready_laid (laid_formatStream hready) hready
  rw [← toList_inj, format_chars hready' honce.symm, (normal_formatStream hready hfeeds).formatStream_eq, honce]

/-- A wrapped condition with braces in it, a wrapped assignment with a sign, a comment and empty lines. -/
def bracedCode : String :=
  "if(a \x7b\nb\x7d\n) \x7bx=-a\n+2; \x7d // c \n\n\nelse\ty"

theorem format_format_braced :
    signsApart none none (Token.ofString bracedCode) = true ∧
      feedsApart none (conditionFlags false (Token.ofString bracedCode)) (Token.ofString bracedCode) = true ∧
      format (format bracedCode) = format bracedCode := by
  have hclosed : (Token.ofString bracedCode).all isClosed = true := by decide +kernel
  have hspaceless : Code.Spaceless bracedCode := by decide +kernel
  have hsigns : signsApart none none (Token.ofString bracedCode) = true := by decide +kernel
  have hfeeds : feedsApart none (conditionFlags false (Token.ofString bracedCode)) (Token.ofString bracedCode) = true := by decide +kernel
  exact ⟨hsigns, hfeeds, format_format (all_eq_true.1 hclosed) hspaceless hsigns hfeeds⟩

/-- Signs that make a longer operator, a form feed next to a brace in a condition, and a vertical tab in the code: the
second layout is another one. -/
theorem not_format_format_once :
    format (format "+ ++x") ≠ format "+ ++x" ∧ format (format "if(\x7b\x0cx)") ≠ format "if(\x7b\x0cx)" ∧
      format (format "\x7b\x0b\x7b") ≠ format "\x7b\x0b\x7b" := by
  decide +kernel

end DeviceForge.Layout
