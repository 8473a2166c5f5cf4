import DeviceForge.Proofs.Layout.EmptyLines
/-!
# Spacing keeps the tokens apart

`spaceOperators` gives every token another lead and leaves the tokens alone.
-/

namespace DeviceForge.Layout

open String Text List Option Lexeme Token

variable {line gap tail rest tail' : List Char} {x : Stream} {previous sign previous' p sign' : Option Token}
  {t s u : Token} {ts us : List Token}

@[irreducible] def strip (gap : List Char) : List Char :=
  (stripGap (ofList gap)).toList

lemma strip_toList (gap : String) : strip gap.toList = (stripGap gap).toList := by
  rw [strip, ofList_toList]

lemma strip_line (h : OneLine line) : strip line = line := by
  rw [strip, stripGap, toList_ofList, splitAtChars_line h]
  simp

lemma strip_append (h : OneLine line) (rest : List Char) :
    strip (line ++ '\n' :: rest) = dropWhileEnd isTab line ++ '\n' :: strip rest := by
  have hne := splitAtChars_ne_nil (· == '\n') rest
  rw [strip, strip, stripGap, stripGap, toList_ofList, toList_ofList, splitAtChars_append h]
  generalize splitAtChars (· == '\n') rest = lines at hne
  obtain ⟨lines, last, rfl⟩ : ∃ as a, lines = as ++ [a] := by
    rcases eq_nil_or_concat lines with h | ⟨as, a, h⟩
    · exact absurd h hne
    · exact ⟨as, a, by rw [h, concat_eq_append]⟩
  have hlast : (line :: (lines ++ [last])).dropLast = line :: lines := by rw [← cons_append, dropLast_concat]
  have hget : (line :: (lines ++ [last])).getLast? = some last := by rw [← cons_append, getLast?_concat]
  simp only [hlast, hget, dropLast_concat, getLast?_concat, map_cons, toList_some, cons_append,
    toList_intercalate, List.map_map]
  rw [List.intercalate_cons_of_ne_nil (by simp)]
  have htab : (fun c => decide (c = ' ') || decide (c = '\t')) = isTab := rfl
  simp [htab]

lemma reuses_strip (gap : List Char) : Reuses gap (strip gap) := by
  induction gap using lineInduction with
  | last line h =>
    rw [strip_line h]
    exact Reuses.refl line
  | more line rest h ih =>
    rw [strip_append h]
    refine Reuses.append (fun c hc => .inl ((Text.dropWhileEnd_prefix _ _).subset hc)) ?_
    exact Reuses.append (Reuses.refl ['\n']) ih

lemma mem_strip (gap : List Char) : '\n' ∈ strip gap ↔ '\n' ∈ gap := by
  refine ⟨fun h => ?_, fun h => ?_⟩
  · by_contra hone
    rw [strip_line hone] at h
    exact hone h
  · obtain ⟨line, rest, rfl, hline⟩ := exists_line h
    rw [strip_append hline]
    simp

lemma breaksOff_strip (h : BreaksOff gap) (hreturn : '\r' ∉ gap) : BreaksOff (strip gap) := by
  cases gap with
  | nil => rwa [strip_line (by simp [OneLine])]
  | cons c gap =>
    have hc := h c rfl
    simp only [isLineBreak, Bool.or_eq_true, decide_eq_true_eq] at hc
    rcases hc with rfl | rfl
    · have := strip_append (by simp [OneLine] : OneLine []) gap
      rw [nil_append] at this
      rw [this]
      exact h
    · exact absurd mem_cons_self hreturn

/-! ## Streams -/

def role (previous : Option Token) (t : Token) : Role :=
  if t.isComment then .plain else roleOf previous t

def passed (previous : Option Token) (t : Token) : Option Token :=
  if t.isComment then previous else some t

def gapOf (left : Option Role) (right : Role) (lead : String) : String :=
  match left with
  | none => lead
  | some left => spaced left right lead

def spacedTokens (left : Option Role) (previous : Option Token) : List Token → List Token
  | [] => []
  | t :: ts =>
    t.withLead (gapOf left (role previous t) t.lead).toList ::
      spacedTokens (some (role previous t)) (passed previous t) ts

def spaceStream (x : Stream) : Stream :=
  ⟨spacedTokens none none x.tokens, strip x.tail⟩

lemma toList_join_spaceTokens (left : Option Role) (previous : Option Token) (ts : List Token) :
    (String.join (spaceTokens left previous ts)).toList = Token.chars (spacedTokens left previous ts) := by
  induction ts generalizing left previous with
  | nil => rfl
  | cons t ts ih =>
    simp only [spaceTokens, join_cons, toList_append, spacedTokens, chars_cons, lead_withLead,
      text_withLead, List.append_assoc, ih]
    cases left <;> rfl

lemma spaceOperators_chars (h : x.Neat) : spaceOperators x.chars = (spaceStream x).chars := by
  rw [spaceOperators, h.scan]
  simp only [toList_append, toList_join_spaceTokens, spaceStream, Stream.chars, strip]

def signsPart (sign previous : Option Token) : List Token → Bool
  | [] => true
  | t :: ts =>
    let right := role previous t
    (sign.all fun s => right = .binary || t.lead.toList.contains '\n' ||
        operator (s.text.toList ++ t.text.toList) = 1) &&
      signsPart (if right = .unary then some t else none) (passed previous t) ts

lemma isSign_of_unary (h : role previous t = .unary) : t.IsSign := by
  unfold role roleOf at h
  split at h
  · cases h
  split at h
  · rename_i hpunct
    simp only [Bool.and_eq_true, decide_eq_true_eq] at hpunct
    split at h
    · rename_i hsign
      simp only [Bool.and_eq_true, Bool.or_eq_true, decide_eq_true_eq] at hsign
      exact ⟨hpunct.1, or_assoc.1 hsign.1⟩
    · cases h
  · cases h

lemma spaced_cases (left right : Role) (gap : String) :
    '\n' ∈ gap.toList ∧ (spaced left right gap).toList = strip gap.toList ∨
    '\n' ∉ gap.toList ∧ ((left = .binary ∨ right = .binary) ∧ spaced left right gap = " " ∨
      left = .unary ∧ right ≠ .binary ∧ spaced left right gap = "" ∨
      left = .plain ∧ right ≠ .binary ∧ spaced left right gap = gap) := by
  unfold spaced
  by_cases hfeed : '\n' ∈ gap.toList
  · exact .inl ⟨hfeed, by simp [hfeed, strip_toList]⟩
  · refine .inr ⟨hfeed, ?_⟩
    cases left <;> cases right <;> simp [hfeed]

lemma reuses_gapOf (left : Option Role) (right : Role) (lead : String) :
    Reuses lead.toList (gapOf left right lead).toList := by
  cases left with
  | none => exact Reuses.refl _
  | some left =>
    rw [gapOf]
    rcases spaced_cases left right lead with ⟨-, h⟩ | ⟨-, ⟨-, h⟩ | ⟨-, -, h⟩ | ⟨-, -, h⟩⟩
    · rw [h]
      exact reuses_strip _
    · rw [h]
      intro c hc
      exact .inr (.inl (by simpa using hc))
    · rw [h]
      intro c hc
      cases hc
    · rw [h]
      exact Reuses.refl _

lemma gap_spaced {left right : Role} (hline : s.isLineComment → t.lead.toList ≠ [] ∧ BreaksOff t.lead.toList)
    (hreturn : '\r' ∉ t.lead.toList) (hunary : left = .unary → right ≠ .binary → '\n' ∉ t.lead.toList → s.Parts t) :
    s.Gap t (t.withLead (spaced left right t.lead).toList) := by
  rcases spaced_cases left right t.lead with ⟨hfeed, h⟩ | ⟨hfeed, hcases⟩
  · rw [h]
    refine Token.Gap.of_lead (fun hnil => ?_) hline fun hbreak => ?_
    · rw [lead_withLead] at hnil
      simp [← mem_strip, hnil] at hfeed
    · rw [lead_withLead]
      exact breaksOff_strip hbreak hreturn
  · refine ⟨fun _ hnil => ?_, fun hcomment => absurd (mem_lead_of_breaksOff (hline hcomment) hreturn) hfeed⟩
    rw [lead_withLead] at hnil
    rcases hcases with ⟨-, h⟩ | ⟨hleft, hright, -⟩ | ⟨-, -, h⟩
    · simp [h] at hnil
    · exact .inr ((hunary hleft hright hfeed).withLead _)
    · rw [h] at hnil
      exact .inl hnil

lemma relaid_spaced (p : Option Token) (left : Option Role) (previous : Option Token)
    (hlegible : Legible ts tail) (hsolid : ∀ t ∈ ts, t.Solid)
    (hended : Token.Ended p (chars ts ++ tail)) (hreturn : '\r' ∉ chars ts ++ tail)
    (hleft : left = none → p = none) (hsign : left = some .unary → ∀ s ∈ p, s.IsSign)
    (hparts : signsPart (if left = some .unary then p else none) previous ts) :
    Relaid tail (strip tail) p ts (spacedTokens left previous ts) := by
  induction ts generalizing p left previous with
  | nil =>
    refine .nil (reuses_strip tail) fun s hs h => breaksOff_strip (hended s hs h) ?_
    simpa using hreturn
  | cons t ts ih =>
    obtain ⟨hst, hsts⟩ := forall_mem_cons.1 hsolid
    have hlead := hended.lead hlegible
    obtain ⟨-, hreads, hlegible⟩ := hlegible
    rw [chars_cons, List.append_assoc, mem_append, not_or, mem_append, not_or] at hreturn
    obtain ⟨⟨hreturn, -⟩, hreturns⟩ := hreturn
    rw [signsPart, Bool.and_eq_true] at hparts
    refine .cons (hst.kin_withLead _) ?_ (fun s hs => ?_) ?_
    · rw [lead_withLead]
      exact reuses_gapOf left (role previous t) t.lead
    · cases left with
      | none =>
        simp [hleft rfl] at hs
      | some left =>
        refine gap_spaced (hlead s hs) hreturn fun hunary hbinary hfeed => ?_
        subst hunary
        obtain rfl : p = some s := hs
        exact ⟨hsign rfl s rfl, by simpa [hbinary, hfeed] using hparts.1⟩
    · refine ih _ _ _ hlegible hsts (ended_of_reads hreads) hreturns (fun h => by cases h) (fun h s hs => ?_) ?_
      · obtain rfl : t = s := by simpa using hs
        exact isSign_of_unary (some.inj h)
      · simpa using hparts.2

lemma relaid_spaceStream (h : x.Neat) (hreturn : '\r' ∉ x.chars)
    (hparts : signsPart none none x.tokens) : x.Relaid (spaceStream x) := by
  have hnone : signsPart (if (none : Option Role) = some .unary then none else none) none x.tokens := by
    simpa using hparts
  have hsign : (none : Option Role) = some .unary → ∀ s ∈ (none : Option Token), s.IsSign := by
    intro _ s hs
    cases hs
  exact relaid_spaced none none none h.legible h.solid (ended_none _) hreturn (fun _ => rfl) hsign hnone

/-! ## Signs in any layout -/

/-- Each operator in a unary place stays an operator by itself if the token behind it is moved up to it, wherever lines
end; `sign` is such an operator before the tokens. -/
def signsApart (sign previous : Option Token) : List Token → Bool
  | [] => true
  | t :: ts =>
    (sign.all fun s => role previous t = .binary || operator (s.text.toList ++ t.text.toList) = 1) &&
      signsApart (if role previous t = .unary then some t else none) (passed previous t) ts

lemma signsPart_of_signsApart (h : signsApart sign previous ts) : signsPart sign previous ts := by
  induction ts generalizing sign previous with
  | nil => rfl
  | cons t ts ih =>
    rw [signsApart, Bool.and_eq_true] at h
    rw [signsPart, Bool.and_eq_true]
    refine ⟨?_, ih h.2⟩
    cases sign with
    | none => rfl
    | some s =>
      have := h.1
      simp only [all_some, Bool.or_eq_true] at this ⊢
      exact this.imp_left .inl

lemma role_kin (h : t.Kin u) (hs : t.Solid) (hprevious : opensOperand previous' = opensOperand previous) :
    role previous' u = role previous t := by
  have hcomment : u.isComment = t.isComment := by rw [isComment, h.kind, isComment]
  rw [role, role, hcomment, roleOf, roleOf, h.kind, hprevious]
  by_cases hpunct : t.kind = .punct
  · rw [h.text_eq hs (by rw [hpunct]; rfl)]
  · simp [hpunct]

lemma head_operandWords : ∀ word ∈ operandWords, ∃ c cs, word.toList = c :: cs ∧ c ≠ '"' ∧ c ≠ '\'' ∧ c ≠ '/' := by
  have hall : operandWords.all (fun word => word.toList.head?.any fun c => c ≠ '"' && c ≠ '\'' && c ≠ '/') := by decide
  intro word hword
  have hhead := all_eq_true.1 hall word hword
  cases htext : word.toList with
  | nil => simp [htext] at hhead
  | cons c cs =>
    simp only [htext, head?_cons, any_some, Bool.and_eq_true, decide_eq_true_eq] at hhead
    exact ⟨c, cs, rfl, hhead.1.1, hhead.1.2, hhead.2⟩

lemma opensOperand_kin (h : t.Kin u) (hs : t.Solid) (hreads : Token.Reads t rest) :
    opensOperand (some u) = opensOperand (some t) := by
  rw [opensOperand, opensOperand, h.kind]
  by_cases hpunct : t.kind = .punct
  · rw [h.text_eq hs (by rw [hpunct]; rfl)]
  · rw [if_neg hpunct, if_neg hpunct, Bool.eq_iff_iff, contains_iff_mem, contains_iff_mem]
    constructor <;> intro hmem
    · obtain ⟨c, cs, hword, hc⟩ := head_operandWords _ hmem
      rwa [← (h.text_eq_iff hs hreads hword hc).1 rfl] at hmem
    · obtain ⟨c, cs, hword, hc⟩ := head_operandWords _ hmem
      rwa [(h.text_eq_iff hs hreads hword hc).2 rfl]

lemma operator_sign (hsign : s.IsSign) (hreads : Token.Reads t rest) (hcode : t.kind.segment ≠ .code) :
    operator (s.text.toList ++ t.text.toList) = 1 := by
  obtain ⟨d, ds, htext, hd⟩ : ∃ d ds, t.text.toList = d :: ds ∧ (d = '"' ∨ d = '\'' ∨ d = '/') := by
    rcases reads_cases hreads with h | ⟨quote, cs, hq, htext, -⟩ | ⟨cs, -, htext, -⟩ | ⟨cs, -, htext, -⟩
    · exact absurd h hcode
    · refine ⟨quote, cs, htext, ?_⟩
      rcases hq with ⟨-, h⟩ | ⟨-, h⟩ <;> simp [h]
    · exact ⟨_, _, htext, by simp⟩
    · exact ⟨_, _, htext, by simp⟩
  rw [htext, operator_eq_one_iff]
  rcases hsign.2 with h | h | h <;> rcases hd with rfl | rfl | rfl <;> simp [h, longOperators, shortOperators]

lemma signsApart_relaid (h : Relaid tail tail' p ts us) (hlegible : Legible ts tail)
    (hsolid : ∀ t ∈ ts, t.Solid) (hsign : ∀ s ∈ sign, s.IsSign) (hsigns : sign'.map text = sign.map text)
    (hprevious : opensOperand previous' = opensOperand previous) :
    signsApart sign' previous' us = signsApart sign previous ts := by
  induction h generalizing sign sign' previous previous' with
  | nil => rfl
  | cons hkin hlead hgap h ih =>
    rename_i p t u ts us
    have hreads' := ((Relaid.cons hkin hlead hgap h).legible hlegible hsolid).1.2.1
    obtain ⟨-, hreads, hlegible⟩ := hlegible
    obtain ⟨hst, hsts⟩ := forall_mem_cons.1 hsolid
    have hrole := role_kin hkin hst hprevious
    have hcomment : u.isComment = t.isComment := by rw [isComment, hkin.kind, isComment]
    have hoperator {s s' : Token} (hs : s.IsSign) (htext : s'.text = s.text) :
        operator (s'.text.toList ++ u.text.toList) = operator (s.text.toList ++ t.text.toList) := by
      rw [htext]
      by_cases hcode : t.kind.segment = .code
      · rw [hkin.text_eq hst hcode]
      · rw [operator_sign hs hreads hcode, operator_sign hs hreads' (by rwa [hkin.kind])]
    rw [signsApart, signsApart, hrole]
    refine congrArg₂ _ ?_ (ih hlegible hsts ?_ ?_ ?_)
    · cases sign with
      | none =>
        obtain rfl : sign' = none := by simpa using hsigns
        rfl
      | some s =>
        obtain ⟨s', rfl, htext⟩ : ∃ s', sign' = some s' ∧ s'.text = s.text := by simpa using hsigns
        simp only [all_some, hoperator (hsign s rfl) htext]
    · intro s hs
      split_ifs at hs with hunary
      · obtain rfl : t = s := by simpa using hs
        exact isSign_of_unary hunary
      · cases hs
    · split_ifs with hunary
      · have hpunct := (isSign_of_unary hunary).1
        rw [map_some, map_some, hkin.text_eq hst (by rw [hpunct]; rfl)]
      · rfl
    · rw [passed, passed, hcomment]
      split
      · exact hprevious
      · exact opensOperand_kin hkin hst hreads

end DeviceForge.Layout

/-! # One kind of line break -/

namespace DeviceForge.Layout

open List String Token Lexeme

variable {cs tail : List Char} {t : Token} {ts : List Token} {x : Stream}

lemma unifyBreaks_cons {c : Char} (h : ¬(c = '\r' ∧ cs.head? = some '\n')) :
    unifyBreaks (c :: cs) = (if c = '\r' then '\n' else c) :: unifyBreaks cs := by
  rw [unifyBreaks]
  rintro ds rfl rfl
  exact h ⟨rfl, rfl⟩

lemma unifyBreaks_append (cs ds : List Char) (h : cs.getLast? ≠ some '\r' ∨ ds.head? ≠ some '\n') :
    unifyBreaks (cs ++ ds) = unifyBreaks cs ++ unifyBreaks ds := by
  fun_induction unifyBreaks cs with
  | case1 => rfl
  | case2 cs ih =>
    rw [cons_append, cons_append, unifyBreaks, cons_append, ih]
    refine h.imp_left fun hlast hcs => hlast ?_
    rw [getLast?_cons_cons, getLast?_cons, hcs]
    rfl
  | case3 c cs hne ih =>
    rw [cons_append, unifyBreaks_cons, cons_append, ih]
    · refine h.imp_left fun hlast hcs => hlast ?_
      rw [getLast?_cons, hcs]
      rfl
    · rintro ⟨rfl, hhead⟩
      cases cs with
      | nil => exact h.elim (fun h => h rfl) (fun h => h hhead)
      | cons d cs =>
        obtain rfl : d = '\n' := by simpa using hhead
        exact hne cs rfl rfl

lemma unifyBreaks_eq_self (h : '\r' ∉ cs) : unifyBreaks cs = cs := by
  fun_induction unifyBreaks cs with
  | case1 => rfl
  | case2 cs ih => exact absurd mem_cons_self h
  | case3 c cs hne ih =>
    rw [mem_cons, not_or] at h
    rw [if_neg (Ne.symm h.1), ih h.2]

lemma not_mem_unifyBreaks (cs : List Char) : '\r' ∉ unifyBreaks cs := by
  fun_induction unifyBreaks cs with
  | case1 => simp
  | case2 cs ih => simpa using ih
  | case3 c cs hne ih =>
    rw [mem_cons, not_or]
    refine ⟨?_, ih⟩
    split
    · decide
    · exact fun h => absurd h.symm ‹_›

lemma reuses_unifyBreaks (cs : List Char) : Text.Reuses cs (unifyBreaks cs) := by
  intro c hc
  fun_induction unifyBreaks cs with
  | case1 => cases hc
  | case2 cs ih => grind
  | case3 d cs hne ih => grind

lemma alike_unifyBreaks (cs : List Char) : Text.Alike cs (unifyBreaks cs) := by
  have hspaces {w : List Char} (h : w.all Text.isSpace) : Text.Spaces w := all_eq_true.1 h
  fun_induction unifyBreaks cs with
  | case1 => exact .nil
  | case2 cs ih => exact .run (v := ['\r', '\n']) (w := ['\n']) (hspaces rfl) (hspaces rfl) (by simp) (by simp) ih
  | case3 c cs hne ih =>
    by_cases hc : Text.isSpace c
    · refine .run (v := [c]) (w := [if c = '\r' then '\n' else c]) (hspaces (by simpa using hc)) (hspaces ?_) (by simp) (by simp) ih
      split
      · rfl
      · simpa using hc
    · rw [Bool.not_eq_true] at hc
      rw [if_neg (by rintro rfl; cases hc)]
      exact .char hc ih

def unifyToken (t : Token) : Token :=
  ⟨t.kind, ofList (unifyBreaks t.lead.toList), ofList (unifyBreaks t.text.toList)⟩

def unifyStream (x : Stream) : Stream :=
  ⟨x.tokens.map unifyToken, unifyBreaks x.tail⟩

lemma not_mem_of_onOneLine (h : t.OnOneLine) : '\r' ∉ t.text.toList :=
  fun hmem => absurd (h _ hmem) (by decide)

lemma kin_unifyToken (hs : t.Solid) : t.Kin (unifyToken t) := by
  have hsame (h : t.OnOneLine) : (unifyToken t).text = t.text := by
    rw [unifyToken, unifyBreaks_eq_self (not_mem_of_onOneLine h), ofList_toList]
  refine ⟨rfl, fun _ => ?_, fun hline => ?_, fun _ => hsame, ?_⟩
  · rw [unifyToken, toList_ofList]
    exact alike_unifyBreaks _
  · have htext := hsame (hs.oneLine hline)
    rw [OnOneLine, htext]
    exact ⟨by rwa [isLineComment, htext], hs.oneLine hline⟩
  · rw [unifyToken, toList_ofList]
    exact reuses_unifyBreaks _

lemma unifyBreaks_eq_nil (h : unifyBreaks cs = []) : cs = [] := by
  have := (alike_unifyBreaks cs).isEmpty_eq
  rw [h] at this
  exact isEmpty_iff.1 this

lemma breaksOff_unifyBreaks (h : BreaksOff cs) : BreaksOff (unifyBreaks cs) := by
  fun_cases unifyBreaks cs with
  | case1 => exact h
  | case2 cs => simp [BreaksOff, isLineBreak]
  | case3 c cs hne =>
    have := h c rfl
    simp only [BreaksOff, head?_cons, Option.mem_def, Option.some.injEq, forall_eq']
    split
    · rfl
    · exact this

lemma relaid_unify {p : Option Token} (hlegible : Legible ts tail) (hsolid : ∀ t ∈ ts, t.Solid)
    (hended : Token.Ended p (chars ts ++ tail)) : Relaid tail (unifyBreaks tail) p ts (ts.map unifyToken) := by
  induction ts generalizing p with
  | nil => exact .nil (reuses_unifyBreaks tail) fun s hs hline => breaksOff_unifyBreaks (hended s hs hline)
  | cons t ts ih =>
    obtain ⟨hst, hsts⟩ := forall_mem_cons.1 hsolid
    have hlead := hended.lead hlegible
    obtain ⟨-, hreads, hlegible⟩ := hlegible
    have hunify : (unifyToken t).lead.toList = unifyBreaks t.lead.toList := toList_ofList
    refine .cons (kin_unifyToken hst) (hunify ▸ reuses_unifyBreaks _) (fun s hs => ?_)
      (ih hlegible hsts (ended_of_reads hreads))
    refine Token.Gap.of_lead (fun h => unifyBreaks_eq_nil (hunify ▸ h)) (hlead s hs) fun h => ?_
    rw [hunify]
    exact breaksOff_unifyBreaks h

lemma relaid_unifyStream (h : x.Neat) : x.Relaid (unifyStream x) :=
  relaid_unify h.legible h.solid (ended_none _)

lemma chars_unify (hlegible : Legible ts tail) :
    unifyBreaks (chars ts ++ tail) = chars (ts.map unifyToken) ++ unifyBreaks tail := by
  induction ts with
  | nil => rfl
  | cons t ts ih =>
    obtain ⟨-, hreads, hlegible⟩ := hlegible
    obtain ⟨c, cs, htext, hc, -⟩ := id hreads
    -- only at the end of a text a token may end in a carriage return
    have hlast : t.text.toList.getLast? ≠ some '\r' ∨ (chars ts ++ tail).head? ≠ some '\n' := by
      by_cases hrest : chars ts ++ tail = []
      · exact .inr (by simp [hrest])
      · exact .inl fun h => absurd (not_lineBreak_of_isClosed hreads (isClosed_of_reads hreads hrest) h) (by decide)
    have hhead : (t.text.toList ++ (chars ts ++ tail)).head? ≠ some '\n' := by
      rw [htext]
      rintro h
      obtain rfl : c = '\n' := by simpa using h
      cases hc
    rw [chars_cons, List.append_assoc, List.append_assoc, unifyBreaks_append _ _ (.inr hhead),
      unifyBreaks_append _ _ hlast, ih hlegible, map_cons, chars_cons]
    simp [unifyToken]

lemma chars_unifyStream (h : x.Neat) : unifyBreaks x.chars = (unifyStream x).chars :=
  chars_unify h.legible

end DeviceForge.Layout
