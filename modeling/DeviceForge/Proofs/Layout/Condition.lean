import DeviceForge.Proofs.Layout.EmptyLines
/-!
# Conditions among tokens

`flattenConditions` finds the condition of an `if` by its tokens and the end of the condition by counting brackets in
the characters, and flattens the conditions one inside the other.
-/

namespace DeviceForge.Layout

open Code Token List Text Segment String

variable {w rest tail cs : List Char} {c : Char} {t u : Token} {ts us : List Token} {level n : Nat}
  {flags : List Bool} {s : Option Token} {x : Stream}

def flatRun (w : List Char) : List Char :=
  if w.contains '\n' then [' '] else w

def flatIf (flag : Bool) (t : Token) : Token :=
  if flag then t.respaced flatRun else t

/-- The flags of tokens behind an opening parenthesis once its condition is flattened. -/
def markCondition (ts : List Token) (flags : List Bool) : List Bool :=
  match Code.closingIn .round 1 ts with
  | none => flags
  | some n => if (ts.take n).any isLineComment then flags else List.replicate (n + 1) true ++ flags.drop (n + 1)

/-- For each token, whether it stands in a condition that is flattened, its closing parenthesis included; `afterIf`
tells that the last token that is no comment is an `if`. -/
def conditionFlags (afterIf : Bool) : List Token → List Bool
  | [] => []
  | t :: ts =>
    if t.isComment then false :: conditionFlags afterIf ts
    else
      let flags := conditionFlags (t.text = "if") ts
      false :: if afterIf && t.text = "(" then markCondition ts flags else flags

def flatTokens (flags : List Bool) (ts : List Token) : List Token :=
  zipWith flatIf flags ts

def flatStream (x : Stream) : Stream :=
  ⟨flatTokens (conditionFlags false x.tokens) x.tokens, x.tail⟩

lemma flatRun_of_oneLine (h : '\n' ∉ w) : flatRun w = w := by
  simp [flatRun, h]

lemma oneLine_flatRun (w : List Char) : '\n' ∉ flatRun w := by
  unfold flatRun
  split
  · decide
  · rename_i h
    simpa using h

lemma flatRun_eq_nil (h : flatRun w = []) : w = [] := by
  unfold flatRun at h
  split at h
  · cases h
  · exact h

lemma flatRun_flatRun (w : List Char) : flatRun (flatRun w) = flatRun w :=
  flatRun_of_oneLine (oneLine_flatRun w)

lemma runChange_flatRun : RunChange flatRun where
  nil := rfl
  spaces w hne hw := by
    unfold flatRun
    split
    · exact ⟨by simp, by simp [Spaces, isSpace]⟩
    · exact ⟨hne, hw⟩
  oneLine w h := flatRun_of_oneLine h
  reuses w := by
    unfold flatRun
    split
    · intro c hc
      exact .inr (.inl (by simpa using hc))
    · exact Reuses.refl w

lemma flattenSpaces_eq (pending cs : List Char) (hc : isSpace c = false) :
    flattenSpaces pending (cs ++ [c]) = respace flatRun pending (cs ++ [c]) := by
  induction cs generalizing pending with
  | nil => simp [flattenSpaces, respace, hc, flatRun]
  | cons d cs ih =>
    rw [cons_append, flattenSpaces, respace]
    split
    · exact ih _
    · rw [ih, flatRun]

/-! ## The end of a condition -/

lemma closingIn_token (b : Bracket) (level : Nat) (hreads : Token.Reads t rest) (ts : List Token)
    (ys : List (Char × Segment.Kind)) : (t.text = b.closing.toString ∧ closingIn b level (t :: ts) = some 0 ∧
      closingIn b level (t.text.toList.map (·, t.kind.segment) ++ ys) = some 0) ∨
    ∃ next, closingIn b level (t :: ts) = (closingIn b next ts).map (· + 1) ∧
      closingIn b level (t.text.toList.map (·, t.kind.segment) ++ ys) =
        (closingIn b next ys).map (· + t.text.toList.length) := by
  have hbracket {d : Char} (hd : isBracket d) (htext : t.text = d.toString) :
      t.text.toList.map (·, t.kind.segment) = [(d, .code)] := by
    rw [kind_of_bracket hreads hd htext, htext, Char.toString, toList_singleton]
    rfl
  by_cases hclose : t.text = b.closing.toString
  · have hlen : t.text.toList.length = 1 := by rw [hclose, Char.toString, toList_singleton]; rfl
    have hchars : closingIn b level ((b.closing, .code) :: ys) =
        if level = 1 then some 0 else (closingIn b (level - 1) ys).map (· + 1) := by
      simp [Segment.closingIn]
    rw [hbracket (isBracket_closing b) hclose, Code.closingIn, if_pos hclose, singleton_append, hchars, hlen]
    by_cases hlevel : level = 1
    · exact .inl ⟨hclose, if_pos hlevel, if_pos hlevel⟩
    · exact .inr ⟨level - 1, if_neg hlevel, if_neg hlevel⟩
  by_cases hopen : t.text = b.opening.toString
  · have hlen : t.text.toList.length = 1 := by rw [hopen, Char.toString, toList_singleton]; rfl
    have hne : b.opening ≠ b.closing := by cases b <;> decide
    have hchars : closingIn b level ((b.opening, .code) :: ys) = (closingIn b (level + 1) ys).map (· + 1) := by
      simp [Segment.closingIn, hne]
    rw [hbracket (isBracket_opening b) hopen, Code.closingIn, if_neg hclose, if_pos hopen, singleton_append, hchars, hlen]
    exact .inr ⟨level + 1, rfl, rfl⟩
  · refine .inr ⟨level, ?_, ?_⟩
    · rw [Code.closingIn, if_neg hclose, if_neg hopen]
    · have hskip : ∀ x ∈ t.text.toList.map (·, t.kind.segment), x.2 = .code → x.1 ≠ b.closing ∧ x.1 ≠ b.opening := by
        intro x hx hcode
        obtain ⟨c, hc, rfl⟩ := mem_map.1 hx
        refine ⟨?_, ?_⟩
        · rintro rfl
          exact hclose (text_of_bracket hreads hcode (isBracket_closing b) hc)
        · rintro rfl
          exact hopen (text_of_bracket hreads hcode (isBracket_opening b) hc)
      rw [closingIn_skip hskip, List.length_map]

lemma closingIn_tokens (b : Bracket) (level : Nat) (h : Token.Legible ts tail) : (Code.closingIn b level ts = none ∧
      Segment.closingIn b level (ts.flatMap (labelledToken Segment.kind .code) ++ tail.map (·, .code)) = none) ∨
    ∃ before t after, ts = before ++ t :: after ∧ t.text = b.closing.toString ∧
      Code.closingIn b level ts = some before.length ∧
      Segment.closingIn b level (ts.flatMap (labelledToken Segment.kind .code) ++ tail.map (·, .code)) =
        some (chars before ++ t.lead.toList).length := by
  have hblank {lead : List Char} (hlead : Token.Blank lead) :
      ∀ x ∈ lead.map (·, Segment.Kind.code), x.2 = .code → x.1 ≠ b.closing ∧ x.1 ≠ b.opening := by
    intro x hx _
    obtain ⟨c, hc, rfl⟩ := List.mem_map.1 hx
    exact ⟨ne_bracket_of_blank (isBracket_closing b) (hlead c hc),
      ne_bracket_of_blank (isBracket_opening b) (hlead c hc)⟩
  induction ts generalizing level with
  | nil =>
    refine .inl ⟨rfl, ?_⟩
    rw [flatMap_nil, nil_append, ← append_nil (tail.map _), closingIn_skip (hblank h)]
    rfl
  | cons t ts ih =>
    obtain ⟨hlead, hreads, hlegible⟩ := h
    rw [flatMap_cons, labelledToken, List.append_assoc, List.append_assoc, closingIn_skip (hblank hlead),
      List.length_map]
    rcases closingIn_token b level hreads ts (ts.flatMap (labelledToken Segment.kind .code) ++ tail.map (·, .code)) with
      ⟨hclose, hcode, hchars⟩ | ⟨next, hcode, hchars⟩
    · refine .inr ⟨[], t, ts, rfl, hclose, hcode, ?_⟩
      rw [hchars, chars_nil, nil_append]
      simp
    · rw [hcode, hchars]
      rcases ih next hlegible with ⟨hcode, hchars⟩ | ⟨before, u, after, rfl, hclose, hcode, hchars⟩
      · exact .inl ⟨by rw [hcode]; rfl, by rw [hchars]; rfl⟩
      · refine .inr ⟨t :: before, u, after, rfl, hclose, by rw [hcode]; rfl, ?_⟩
        rw [hchars, chars_cons]
        simp only [Option.map_some, List.length_append]
        congr 1
        omega

/-! ## Flattening one condition -/

def flatCondition (ts : List Token) : List Token :=
  match Code.closingIn .round 1 ts with
  | none => ts
  | some n =>
    if (ts.take n).any isLineComment then ts
    else (ts.take (n + 1)).map (respaced flatRun) ++ ts.drop (n + 1)

lemma text_ne_nil (cs : List Char) : ∀ s ∈ ofChars cs, s.text ≠ [] := by
  fun_induction ofChars cs with
  | case1 => simp
  | case2 c cs kind n he ih => exact forall_mem_cons.2 ⟨cons_ne_nil _ _, ih⟩

lemma any_map_label (hne : cs ≠ []) (flag : Bool) : (cs.map (·, flag)).any (·.2) = flag := by
  obtain ⟨c, cs, rfl⟩ := exists_cons_of_ne_nil hne
  cases flag <;> simp

lemma hasLineComment_chars (h : Token.Legible ts tail) :
    hasLineComment (chars ts ++ tail) = ts.any isLineComment := by
  let label (s : Segment) : Bool := s.kind = .comment && s.text.take 2 = ['/', '/']
  have hany (cs : List Char) : (ofChars cs).any label = (labelled label cs).any (·.2) := by
    rw [labelled, any_flatMap, Bool.eq_iff_iff, any_eq_true, any_eq_true]
    refine exists_congr fun s => and_congr_right fun hs => ?_
    rw [any_map_label (text_ne_nil cs s hs)]
  have hlabelled : labelled label (chars ts ++ tail) =
      ts.flatMap (labelledToken label false) ++ (ofList tail).toList.map (·, false) :=
    labelled_scan (fun text => rfl) (scan_of_legible h)
  have htail (cs : List Char) : (cs.map (·, false)).any (·.2) = false := by simp
  rw [hasLineComment, hany, hlabelled, any_append, htail, Bool.or_false, any_flatMap, Bool.eq_iff_iff, any_eq_true,
    any_eq_true]
  refine exists_congr fun t => and_congr_right fun ht => ?_
  obtain ⟨rest, c, cs, htext, -⟩ := h.reads t ht
  rw [labelledToken, any_append, htail, Bool.false_or, any_map_label (by simp [htext])]
  cases hkind : t.kind <;> simp [label, isLineComment, Token.Kind.segment, hkind]

lemma respace_chars (hlegible : Token.Legible ts tail) (hsolid : ∀ t ∈ ts, t.Solid)
    (hline : ts.any isLineComment = false) : respace flatRun [] (chars ts) = chars (ts.map (respaced flatRun)) := by
  induction ts with
  | nil => rfl
  | cons t ts ih =>
    obtain ⟨hlead, hreads, hlegible⟩ := hlegible
    obtain ⟨hst, hsts⟩ := forall_mem_cons.1 hsolid
    rw [any_cons, Bool.or_eq_false_iff] at hline
    rw [chars_cons, List.append_assoc, respace_token runChange_flatRun hlead hreads hst hline.1, ih hlegible hsts hline.2,
      map_cons, chars_cons, List.append_assoc]

lemma take_length_succ {α : Type} (as : List α) (a : α) (bs : List α) : (as ++ a :: bs).take (as.length + 1) = as ++ [a] := by
  rw [take_length_add_append, take_succ_cons, take_zero]

lemma drop_length_succ {α : Type} (as : List α) (a : α) (bs : List α) : (as ++ a :: bs).drop (as.length + 1) = bs := by
  rw [drop_length_add_append, drop_succ_cons, drop_zero]

lemma flattenCondition_chars (hlegible : Token.Legible ts tail) (hsolid : ∀ t ∈ ts, t.Solid) :
    flattenCondition (chars ts ++ tail) = '(' :: (chars (flatCondition ts) ++ tail) := by
  have hmarked := marked_scan (scan_of_legible hlegible)
  rw [toList_ofList] at hmarked
  rcases closingIn_tokens .round 1 hlegible with ⟨hcode, hchars⟩ | ⟨before, t, after, rfl, hclose, hcode, hchars⟩
  · rw [flattenCondition, Segment.enclosed?, hmarked, hchars, flatCondition, hcode]
    rfl
  have hclose' : t.text.toList = [')'] := by
    rw [hclose]
    rfl
  have hinside : chars (before ++ t :: after) ++ tail =
      (chars before ++ t.lead.toList) ++ (')' :: (chars after ++ tail)) := by
    rw [chars_append, chars_cons, hclose']
    simp
  have hdrop : (chars (before ++ t :: after) ++ tail).drop ((chars before ++ t.lead.toList).length + 1) =
      chars after ++ tail := by
    rw [hinside, drop_length_succ]
  have hcomment : hasLineComment (chars before ++ t.lead.toList) = before.any isLineComment := by
    refine hasLineComment_chars (hlegible.take (fun u hu => hsolid u (mem_append_left _ hu)) hlegible.drop.1 fun hbreak => ?_)
    rw [chars_cons, hclose', List.append_assoc, List.append_assoc] at hbreak
    cases hlead : t.lead.toList with
    | nil => simp [Lexeme.BreaksOff]
    | cons c lead =>
      rw [hlead] at hbreak
      exact hbreak
  have hcondition : chars before ++ t.lead.toList ++ [')'] = chars (before ++ [t]) := by
    rw [chars_append, chars_cons, hclose']
    simp
  have htake : (before ++ t :: after).take before.length = before := take_left
  rw [flattenCondition, Segment.enclosed?, hmarked, hchars, flatCondition, hcode]
  simp only [Option.map_some, htake, take_length_succ, drop_length_succ, hdrop]
  rw [hinside, take_left, hcomment]
  by_cases hline : before.any isLineComment
  · simp [hline, hclose']
  rw [Bool.not_eq_true] at hline
  have hlines : (before ++ [t]).any isLineComment = false := by
    have ht : t.isLineComment = false := by simp [isLineComment, hclose']
    simp [hline, ht]
  have hpart : Token.Legible (before ++ [t]) [] := by
    rw [List.append_cons] at hlegible
    exact hlegible.take (fun u hu => hsolid u (by rw [List.append_cons]; exact mem_append_left _ hu)) (by simp [Token.Blank])
      fun _ => by simp [Lexeme.BreaksOff]
  have hflat : respace flatRun [] (chars before ++ t.lead.toList ++ [')']) =
      chars ((before ++ [t]).map (respaced flatRun)) := by
    rw [hcondition]
    exact respace_chars hpart (fun u hu => hsolid u (by rw [List.append_cons]; exact mem_append_left _ hu)) hlines
  rw [hline, Bool.not_false, Bool.and_true, if_neg Bool.false_ne_true, chars_append, ← hflat, flattenSpaces_eq [] _ (by decide)]
  by_cases hfeed : '\n' ∈ chars before ++ t.lead.toList
  · simp [mem_append.1 hfeed]
  · have hone : respace flatRun [] (chars before ++ t.lead.toList ++ [')']) =
        [] ++ (chars before ++ t.lead.toList ++ [')']) :=
      runChange_flatRun.respace_oneLine (by simp) (by simpa using hfeed)
    rw [hone]
    rw [← contains_iff_mem, Bool.not_eq_true] at hfeed
    simp only [hfeed, Bool.false_eq_true, if_false, nil_append, List.append_assoc, cons_append]

/-! ## Flags -/

lemma getElem?_of_closingIn {b : Bracket} (h : closingIn b level ts = some n) :
    ∃ t, ts[n]? = some t ∧ t.text = b.closing.toString := by
  induction ts generalizing level n with
  | nil => cases h
  | cons t ts ih =>
    have hnext {level : Nat} (h : (closingIn b level ts).map (· + 1) = some n) :
        ∃ u, (t :: ts)[n]? = some u ∧ u.text = b.closing.toString := by
      obtain ⟨m, hm, rfl⟩ := Option.map_eq_some_iff.1 h
      exact ih hm
    rw [Code.closingIn] at h
    split at h
    · rename_i hclose
      split at h
      · obtain rfl : 0 = n := Option.some.inj h
        exact ⟨t, rfl, hclose⟩
      · exact hnext h
    · split at h
      · exact hnext h
      · exact hnext h

lemma length_markCondition (h : flags.length = ts.length) : (markCondition ts flags).length = ts.length := by
  unfold markCondition
  split
  · exact h
  · rename_i n hn
    obtain ⟨t, ht, -⟩ := getElem?_of_closingIn hn
    obtain ⟨hlt, -⟩ := List.getElem?_eq_some_iff.1 ht
    split
    · exact h
    · rw [List.length_append, List.length_replicate, length_drop]
      omega

lemma length_conditionFlags (afterIf : Bool) (ts : List Token) : (conditionFlags afterIf ts).length = ts.length := by
  induction ts generalizing afterIf with
  | nil => rfl
  | cons t ts ih =>
    rw [conditionFlags]
    split
    · rw [length_cons, ih, length_cons]
    · dsimp only
      rw [length_cons, length_cons]
      split
      · rw [length_markCondition (ih _)]
      · rw [ih]

def Sheltered : Option Token → List Bool → List Token → Prop
  | s, flag :: flags, t :: ts =>
    (flag = true → t.isLineComment = false ∧ ∀ p ∈ s, p.isLineComment = false) ∧ Sheltered (some t) flags ts
  | _, _, _ => True

lemma not_isLineComment_of_char (h : t.text = c.toString) : t.isLineComment = false := by
  simp [isLineComment, h]

lemma sheltered_replicate (h : Sheltered s flags ts) (hs : ∀ p ∈ s, p.isLineComment = false) (n : Nat)
    (hn : ∀ t ∈ ts.take n, t.isLineComment = false) : Sheltered s (replicate n true ++ flags.drop n) ts := by
  induction n generalizing s flags ts with
  | zero => exact h
  | succ n ih =>
    cases ts with
    | nil =>
      rw [replicate_succ, cons_append]
      trivial
    | cons t ts =>
      obtain ⟨ht, hts⟩ := forall_mem_cons.1 hn
      refine ⟨fun _ => ⟨ht, hs⟩, ?_⟩
      have hnext : Sheltered (some t) flags.tail ts := by
        cases flags with
        | nil => cases ts <;> trivial
        | cons flag flags => exact h.2
      have := ih hnext (by simpa using ht) hts
      rwa [drop_tail] at this

lemma sheltered_markCondition {s : Token} (hs : s.isLineComment = false) (h : Sheltered (some s) flags ts) :
    Sheltered (some s) (markCondition ts flags) ts := by
  unfold markCondition
  split
  · exact h
  · rename_i n hn
    split
    · exact h
    · rename_i hline
      refine sheltered_replicate h (by simpa using hs) (n + 1) ?_
      obtain ⟨t, ht, htext⟩ := getElem?_of_closingIn hn
      rw [Bool.not_eq_true, any_eq_false] at hline
      intro u hu
      rw [take_add_one, ht, mem_append] at hu
      rcases hu with hu | hu
      · simpa using hline u hu
      · obtain rfl : u = t := by simpa using hu
        exact not_isLineComment_of_char htext

lemma sheltered_conditionFlags (s : Option Token) (afterIf : Bool) (ts : List Token) :
    Sheltered s (conditionFlags afterIf ts) ts := by
  induction ts generalizing s afterIf with
  | nil => trivial
  | cons t ts ih =>
    rw [conditionFlags]
    split
    · exact ⟨fun h => absurd h Bool.false_ne_true, ih _ _⟩
    · refine ⟨fun h => absurd h Bool.false_ne_true, ?_⟩
      split_ifs with hopen
      · rw [Bool.and_eq_true, decide_eq_true_eq] at hopen
        exact sheltered_markCondition (not_isLineComment_of_char (c := '(') hopen.2) (ih _ _)
      · exact ih _ _

/-! ## Streams -/

lemma kin_flatIf (hs : t.Solid) (flag : Bool) : t.Kin (flatIf flag t) := by
  cases flag with
  | true => exact hs.kin_respaced runChange_flatRun
  | false => exact hs.kin_refl

lemma lead_flatIf (flag : Bool) (t : Token) : (flatIf flag t).lead.toList = if flag then flatRun t.lead.toList else t.lead.toList := by
  cases flag with
  | true => exact lead_respaced _ _
  | false => rfl

lemma relaid_flat (hlegible : Token.Legible ts tail) (hsolid : ∀ t ∈ ts, t.Solid)
    (hended : Token.Ended s (chars ts ++ tail)) (hlen : flags.length = ts.length)
    (hsheltered : Sheltered s flags ts) : Relaid tail tail s ts (flatTokens flags ts) := by
  induction ts generalizing s flags with
  | nil =>
    rw [flatTokens, zipWith_nil_right]
    exact .nil (Reuses.refl tail) hended
  | cons t ts ih =>
    obtain ⟨hst, hsts⟩ := forall_mem_cons.1 hsolid
    have hlead := hended.lead hlegible
    obtain ⟨-, hreads, hlegible⟩ := hlegible
    obtain ⟨flag, flags, rfl⟩ := exists_cons_of_length_eq_add_one hlen
    obtain ⟨hflag, hsheltered⟩ := hsheltered
    rw [flatTokens, zipWith_cons_cons]
    refine .cons (kin_flatIf hst flag) ?_ (fun p hp => ?_)
      (ih hlegible hsts (ended_of_reads hreads) (by simpa using hlen) hsheltered)
    · rw [lead_flatIf]
      split
      · exact runChange_flatRun.reuses _
      · exact Reuses.refl _
    · cases flag with
      | false => exact Token.Gap.of_lead (fun h => h) (hlead p hp) fun h => h
      | true =>
        refine ⟨fun _ hnil => .inl ?_, fun hline => ?_⟩
        · rw [lead_flatIf, if_pos rfl] at hnil
          exact flatRun_eq_nil hnil
        · simp [(hflag rfl).2 p hp] at hline

lemma relaid_flatStream (h : x.Neat) : x.Relaid (flatStream x) :=
  relaid_flat h.legible h.solid (ended_none _) (length_conditionFlags _ _) (sheltered_conditionFlags _ _ _)

def conditionView (t : Token) : Bool × Bool × Bool × Bool × Bool :=
  (t.isComment, t.isLineComment, t.text = "if", t.text = "(", t.text = ")")

lemma conditionView_eq (h : t.Kin u) (hs : t.Solid) (hreads : Token.Reads t rest) :
    conditionView u = conditionView t := by
  have hif := h.text_eq_iff hs hreads (show "if".toList = 'i' :: ['f'] by simp) (by decide)
  have hopen := h.text_eq_iff hs hreads (show "(".toList = '(' :: [] by simp) (by decide)
  have hclose := h.text_eq_iff hs hreads (show ")".toList = ')' :: [] by simp) (by decide)
  simp only [conditionView, isComment, h.kind, h.isLineComment_eq hreads, hif, hopen, hclose]

section
variable (h : us.map conditionView = ts.map conditionView)

include h

lemma closingIn_congr : closingIn .round level us = closingIn .round level ts := by
  induction ts generalizing level us with
  | nil =>
    rw [map_nil, map_eq_nil_iff] at h
    rw [h]
  | cons t ts ih =>
    obtain ⟨u, us, rfl, hu, hus⟩ := map_eq_cons_iff.1 h
    simp only [conditionView, Prod.mk.injEq, decide_eq_decide] at hu
    have hopen : Bracket.round.opening.toString = "(" := rfl
    have hclose : Bracket.round.closing.toString = ")" := rfl
    simp only [Code.closingIn, hopen, hclose, hu, ih hus]

lemma any_take_congr : (us.take n).any isLineComment = (ts.take n).any isLineComment := by
  have hview (ts : List Token) : ts.any isLineComment = (ts.map conditionView).any (·.2.1) := by
    rw [any_map]
    rfl
  rw [hview, hview, map_take, map_take, h]

lemma markCondition_congr : markCondition us flags = markCondition ts flags := by
  simp only [markCondition, closingIn_congr h, any_take_congr h]

lemma conditionFlags_congr {afterIf : Bool} : conditionFlags afterIf us = conditionFlags afterIf ts := by
  induction ts generalizing afterIf us with
  | nil =>
    rw [map_nil, map_eq_nil_iff] at h
    rw [h]
  | cons t ts ih =>
    obtain ⟨u, us, rfl, hu, hus⟩ := map_eq_cons_iff.1 h
    simp only [conditionView, Prod.mk.injEq, decide_eq_decide] at hu
    simp only [conditionFlags, hu, ih hus, markCondition_congr hus]

end

lemma oneLine_respace (pending cs : List Char) : '\n' ∉ respace flatRun pending cs := by
  induction cs generalizing pending with
  | nil => exact oneLine_flatRun pending
  | cons c cs ih =>
    rw [respace]
    split
    · exact ih _
    · rename_i hc
      rw [mem_append, mem_cons, not_or, not_or]
      refine ⟨oneLine_flatRun pending, ?_, ih []⟩
      rintro rfl
      exact hc (by decide)

lemma respaced_flatIf (flag : Bool) (t : Token) : (flatIf flag t).respaced flatRun = t.respaced flatRun := by
  cases flag with
  | false => rfl
  | true =>
    have htext := runChange_flatRun.respace_oneLine (by simp : '\n' ∉ []) (oneLine_respace [] t.text.toList)
    simp only [flatIf, if_true, respaced, toList_ofList, flatRun_flatRun, htext, nil_append]

lemma map_take_flatTokens (n : Nat) (hlen : flags.length = ts.length) (hn : n ≤ ts.length) :
    ((flatTokens flags ts).take n).map (respaced flatRun) ++ (flatTokens flags ts).drop n =
      flatTokens (replicate n true ++ flags.drop n) ts := by
  induction n generalizing flags ts with
  | zero => rfl
  | succ n ih =>
    obtain ⟨t, ts, rfl⟩ := exists_cons_of_length_pos (Nat.lt_of_lt_of_le (Nat.succ_pos n) hn)
    obtain ⟨flag, flags, rfl⟩ := exists_cons_of_length_eq_add_one hlen
    have := ih (by simpa using hlen : flags.length = ts.length) (by simpa using hn)
    rw [flatTokens, flatTokens] at this
    rw [flatTokens, flatTokens, zipWith_cons_cons, take_succ_cons, map_cons, drop_succ_cons, drop_succ_cons,
      replicate_succ, cons_append, cons_append, zipWith_cons_cons, this, respaced_flatIf]
    rfl

lemma flatCondition_flatTokens (hlen : flags.length = ts.length)
    (h : (flatTokens flags ts).map conditionView = ts.map conditionView) :
    flatCondition (flatTokens flags ts) = flatTokens (markCondition ts flags) ts := by
  rw [flatCondition, markCondition, closingIn_congr h]
  cases hn : closingIn .round 1 ts with
  | none => rfl
  | some n =>
    obtain ⟨t, ht, -⟩ := getElem?_of_closingIn hn
    obtain ⟨hlt, -⟩ := List.getElem?_eq_some_iff.1 ht
    simp only [any_take_congr h]
    split
    · rfl
    · exact map_take_flatTokens (n + 1) hlen hlt

lemma flatTokens_cons (flag : Bool) (flags : List Bool) (t : Token) (ts : List Token) :
    flatTokens (flag :: flags) (t :: ts) = flatIf flag t :: flatTokens flags ts := rfl

lemma flattenTokens_chars {tail : String} (hlegible : Token.Legible ts tail.toList)
    (hsolid : ∀ t ∈ ts, t.Solid) (lead : String) (afterIf : Bool) :
    flattenTokens (foldComments lead ts tail).tail afterIf (foldComments lead ts tail).tokens =
      lead.toList ++ (chars (flatTokens (conditionFlags afterIf ts) ts) ++ tail.toList) := by
  induction ts generalizing lead afterIf with
  | nil => simp [foldComments, flattenTokens, flatTokens]
  | cons t ts ih =>
    obtain ⟨-, hreads, hlegible⟩ := hlegible
    obtain ⟨hst, hsts⟩ := forall_mem_cons.1 hsolid
    by_cases hcomment : t.isComment
    · rw [foldComments, if_pos hcomment, ih hlegible hsts, conditionFlags, if_pos hcomment, flatTokens_cons, chars_cons]
      simp [flatIf, spelling]
    · have hlen := length_conditionFlags (decide (t.text = "if")) ts
      have hrelaid := relaid_flat hlegible hsts (ended_of_reads hreads) hlen (sheltered_conditionFlags _ _ _)
      have hview := hrelaid.map_eq hlegible hsts fun t u rest h hs hr => conditionView_eq h hs hr
      obtain ⟨hlegible', hsolid'⟩ := hrelaid.legible hlegible hsts
      rw [foldComments, if_neg hcomment, conditionFlags, if_neg hcomment]
      simp only [flattenTokens, ih hlegible hsts, toList_empty, nil_append, flatTokens_cons, chars_cons]
      split_ifs with hopen
      · have htext : t.text = "(" := by simpa using (Bool.and_eq_true_iff.1 hopen).2
        rw [flattenCondition_chars hlegible' hsolid', flatCondition_flatTokens hlen hview]
        simp [flatIf, htext]
      · simp [flatIf]

lemma flattenConditions_chars (h : x.Neat) : flattenConditions x.chars = (flatStream x).chars := by
  have hlegible : Token.Legible x.tokens (ofList x.tail).toList := by
    rw [toList_ofList]
    exact h.legible
  rw [flattenConditions, Code.ofString, toList_ofList, h.scan]
  simp only [flattenTokens_chars hlegible h.solid, toList_empty, nil_append, toList_ofList]
  rfl

end DeviceForge.Layout
