import DeviceForge.Proofs.Token.Ends
/-!
# Joints between texts

Two texts one behind the other have the tokens of the first and then those of the second if they meet in a
blank that is no part of a token.
-/

namespace DeviceForge.Lexeme

open List

lemma getLast?_of_endsQuoted {quote : Char} {cs : List Char} (h : endsQuoted quote cs) : cs.getLast? = some quote := by
  fun_induction endsQuoted quote cs with
  | case1 => cases h
  | case2 d cs ih =>
    rw [getLast?_cons_cons, getLast?_cons, ih h]
    rfl
  | case3 cs hne =>
    rw [isEmpty_iff.1 h]
    rfl
  | case4 c cs hne hc ih =>
    rw [getLast?_cons, ih h]
    rfl

lemma getLast?_of_endsBlock {cs : List Char} (h : endsBlock cs) : cs.getLast? = some '/' := by
  fun_induction endsBlock cs with
  | case1 => cases h
  | case2 cs =>
    rw [isEmpty_iff.1 h]
    rfl
  | case3 c cs hne ih =>
    rw [getLast?_cons, ih h]
    rfl

end DeviceForge.Lexeme

namespace DeviceForge.Token

variable {c : Char} {t : Token} {rest w cs : List Char}

lemma not_blank_of_inner (h : isInner c) : Text.isBlank c = false := by
  by_contra hb
  simp only [Bool.not_eq_false, Text.isBlank, Bool.or_eq_true, decide_eq_true_eq] at hb
  rcases hb with (((rfl | rfl) | rfl) | rfl) | rfl <;> revert h <;> decide

lemma not_blank_of_code (h : Reads t rest) (hcode : t.kind.segment = .code) :
    ∀ c ∈ t.text.toList, Text.isBlank c = false := by
  obtain ⟨c, cs, htext, hblank, hext⟩ := h
  rw [htext, List.forall_mem_cons]
  refine ⟨hblank, fun d hd => not_blank_of_inner ?_⟩
  rcases extent_cases hext with ⟨hne, -⟩ | ⟨-, -, hinner⟩
  · exact absurd hcode hne
  · exact hinner d (by rwa [List.take_left])

lemma getLast?_of_isClosed (h : Reads t rest) (hclosed : t.isClosed)
    (hc : t.text.toList.getLast? = some c) (hline : t.isLineComment = false) :
    t.kind.segment = .code ∧ Text.isBlank c = false ∨ c = '"' ∨ c = '\'' ∨ c = '/' := by
  rcases reads_cases h with hcode | ⟨quote, cs, hq, htext, -⟩ | ⟨cs, hkind, htext, -⟩ | ⟨cs, hkind, htext, -⟩
  · exact .inl ⟨hcode, not_blank_of_code h hcode c (List.mem_of_getLast? hc)⟩
  · rw [hq.isClosed_iff, htext, List.tail_cons] at hclosed
    rw [htext, List.getLast?_cons, Lexeme.getLast?_of_endsQuoted hclosed] at hc
    obtain rfl : quote = c := by simpa using hc
    rcases hq with ⟨-, rfl⟩ | ⟨-, rfl⟩ <;> simp
  · simp [(isLineComment_iff hkind htext).2 ⟨rfl, rfl⟩] at hline
  · simp only [isClosed, hkind, hline, Bool.false_or, htext, List.drop_succ_cons, List.drop_zero] at hclosed
    rw [htext, List.getLast?_cons_cons, List.getLast?_cons, Lexeme.getLast?_of_endsBlock hclosed] at hc
    obtain rfl : '/' = c := by simpa using hc
    simp

lemma not_lineBreak_of_isClosed (h : Reads t rest) (hclosed : t.isClosed)
    (hc : t.text.toList.getLast? = some c) : Lexeme.isLineBreak c = false := by
  by_cases hline : t.isLineComment
  · obtain ⟨cs, -, htext, hbreak, -⟩ := reads_line h hline
    have hmem := List.mem_of_getLast? hc
    rw [htext, List.mem_cons, List.mem_cons] at hmem
    rcases hmem with rfl | rfl | hmem
    · decide
    · decide
    · exact hbreak c hmem
  · rcases getLast?_of_isClosed h hclosed hc (by simpa using hline) with ⟨-, hb⟩ | rfl | rfl | rfl
    · by_contra hbreak
      rw [Bool.not_eq_false] at hbreak
      simp only [Lexeme.isLineBreak, Bool.or_eq_true, decide_eq_true_eq] at hbreak
      rcases hbreak with rfl | rfl <;> cases hb
    all_goals decide

/-- What a token is, without the blanks before it. -/
def bare (t : Token) : Kind × String :=
  (t.kind, t.text)

/-- The kinds and texts of tokens. -/
abbrev Shapes : Type :=
  List (Kind × String)

def word (text : String) : Kind × String :=
  (.identifier, text)

def sign (text : String) : Kind × String :=
  (.punct, text)

def shapes (cs : List Char) : List (Kind × String) :=
  (scan cs).1.map bare

def prependBlank (w : List Char) : List Token × String → List Token × String
  | ([], tail) => ([], String.ofList (w ++ tail.toList))
  | (t :: ts, tail) => (⟨t.kind, String.ofList (w ++ t.lead.toList), t.text⟩ :: ts, tail)

lemma scan_blank_append (hw : Blank w) (cs : List Char) : scan (w ++ cs) = prependBlank w (scan cs) := by
  obtain ⟨ts, tail, h⟩ : ∃ ts tail, scan cs = (ts, tail) := ⟨_, _, rfl⟩
  have hlegible := legible_of_scan h
  have hchars := chars_scan h
  rw [h]
  cases ts with
  | nil =>
    have hblank : Legible [] (w ++ tail.toList) :=
      fun c hc => (List.mem_append.1 hc).elim (hw c) (hlegible c)
    have hscan := scan_of_legible hblank
    rw [chars_nil, List.nil_append] at hscan hchars
    rw [hchars, hscan, prependBlank]
  | cons t ts =>
    obtain ⟨hlead, hreads, hlegible⟩ := hlegible
    have hmore : Legible (⟨t.kind, String.ofList (w ++ t.lead.toList), t.text⟩ :: ts) tail.toList := by
      refine ⟨?_, hreads, hlegible⟩
      rw [String.toList_ofList]
      exact fun c hc => (List.mem_append.1 hc).elim (hw c) (hlead c)
    have hscan := scan_of_legible hmore
    rw [prependBlank, hchars]
    simpa using hscan

lemma shapes_blank_append (hw : Blank w) (cs : List Char) : shapes (w ++ cs) = shapes cs := by
  rw [shapes, scan_blank_append hw, shapes]
  obtain ⟨ts, tail⟩ := scan cs
  cases ts <;> rfl

def Rests (cs : List Char) : Prop :=
  cs = [] ∨ (scan cs).2 ≠ ""

lemma Rests.shapes_append (h : Rests cs) (more : List Char) : shapes (cs ++ more) = shapes cs ++ shapes more := by
  rcases h with rfl | h
  · rw [shapes, shapes, shapes, List.nil_append]
    rw [show scan [] = ([], "") by rw [scan]; rfl]
    rfl
  · have hscan := scan_append_blank (Prod.eta (scan cs)).symm h more
    rw [shapes, hscan, List.map_append]
    exact congrArg _ (shapes_blank_append (scan_tail (Prod.eta (scan cs)).symm) more)

lemma Rests.marked_append (h : Rests cs) (more : List Char) :
    Segment.marked (cs ++ more) = Segment.marked cs ++ Segment.marked more := by
  rcases h with rfl | h
  · simp [Segment.marked, Segment.ofChars]
  · have hcs := (Prod.eta (scan cs)).symm
    have hplain := Segment.marked_plain (fun d hd => Segment.plain_of_blank (scan_tail hcs d hd)) more
    rw [Segment.marked_scan (scan_append_blank hcs h more), Segment.marked_scan hcs, List.flatMap_append, List.append_assoc,
      ← Segment.marked_scan (Prod.eta _).symm, hplain, List.append_assoc]

lemma rests_of_closed (hclosed : ∀ t ∈ (scan cs).1, t.isClosed) (hlast : cs.getLast? = some c)
    (hc : Lexeme.isLineBreak c) : Rests cs := by
  refine .inr fun htail => ?_
  have h := (Prod.eta (scan cs)).symm
  have hchars := chars_scan h
  rw [htail, String.toList_empty, List.append_nil] at hchars
  rcases List.eq_nil_or_concat (scan cs).1 with hnil | ⟨as, t, hlasts⟩
  · rw [hchars, hnil] at hlast
    cases hlast
  · rw [List.concat_eq_append] at hlasts
    have ht : t ∈ (scan cs).1 := by simp [hlasts]
    rw [hlasts, htail] at h
    obtain ⟨rest, -, hrest⟩ := scan_append h
    obtain ⟨-, hreads, -⟩ := legible_of_scan hrest
    have hends : cs.getLast? = t.text.toList.getLast? := by
      rw [hchars, hlasts, chars_append, chars_cons, chars_nil, List.append_nil, ← List.append_assoc,
        List.getLast?_append_of_ne_nil _ (scan_mem hrest t List.mem_cons_self).1]
    rw [not_lineBreak_of_isClosed hreads (hclosed t ht) (hends ▸ hlast)] at hc
    cases hc

end DeviceForge.Token

namespace DeviceForge.Code

/-- The kinds and texts of the tokens of code. -/
def shapes (s : String) : List (Token.Kind × String) :=
  (ofString s).tokens.map Token.bare

lemma map_bare_foldComments (lead : String) (ts : List Token) (tail : String) :
    (foldComments lead ts tail).tokens.map Token.bare = (ts.map Token.bare).filter (·.1 ≠ .comment) := by
  induction ts generalizing lead with
  | nil => rfl
  | cons t ts ih =>
    by_cases h : t.isComment
    · have hkind : t.kind = .comment := by simpa [Token.isComment] using h
      rw [foldComments, if_pos h, ih, List.map_cons, List.filter_cons_of_neg (by simp [Token.bare, hkind])]
    · have hkind : t.kind ≠ .comment := by simpa [Token.isComment] using h
      rw [foldComments, if_neg h, List.map_cons, List.map_cons, ih, List.filter_cons_of_pos (by simp [Token.bare, hkind])]
      rfl

lemma shapes_eq (s : String) : shapes s = (Token.shapes s.toList).filter (·.1 ≠ .comment) :=
  map_bare_foldComments "" _ _

end DeviceForge.Code

/-! # Places between tokens -/

namespace DeviceForge.Token

open List Segment

variable {as bs w cs rest more x y pre post : List Char} {ts us : List Token} {tail : String} {t : Token}
  {c : Char}

def Between (as bs : List Char) : Prop :=
  ∃ ts us tail w, scan (as ++ bs) = (ts ++ us, tail) ∧ Blank w ∧ as = chars ts ++ w

lemma between_nil (bs : List Char) : Between [] bs :=
  ⟨[], (scan bs).1, (scan bs).2, [], rfl, by simp [Blank], rfl⟩

lemma Rests.between (h : Rests as) (bs : List Char) : Between as bs := by
  rcases h with rfl | h
  · exact between_nil bs
  · have has := (Prod.eta (scan as)).symm
    exact ⟨_, _, _, _, scan_append_blank has h bs, scan_tail has, chars_scan has⟩

lemma between_iff (as bs : List Char) : Between as bs ↔ ∃ n ∈ range ((scan (as ++ bs)).1.length + 1),
      chars ((scan (as ++ bs)).1.take n) <+: as ∧ (as.drop (chars ((scan (as ++ bs)).1.take n)).length).all Text.isBlank := by
  constructor
  · rintro ⟨ts, us, tail, w, hscan, hw, has⟩
    refine ⟨ts.length, by simp only [hscan, mem_range, length_append]; omega, ?_⟩
    rw [hscan, take_left, has, drop_left]
    exact ⟨prefix_append _ _, all_eq_true.2 hw⟩
  · rintro ⟨n, -, ⟨w, hw⟩, hblank⟩
    refine ⟨(scan (as ++ bs)).1.take n, (scan (as ++ bs)).1.drop n, (scan (as ++ bs)).2, w, ?_, ?_, hw.symm⟩
    · rw [take_append_drop]
    · have hdrop : (chars ((scan (as ++ bs)).1.take n) ++ w).drop (chars ((scan (as ++ bs)).1.take n)).length = w := drop_left
      rw [hw] at hdrop
      rw [hdrop] at hblank
      exact all_eq_true.1 hblank

instance (as bs : List Char) : Decidable (Between as bs) :=
  decidable_of_iff _ (between_iff as bs).symm

lemma scan_between (h : scan (as ++ bs) = (ts ++ us, tail)) (has : as = chars ts ++ w) :
    scan (w ++ bs) = (us, tail) := by
  obtain ⟨rest, hrest, hscan⟩ := scan_append h
  rw [has, append_assoc, append_cancel_left_eq] at hrest
  rw [hrest, hscan]

lemma Between.shapes_suffix (h : Between as bs) : ∃ ss, shapes (as ++ bs) = ss ++ shapes bs := by
  obtain ⟨ts, us, tail, w, hscan, hw, has⟩ := h
  refine ⟨ts.map bare, ?_⟩
  rw [shapes, hscan, map_append, ← shapes_blank_append hw bs, shapes, scan_between hscan has]

lemma Between.marked_suffix (h : Between as bs) :
    ∃ ms, marked (as ++ bs) = ms ++ marked bs ∧ ms.length = as.length := by
  obtain ⟨ts, us, tail, w, hscan, hw, has⟩ := h
  have hplain := marked_plain (fun d hd => plain_of_blank (hw d hd)) bs
  refine ⟨ts.flatMap (labelledToken Segment.kind .code) ++ w.map (·, .code), ?_, ?_⟩
  · rw [marked_scan hscan, flatMap_append, List.append_assoc, ← marked_scan (scan_between hscan has),
      hplain, append_assoc]
  · rw [has, length_append, length_append, length_map, length_flatMap, chars, length_flatMap]
    simp [labelledToken, spelling]

lemma Between.append (h : Between as (bs ++ cs)) (hrest : Between bs cs) : Between (as ++ bs) cs := by
  obtain ⟨ts, us, tail, w, hscan, hw, has⟩ := h
  obtain ⟨ts', us', tail', w', hscan', hw', hbs⟩ := hrest
  have hus := scan_between hscan has
  rw [scan_blank_append hw, hscan'] at hus
  rw [← append_assoc] at hscan
  cases ts' with
  | nil =>
    refine ⟨ts, us, tail, w ++ w', hscan, fun c hc => (mem_append.1 hc).elim (hw c) (hw' c), ?_⟩
    rw [has, hbs, chars_nil, nil_append, append_assoc]
  | cons t ts' =>
    rw [cons_append, prependBlank] at hus
    obtain ⟨rfl, rfl⟩ := Prod.mk.inj hus
    refine ⟨ts ++ ⟨t.kind, String.ofList (w ++ t.lead.toList), t.text⟩ :: ts', us', tail', w', ?_, hw', ?_⟩
    · rw [hscan, append_assoc, cons_append]
    · rw [has, hbs]
      simp

/-! ## Texts that end in a blank -/

lemma scan_cut (h : scan (as ++ bs) = (ts ++ us, tail)) (has : as = chars ts ++ w) (hw : Blank w)
    (hne : w ≠ []) : scan as = (ts, String.ofList w) := by
  subst has
  have hlegible : Legible ts w := by
    have hall : Legible (ts ++ us) tail.toList := legible_of_scan h
    have hrest : w ++ bs = chars us ++ tail.toList := by rw [← chars_scan (scan_between h rfl)]
    clear h
    induction ts with
    | nil => exact hw
    | cons t ts ih =>
      obtain ⟨hlead, hreads, hall⟩ := hall
      refine ⟨hlead, ?_, ih hall⟩
      change Reads t (chars (ts ++ us) ++ tail.toList) at hreads
      rw [chars_append, append_assoc, ← hrest, ← append_assoc] at hreads
      have hcut : Reads t (chars ts ++ w ++ []) := reads_swap hreads (by simp [hne]) (by simp)
      rwa [append_nil] at hcut
  exact scan_of_legible hlegible

lemma between_or_inside (as bs : List Char) :
    Between as bs ∨ ∃ ts t us tail x y, scan (as ++ bs) = (ts ++ t :: us, tail) ∧ as = chars ts ++ t.lead.toList ++ x ∧
      t.text.toList = x ++ y ∧ x ≠ [] ∧ y ≠ [] := by
  obtain ⟨all, tail, h⟩ : ∃ all tail, scan (as ++ bs) = (all, tail) := ⟨_, _, rfl⟩
  induction all generalizing as with
  | nil =>
    obtain ⟨-, hblank⟩ := scan_nil h
    exact .inl ⟨[], [], tail, as, h, fun c hc => hblank c (mem_append_left _ hc), rfl⟩
  | cons t all ih =>
    obtain ⟨rest, hrest, hscan⟩ := scan_append (singleton_append ▸ h : scan (as ++ bs) = ([t] ++ all, tail))
    obtain ⟨hlead, -⟩ := legible_of_scan h
    rw [chars_cons, chars_nil, append_nil, append_assoc] at hrest
    rcases append_eq_append_iff.1 hrest with ⟨as', hlead', -⟩ | ⟨as', rfl, has'⟩
    · exact .inl ⟨[], t :: all, tail, as, h, fun c hc => hlead c (hlead' ▸ mem_append_left _ hc), rfl⟩
    rcases append_eq_append_iff.1 has' with ⟨as'', rfl, rfl⟩ | ⟨y, htext, -⟩
    · -- the place is behind the token
      rcases ih as'' hscan with ⟨ts, us, tail', w, hscan', hw, rfl⟩ | ⟨ts, t', us, tail', x, y, hscan', rfl, hxy⟩
      · obtain ⟨rfl, rfl⟩ := Prod.mk.inj (hscan.symm.trans hscan')
        exact .inl ⟨t :: ts, us, tail, w, h, hw, by simp⟩
      · obtain ⟨rfl, rfl⟩ := Prod.mk.inj (hscan.symm.trans hscan')
        exact .inr ⟨t :: ts, t', us, tail, x, y, h, by simp, hxy⟩
    · by_cases hx : as' = []
      · exact .inl ⟨[], t :: all, tail, t.lead.toList, h, hlead, by simp [hx]⟩
      by_cases hy : y = []
      · exact .inl ⟨[t], all, tail, [], h, by simp [Blank], by simp [htext, hy]⟩
      exact .inr ⟨[], t, all, tail, as', y, h, rfl, htext, hx, hy⟩

lemma not_blank_of_reads (h : Reads t rest) : ¬Blank t.text.toList := by
  obtain ⟨c, cs, htext, hc, -⟩ := h
  intro hblank
  rw [hblank c (by simp [htext])] at hc
  cases hc

lemma getLast?_of_reads (h : Reads t rest) (hrest : rest ≠ []) (hc : t.text.toList.getLast? = some c)
    (hblank : Text.isBlank c) : Lexeme.BreaksOff rest := by
  by_cases hline : t.isLineComment
  · obtain ⟨-, -, -, -, hbreaks⟩ := reads_line h hline
    exact hbreaks
  · rcases getLast?_of_isClosed h (isClosed_of_reads h hrest) hc (by simpa using hline) with ⟨-, hc⟩ | rfl | rfl | rfl
    · simp [hblank] at hc
    all_goals cases hblank

lemma getElem?_marked (h : scan (as ++ bs) = (ts ++ t :: us, tail))
    (has : as = chars ts ++ t.lead.toList ++ x) (htext : t.text.toList = x ++ c :: y) :
    (marked (as ++ bs))[as.length]? = some (c, t.kind.segment) := by
  have hlen : as.length = (ts.flatMap (labelledToken Segment.kind .code) ++ t.lead.toList.map (·, Segment.Kind.code) ++
      x.map (·, t.kind.segment)).length := by
    rw [has]
    simp [chars, spelling, labelledToken, length_flatMap]
  have hmarked : marked (as ++ bs) = (ts.flatMap (labelledToken Segment.kind .code) ++
      t.lead.toList.map (·, Segment.Kind.code) ++ x.map (·, t.kind.segment)) ++ (c, t.kind.segment) ::
      (y.map (·, t.kind.segment) ++ us.flatMap (labelledToken Segment.kind .code) ++ tail.toList.map (·, .code)) := by
    rw [marked_scan h, flatMap_append, flatMap_cons, labelledToken, htext]
    simp
  rw [hmarked, getElem?_append_right (by omega), hlen, Nat.sub_self, getElem?_cons_zero]

lemma rests_of_mark (hcode : (marked (pre ++ c :: post))[pre.length]? = some (c, .code))
    (hc : Lexeme.isLineBreak c = false) (hblank : ∀ b ∈ pre.getLast?, Text.isBlank b) : Rests pre := by
  rcases between_or_inside pre (c :: post) with ⟨ts, us, tail, w, hscan, hw, has⟩ | ⟨ts, t, us, tail, x, y, hscan, has, htext, hx, hy⟩
  · by_cases hne : w = []
    · rcases eq_nil_or_concat ts with rfl | ⟨init, t, rfl⟩
      · exact .inl (by rw [has, hne]; rfl)
      · -- the last token ends in a blank, which a comment does before a line break only
        exfalso
        rw [concat_eq_append] at hscan has
        have hrest := chars_scan (scan_between hscan has)
        rw [hne, nil_append] at hrest
        rw [append_assoc] at hscan
        obtain ⟨rest, -, hscan'⟩ := scan_append hscan
        obtain ⟨-, hreads, -⟩ := legible_of_scan hscan'
        change Reads t (chars us ++ tail.toList) at hreads
        rw [← hrest] at hreads
        have hlast : pre.getLast? = t.text.toList.getLast? := by
          rw [has, hne, append_nil, chars_append, chars_cons, chars_nil, append_nil, ← append_assoc,
            getLast?_append_of_ne_nil _ (scan_mem hscan' t (by simp)).1]
        obtain ⟨b, hb⟩ := getLast?_isSome.2 (scan_mem hscan' t (by simp)).1 |> Option.isSome_iff_exists.1
        have := getLast?_of_reads hreads (cons_ne_nil _ _) hb (hblank b (hlast.trans hb))
        simp [this c rfl] at hc
    · refine .inr ?_
      rw [scan_cut hscan has hw hne]
      simpa using hne
  · exfalso
    -- the character would be inside a token, which is no code, or code without blanks
    have hchars := chars_scan hscan
    obtain ⟨y', rfl⟩ : ∃ y', y = c :: y' := by
      obtain ⟨d, y', rfl⟩ := exists_cons_of_ne_nil hy
      rw [chars_append, chars_cons, htext, has] at hchars
      simp only [append_assoc, append_cancel_left_eq, cons_append, cons.injEq] at hchars
      exact ⟨y', by rw [hchars.1]⟩
    rw [getElem?_marked hscan has htext] at hcode
    obtain ⟨-, hkind⟩ := Prod.mk.inj (Option.some.inj hcode)
    obtain ⟨rest, -, hscan'⟩ := scan_append hscan
    obtain ⟨-, hreads, -⟩ := legible_of_scan hscan'
    obtain ⟨b, hb⟩ := getLast?_isSome.2 hx |> Option.isSome_iff_exists.1
    have hblank' := hblank b (by rw [has, getLast?_append_of_ne_nil _ hx]; exact hb)
    rw [not_blank_of_code hreads hkind b (by rw [htext]; exact mem_append_left _ (mem_of_getLast? hb))] at hblank'
    cases hblank'

lemma Rests.getLast? (h : Rests as) : ∀ b ∈ as.getLast?, Text.isBlank b := by
  rcases h with rfl | h
  · simp
  · have hscan := (Prod.eta (scan as)).symm
    intro b hb
    have hne : (scan as).2.toList ≠ [] := fun hnil => h (String.toList_injective hnil)
    rw [chars_scan hscan, getLast?_append_of_ne_nil _ hne] at hb
    exact scan_tail hscan b (mem_of_getLast? hb)

lemma Rests.suffix (h : Rests (as ++ bs)) (hbetween : Between as bs) : Rests bs := by
  obtain ⟨ts, us, tail, w, hscan, hw, has⟩ := hbetween
  rcases h with h | h
  · exact .inl (append_eq_nil_iff.1 h).2
  · rw [hscan] at h
    have hrest := scan_between hscan has
    rw [scan_blank_append hw] at hrest
    obtain ⟨us', tail', hbs⟩ : ∃ us' tail', scan bs = (us', tail') := ⟨_, _, rfl⟩
    rw [hbs] at hrest
    cases us' with
    | nil =>
      obtain ⟨htail, -⟩ := scan_nil hbs
      by_cases hne : bs = []
      · exact .inl hne
      · refine .inr fun hempty => hne ?_
        rw [hbs] at hempty
        rw [← htail, show tail' = "" from hempty]
        rfl
    | cons t us' =>
      obtain ⟨-, rfl⟩ := Prod.mk.inj hrest
      exact .inr (by rwa [hbs])

lemma Between.extend (h : Between as (bs ++ cs)) (hrests : Rests (as ++ bs)) (ds : List Char) :
    Between as (bs ++ ds) := by
  rcases hrests with hnil | hne
  · rw [(append_eq_nil_iff.1 hnil).1]
    exact between_nil _
  obtain ⟨ts, us, tail, w, hscan, hw, has⟩ := h
  obtain ⟨all, rest, hs⟩ : ∃ all rest, scan (as ++ bs) = (all, rest) := ⟨_, _, rfl⟩
  rw [hs] at hne
  have hcs := scan_append_blank hs hne cs
  have hds := scan_append_blank hs hne ds
  rw [append_assoc] at hcs hds
  obtain ⟨htokens, -⟩ := Prod.mk.inj (hscan.symm.trans hcs)
  rcases append_eq_append_iff.1 htokens with ⟨more, rfl, -⟩ | ⟨more, rfl, hus⟩
  · rw [append_assoc] at hds
    exact ⟨ts, _, _, w, hds, hw, has⟩
  · cases more with
    | nil =>
      rw [append_nil] at has
      exact ⟨all, _, _, w, hds, hw, has⟩
    | cons t more =>
      -- the token would lie in the blanks that the text ends with
      exfalso
      have hnext : scan (rest.toList ++ cs) = (t :: (more ++ us), _) := Prod.ext hus rfl
      obtain ⟨-, hreads, -⟩ := legible_of_scan hnext
      have hchars := chars_scan hs
      rw [has, chars_append, append_assoc, append_assoc, append_cancel_left_eq] at hchars
      refine not_blank_of_reads hreads fun c hc => scan_tail hs c ?_
      rw [← hchars]
      simp [hc]

end DeviceForge.Token
