import DeviceForge.Proofs.Layout.Assignment
import DeviceForge.Proofs.Layout.Boundary
import DeviceForge.Proofs.Layout.Spacing
/-!
# Gaps with their line feeds kept

The later passes of the layout change blanks and empty lines, but no gap gains or loses its line feeds, apart from the
one before the whole text (`Kept`).
-/

namespace DeviceForge.Layout

open Text List Token String Reader Mode

variable {cs rest w tail line : List Char} {t : Token} {r : Reader} {afterIf afterEmpty : Bool} {c : Char}
  {left : Option Role} {lines : List (List Char)}

structure Reader.Like (r r' : Reader) (c : Char) : Prop where
  mode : r'.mode = r.mode
  feed : r'.gap = .feed ↔ r.gap = .feed
  step : Text.isSpace c = false → r'.here.step c = r.here.step c

namespace Reader.Like

variable {r r' : Reader} {c : Char}

lemma refl (r : Reader) (c : Char) : r.Like r c :=
  ⟨rfl, Iff.rfl, fun _ => rfl⟩

lemma push_eq (h : r.Like r' c) (hc : c ≠ '\n') : r'.push c = r.push c := by
  by_cases hspace : isSpace c
  · rw [push_space hspace, push_space hspace, h.mode, Gap.push, Gap.push, if_neg hc, if_neg hc]
    simp only [h.feed]
  · rw [Bool.not_eq_true] at hspace
    rw [push_char hspace, push_char hspace, h.step hspace]

lemma regapped (h : r.Like r' c) (hc : c ≠ '\n') (p : Option Glyph) (cs : List Char) :
    Regapped Kept p (glyphs r (c :: cs)) (glyphs r' (c :: cs)) := by
  have hpush := h.push_eq hc
  by_cases hspace : isSpace c
  · rw [glyphs_space hspace, glyphs_space hspace, hpush]
    exact .refl kept_self p _
  · rw [Bool.not_eq_true] at hspace
    rw [glyphs_char hspace, glyphs_char hspace, h.step hspace]
    exact .cons (.inr h.feed) (.refl kept_self _ _)

end Reader.Like

/-! ## Operators -/

lemma Reader.past_chars (h : ∀ c ∈ cs, isSpace c = false) (m : Mode) :
    (⟨m, .tight⟩ : Reader).past cs = ⟨cs.foldl step m, .tight⟩ := by
  induction cs generalizing m with
  | nil => rfl
  | cons c cs ih =>
    obtain ⟨hc, hcs⟩ := forall_mem_cons.1 h
    rw [past_cons, push_char hc, foldl_cons]
    exact ih hcs _

structure Reader.Shows (r : Reader) (left : Option Role) : Prop where
  operator : left = some .unary ∨ left = some .binary → r.here.step '.' ≠ .point true
  unary : left = some .unary → r = ⟨.between false, .tight⟩

lemma text_of_role {previous : Option Token} (h : role previous t ≠ .plain) : t.text ∈ spacedOperators := by
  unfold role roleOf at h
  split at h
  · exact absurd rfl h
  split at h
  · rename_i hpunct
    rw [Bool.and_eq_true] at hpunct
    simpa using hpunct.2
  · exact absurd rfl h

lemma foldl_spacedOperator {text : String} (h : text ∈ spacedOperators) (afterIf : Bool) :
    ∀ c cs, text.toList = c :: cs → (∀ d ∈ c :: cs, isSpace d = false ∧ d ≠ '.') ∧
      (cs.foldl step (.start afterIf c)).step '.' ≠ .point true ∧
      (text = "-" ∨ text = "+" ∨ text = "*" → cs.foldl step (.start afterIf c) = .between false) := by
  have hchars : spacedOperators.all (fun op => op.toList.all fun d => !isSpace d && decide (d ≠ '.')) := by decide
  have hmodes (b : Bool) : spacedOperators.all (fun op =>
      decide ((op.toList.tail.foldl step (.start b (op.toList.head?.getD ' '))).step '.' ≠ .point true) &&
      (!(op = "-" || op = "+" || op = "*") ||
        decide (op.toList.tail.foldl step (.start b (op.toList.head?.getD ' ')) = .between false))) := by
    cases b <;> decide
  intro c cs htext
  have hchar := all_eq_true.1 hchars text h
  have hmode := all_eq_true.1 (hmodes afterIf) text h
  rw [htext] at hchar hmode
  rw [tail_cons, head?_cons, Option.getD_some, Bool.and_eq_true, decide_eq_true_eq] at hmode
  refine ⟨fun d hd => ?_, hmode.1, fun hsign => ?_⟩
  · simpa using all_eq_true.1 hchar d hd
  · have hop : (text = "-" || text = "+" || text = "*") := by simpa [or_assoc] using hsign
    simpa [hop] using hmode.2

lemma shows_role (hat : r.here.At afterIf (t.text.toList ++ rest)) (hreads : t.Reads rest)
    (previous : Option Token) : (r.past t.text.toList).Shows (some (role previous t)) := by
  obtain ⟨c, cs, htext, -, -⟩ := hreads
  have hover (hrole : role previous t ≠ .plain) :
      r.past t.text.toList = ⟨cs.foldl step (.start afterIf c), .tight⟩ := by
    obtain ⟨hchars, -, -⟩ := foldl_spacedOperator (text_of_role hrole) afterIf c cs htext
    obtain ⟨hc, hcs⟩ := forall_mem_cons.1 hchars
    rw [htext] at hat ⊢
    rw [past_cons, push_char hc.1, (hat.starts hc.1).eq hc.2, past_chars fun d hd => (hcs d hd).1]
  refine ⟨fun h => ?_, fun h => ?_⟩
  · have hrole : role previous t ≠ .plain := by
      rcases h with h | h
      · rw [Option.some.inj h]
        decide
      · rw [Option.some.inj h]
        decide
    rw [hover hrole]
    exact (foldl_spacedOperator (text_of_role hrole) afterIf c cs htext).2.1
  · have hrole : role previous t = .unary := Option.some.inj h
    have hne : role previous t ≠ .plain := by
      rw [hrole]
      decide
    rw [hover hne, (foldl_spacedOperator (text_of_role hne) afterIf c cs htext).2.2 (isSign_of_unary hrole).2]

lemma Reader.past_feed (hw : Spaces w) (h : '\n' ∈ w) (r : Reader) : r.past w = ⟨r.mode, .feed⟩ := by
  rw [past_spaces hw, Gap.past_eq, if_pos (.inl h)]

lemma Reader.past_blank (hw : Spaces w) (hne : w ≠ []) (h : '\n' ∉ w) (r : Reader) :
    r.past w = ⟨r.mode, if r.gap = .feed then .feed else .blank⟩ := by
  rw [past_spaces hw, Gap.past_eq]
  simp [h, hne]

lemma like_blank (hat : r.here.At afterIf (c :: cs)) (hc : c ≠ '\n')
    (hpoint : c = '.' → r.here.step '.' ≠ .point true) : r.Like (r.past [' ']) c := by
  have hover : r.past [' '] = ⟨r.mode, if r.gap = .feed then .feed else .blank⟩ :=
    past_blank (spaces_cons.2 ⟨rfl, spaces_nil⟩) (by simp) (by simp) r
  refine ⟨by rw [hover], ?_, fun hspace => ?_⟩
  · rw [hover]
    by_cases hfeed : r.gap = .feed <;> simp [hfeed]
  · have hstep : r.here.step c = .start afterIf c := by
      rcases hat.starts hspace with h | ⟨rfl, h, -⟩
      · exact h
      · exact absurd h (hpoint rfl)
    have hpaused : (r.past [' ']).here = .between afterIf := by
      rw [here_past]
      rcases hat with h | ⟨-, hhead⟩ | h
      · cases h
      · exact absurd (Option.some.inj hhead) hc
      · exact h.paused false
    rw [hpaused, hstep]
    rfl

lemma like_gapOf (hlead : Token.Blank t.lead.toList)
    (hat : r.here.At afterIf (t.lead.toList ++ (t.text.toList ++ rest))) (hshows : r.Shows left)
    (htext : t.text.toList = c :: cs) (hc : c ≠ '\n') (previous : Option Token) :
    (r.past t.lead.toList).Like (r.past (gapOf left (role previous t) t.lead).toList) c := by
  cases left with
  | none => exact .refl _ c
  | some left =>
    rcases spaced_cases left (role previous t) t.lead with ⟨hfeed, h⟩ | ⟨hfeed, ⟨hbinary, h⟩ | ⟨rfl, -, h⟩ | ⟨-, -, h⟩⟩
    · have hspaces : Spaces (strip t.lead.toList) :=
        (reuses_strip t.lead.toList).forall (by decide) (by decide) hlead.spaces
      rw [gapOf, h, past_feed hlead.spaces hfeed, past_feed hspaces ((mem_strip _).2 hfeed)]
      exact .refl _ c
    · rw [gapOf, h]
      by_cases hnil : t.lead.toList = []
      · rw [hnil, htext] at hat
        rw [hnil]
        refine like_blank hat hc fun hpoint => ?_
        rcases hbinary with rfl | hright
        · exact hshows.operator (.inr rfl)
        · have hrole : role previous t ≠ .plain := by
            rw [hright]
            decide
          have hchars := (foldl_spacedOperator (text_of_role hrole) afterIf c cs htext).1
          exact absurd hpoint (hchars c mem_cons_self).2
      · rw [past_blank hlead.spaces hnil hfeed, show " ".toList = [' '] from rfl,
          past_blank (spaces_cons.2 ⟨rfl, spaces_nil⟩) (by simp) (by simp)]
        exact .refl _ c
    · rw [gapOf, h, hshows.unary rfl, past_spaces hlead.spaces]
      refine ⟨rfl, ?_, fun _ => ?_⟩
      · rw [Gap.past_eq, if_neg (by simp [hfeed])]
        split <;> simp
      · cases (Gap.tight.past t.lead.toList) <;> rfl
    · rw [gapOf, h]
      exact .refl _ c

lemma regapped_spacedTokens {ts : List Token} (hlegible : Legible ts tail)
    (hreturn : '\r' ∉ chars ts ++ tail) (hat : r.here.At afterIf (chars ts ++ tail))
    (hshows : r.Shows left) (previous : Option Token) (p : Option Glyph) :
    Regapped Kept p (glyphs r (chars ts ++ tail)) (glyphs r (chars (spacedTokens left previous ts) ++ strip tail)) := by
  induction ts generalizing r afterIf left previous p with
  | nil =>
    have hspaces : Spaces tail := Blank.spaces hlegible
    rw [spacedTokens, chars_nil, nil_append, nil_append, glyphs_spaces hspaces,
      glyphs_spaces ((reuses_strip tail).forall (by decide) (by decide) hspaces)]
    exact .nil
  | cons t ts ih =>
    obtain ⟨hlead, hreads, hlegible⟩ := hlegible
    rw [chars_cons, List.append_assoc, List.append_assoc] at hat hreturn ⊢
    rw [spacedTokens, chars_cons, List.append_assoc, List.append_assoc, lead_withLead, text_withLead]
    obtain ⟨c, cs, htext, hblank, -⟩ := id hreads
    have hc : c ≠ '\n' := by
      rintro rfl
      cases hblank
    have hlike := like_gapOf hlead hat hshows htext hc previous
    have hover : (r.past (gapOf left (role previous t) t.lead).toList).past t.text.toList = (r.past t.lead.toList).past t.text.toList := by
      rw [htext, past_cons, past_cons, hlike.push_eq hc]
    have hat' := hat.foldl_spaces hlead.spaces
    rw [← here_past] at hat'
    have hreturn' : '\r' ∉ chars ts ++ tail := fun h => hreturn (mem_append_right _ (mem_append_right _ h))
    have hnext := hat'.token hreads hreturn'
    rw [← here_past] at hnext
    have hspaces : Spaces (gapOf left (role previous t) t.lead).toList :=
      (reuses_gapOf left (role previous t) t.lead).forall (by decide) (by decide) hlead.spaces
    rw [glyphs_append, glyphs_spaces hlead.spaces, glyphs_append, glyphs_append r, glyphs_spaces hspaces, glyphs_append _ t.text.toList, hover]
    have hfirst := hlike.regapped hc p cs
    rw [← htext] at hfirst
    exact hfirst.append (ih hlegible hreturn' hnext (shows_role hat' hreads previous) _ _)

lemma regapped_spaceOperators (hreturn : '\r' ∉ cs) :
    Regapped Kept none (glyphs .initial cs) (glyphs .initial (spaceOperators cs)) := by
  obtain ⟨ts, tail, hscan⟩ : ∃ ts tail, scan cs = (ts, tail) := ⟨_, _, rfl⟩
  have hchars := chars_scan hscan
  rw [spaceOperators, hscan]
  dsimp only
  rw [toList_append, toList_join_spaceTokens, ← strip_toList]
  rw [hchars] at hreturn ⊢
  have hat : initial.here.At false (chars ts ++ tail.toList) := at_between false _
  exact regapped_spacedTokens (legible_of_scan hscan) hreturn hat ⟨by simp, by simp⟩ none none

/-! ## Empty lines and the ends of the text -/

lemma spaces_or_char (cs : List Char) : Spaces cs ∨ ∃ w c rest, Spaces w ∧ Text.isSpace c = false ∧ cs = w ++ c :: rest := by
  have hsplit := @List.takeWhile_append_dropWhile _ Text.isSpace cs
  have htake : Spaces (cs.takeWhile isSpace) := fun c hc => mem_takeWhile_imp hc
  cases hdrop : cs.dropWhile Text.isSpace with
  | nil =>
    rw [hdrop, append_nil] at hsplit
    exact .inl (hsplit ▸ htake)
  | cons c rest =>
    have hc := head?_dropWhile_not Text.isSpace cs
    rw [hdrop] at hc hsplit
    exact .inr ⟨_, c, rest, htake, by simpa using hc, hsplit.symm⟩

lemma runInduction {motive : List Char → Prop} (spaces : ∀ w, Spaces w → motive w)
    (char : ∀ w c cs, Spaces w → Text.isSpace c = false → motive cs → motive (w ++ c :: cs)) (cs : List Char) : motive cs := by
  induction hn : cs.length using Nat.strong_induction_on generalizing cs with
  | _ n ih =>
    rcases spaces_or_char cs with hcs | ⟨w, c, rest, hw, hc, rfl⟩
    · exact spaces cs hcs
    · rw [List.length_append, length_cons] at hn
      exact char w c rest hw hc (ih rest.length (by omega) rest rfl)

lemma past_squeezeRun (hw : Spaces w) (r : Reader) : r.past (squeezeRun w) = r.past w := by
  have hspaces : Spaces (squeezeRun w) := fun c hc => hw c (squeezeRun_subset w hc)
  by_cases hfeed : '\n' ∈ w
  · refine (past_feed hspaces ?_ r).trans (past_feed hw hfeed r).symm
    obtain ⟨line, rest, rfl, -, ⟨-, h⟩ | ⟨-, h⟩⟩ := squeezeRun_cases hfeed
    · rwa [h]
    · rw [h]
      simp
  · rw [squeezeRun_oneLine hfeed]

lemma glyphs_collapseRest (r : Reader) (cs : List Char) : glyphs r (collapseRest cs) = glyphs r cs := by
  induction cs using runInduction generalizing r with
  | spaces w hw => rw [glyphs_spaces hw, glyphs_spaces (spaces_collapseRest hw)]
  | char w c cs hw hc ih =>
    have hspaces : Spaces (squeezeRun w) := fun d hd => hw d (squeezeRun_subset w hd)
    rw [collapseRest_run hw hc, glyphs_append, glyphs_append, past_squeezeRun hw, glyphs_spaces hw, glyphs_spaces hspaces, glyphs_char hc,
      glyphs_char hc, ih]

lemma glyphs_dropWhileEnd (r : Reader) (cs : List Char) : glyphs r (dropWhileEnd Text.isSpace cs) = glyphs r cs := by
  have hsplit : cs = dropWhileEnd Text.isSpace cs ++ (cs.reverse.takeWhile Text.isSpace).reverse := by
    rw [dropWhileEnd, ← reverse_append, List.takeWhile_append_dropWhile, reverse_reverse]
  have hspaces : Spaces (cs.reverse.takeWhile Text.isSpace).reverse := fun c hc => mem_takeWhile_imp (mem_reverse.1 hc)
  conv_rhs => rw [hsplit]
  rw [glyphs_append, glyphs_spaces hspaces, append_nil]

lemma regapped_trim (cs : List Char) :
    Regapped Kept none (glyphs .initial cs) (glyphs .initial (Text.trim (ofList (collapseEmptyLines cs))).toList) := by
  induction cs using runInduction with
  | spaces w hw =>
    have hspaces := spaces_collapseEmptyLines hw
    rw [Text.trim, toList_ofList, toList_ofList, glyphs_dropWhileEnd, dropWhile_eq_nil_iff.2 hspaces, glyphs_spaces hw]
    exact .nil
  | char w c cs hw hc =>
    obtain ⟨w', hw', hcollapse⟩ := collapseEmptyLines_run hw hc cs
    have hhere : (initial.past w).here = .between false := by
      rw [here_past]
      exact foldl_between hw false
    rw [hcollapse, Text.trim, toList_ofList, toList_ofList, glyphs_dropWhileEnd, dropWhile_append_of_pos hw',
      dropWhile_cons_of_neg (by simp [hc]), glyphs_append, glyphs_spaces hw, glyphs_char hc, glyphs_char hc, glyphs_collapseRest, hhere]
    exact .cons (.inl rfl) (.refl kept_self _ _)

lemma reuses_spacedTokens (left : Option Role) (previous : Option Token) (ts : List Token) :
    Reuses (chars ts) (chars (spacedTokens left previous ts)) := by
  induction ts generalizing left previous with
  | nil => exact .refl []
  | cons t ts ih =>
    rw [spacedTokens, chars_cons, chars_cons, lead_withLead, text_withLead]
    exact .append (.append (reuses_gapOf _ _ _) (.refl _)) (ih _ _)

lemma reuses_spaceOperators (cs : List Char) : Reuses cs (spaceOperators cs) := by
  obtain ⟨ts, tail, hscan⟩ : ∃ ts tail, scan cs = (ts, tail) := ⟨_, _, rfl⟩
  rw [spaceOperators, hscan]
  dsimp only
  rw [toList_append, toList_join_spaceTokens, ← strip_toList]
  nth_rewrite 1 [chars_scan hscan]
  exact .append (reuses_spacedTokens none none ts) (reuses_strip _)

lemma mem_intercalate (h : c ∈ ['\n'].intercalate lines) : c = '\n' ∨ ∃ line ∈ lines, c ∈ line := by
  cases lines with
  | nil => cases h
  | cons line lines =>
    rw [intercalate_lines, mem_append, joinAfter, mem_flatMap] at h
    rcases h with h | ⟨x, hx, h⟩
    · exact .inr ⟨line, mem_cons_self, h⟩
    · exact (mem_cons.1 h).imp_right fun h => ⟨x, mem_cons_of_mem _ hx, h⟩

lemma mem_intercalate_of_mem (hc : c ∈ line) (hline : line ∈ lines) : c ∈ ['\n'].intercalate lines := by
  cases lines with
  | nil => cases hline
  | cons first lines =>
    rw [intercalate_lines, mem_append, joinAfter, mem_flatMap]
    rcases mem_cons.1 hline with rfl | hline
    · exact .inl hc
    · exact .inr ⟨line, hline, mem_cons_of_mem _ hc⟩

lemma mem_trim {s : String} (h : c ∈ (Text.trim s).toList) : c ∈ s.toList := by
  rw [Text.trim, toList_ofList] at h
  exact (dropWhile_suffix _).subset ((Text.dropWhileEnd_prefix _ _).subset h)

lemma mem_collapseLines (h : line ∈ collapseLines afterEmpty lines) : line = [] ∨ line ∈ lines := by
  induction lines generalizing afterEmpty with
  | nil => cases h
  | cons first lines ih =>
    have hmore {afterEmpty : Bool} (h : line ∈ collapseLines afterEmpty lines) : line = [] ∨ line ∈ first :: lines :=
      (ih h).imp_right (mem_cons_of_mem _)
    rw [collapseLines] at h
    split at h
    · split at h
      · exact hmore h
      · exact (mem_cons.1 h).elim .inl hmore
    · exact (mem_cons.1 h).elim (fun h => .inr (h ▸ mem_cons_self)) hmore

lemma intercalate_splitAtChars (cs : List Char) : ['\n'].intercalate (splitAtChars (· == '\n') cs) = cs := by
  rw [splitAtChars_eq_splitOnP]
  exact intercalate_splitOn '\n'

lemma reuses_trim (cs : List Char) : Reuses cs (Text.trim (ofList (collapseEmptyLines cs))).toList := by
  intro c hc
  have hmem := mem_trim hc
  rw [toList_ofList] at hmem
  rcases mem_intercalate hmem with hc | ⟨line, hline, hc⟩
  · exact .inr (.inr hc)
  · rcases mem_collapseLines hline with rfl | hline
    · cases hc
    · refine .inl ?_
      rw [← intercalate_splitAtChars cs]
      exact mem_intercalate_of_mem hc hline

end DeviceForge.Layout

/-!
# Lines that are joined

Joining the lines of an assignment takes line feeds out of gaps, and nothing else.
-/

namespace DeviceForge.Layout

open List Text Option String Reader

variable {lines taken : List (String × Bool)} {parts : List String} {line : String × Bool} {r r' : Reader}
  {cs : List Char}

lemma joinLines_skip (n : Nat) (lines : List (String × Bool)) : joinLines n lines = joinLines 0 (lines.drop n) := by
  induction lines generalizing n with
  | nil => simp [joinLines]
  | cons line lines ih =>
    cases n with
    | zero => rfl
    | succ n => rw [joinLines, ih, drop_succ_cons]

structure Goes (line : String × Bool) : Prop where
  joinable : line.2 = true
  nonempty : Text.trim line.1 ≠ ""
  plain : hasStructure (Text.trim line.1) = false

lemma continuation?_some (h : continuation? lines = some parts) :
    (∀ line ∈ lines.take parts.length, Goes line) ∧ parts = (lines.take parts.length).map fun line => Text.trim line.1 := by
  induction lines generalizing parts with
  | nil => cases h
  | cons line lines ih =>
    obtain ⟨line, joinable⟩ := line
    rw [continuation?] at h
    split at h
    · cases h
    rename_i hplain
    simp only [Bool.or_eq_true, Bool.not_eq_true', not_or, Bool.not_eq_false, Bool.not_eq_true] at hplain
    have hgoes : Goes (line, joinable) := by
      refine ⟨hplain.1.1.1, fun hempty => ?_, hplain.1.2⟩
      have := hplain.1.1.2
      simp [hempty] at this
    split at h
    · obtain rfl := Option.some.inj h
      simp [hgoes]
    · rw [map_eq_some_iff] at h
      obtain ⟨rest, hrest, rfl⟩ := h
      obtain ⟨hall, hmap⟩ := ih hrest
      rw [length_cons, take_succ_cons, map_cons, ← hmap]
      exact ⟨forall_mem_cons.2 ⟨hgoes, hall⟩, rfl⟩

lemma goes_of_startsAssignment {line : String} (h : startsAssignment line) : Goes (line, true) := by
  unfold startsAssignment at h
  dsimp only at h
  split at h
  · cases h
  · rename_i hplain
    simp only [Bool.or_eq_true, not_or, Bool.not_eq_true] at hplain
    refine ⟨rfl, fun hempty => ?_, hplain.2⟩
    have := hplain.1.1
    simp [hempty] at this

lemma visible_trim (line : String) : (Text.trim line).toList.filter (!Text.isSpace ·) = line.toList.filter (!Text.isSpace ·) := by
  rw [← map_char_glyphs .initial, ← map_char_glyphs .initial, Text.trim, toList_ofList, glyphs_dropWhileEnd, map_char_glyphs,
    map_char_glyphs]
  conv_rhs => rw [← @List.takeWhile_append_dropWhile _ isSpace line.toList, filter_append]
  have hnil : (line.toList.takeWhile isSpace).filter (!Text.isSpace ·) = [] :=
    filter_eq_nil_iff.2 fun c hc => by simp [mem_takeWhile_imp hc]
  rw [hnil, nil_append]

lemma Goes.not_brace (h : Goes line) : ∀ x ∈ glyphs r line.1.toList, x.isBrace = false := by
  intro x hx
  have hchar : x.char ∈ line.1.toList.filter (!Text.isSpace ·) := by
    rw [← map_char_glyphs r]
    exact List.mem_map_of_mem hx
  rw [← visible_trim] at hchar
  have hplain := h.plain
  rw [hasStructure, List.any_eq_false] at hplain
  have := hplain x.char (mem_of_mem_filter hchar)
  simp only [Bool.or_eq_true, not_or, decide_eq_true_eq] at this
  simp [Glyph.isBrace, this.1.1, this.1.2]

lemma Goes.exists_char (h : Goes line) : ∃ w c cs, Spaces w ∧ isSpace c = false ∧
    line.1.toList = w ++ c :: cs ∧ (Text.trim line.1).toList = c :: dropWhileEnd isSpace cs := by
  rcases spaces_or_char line.1.toList with hspaces | ⟨w, c, cs, hw, hc, hline⟩
  · refine absurd ?_ h.nonempty
    rw [Text.trim, dropWhile_eq_nil_iff.2 hspaces]
    rfl
  · refine ⟨w, c, cs, hw, hc, hline, ?_⟩
    rw [Text.trim, hline, toList_ofList, dropWhile_append_of_pos hw, dropWhile_cons_of_neg (by simp [hc]),
      dropWhileEnd_cons hc]

lemma gap_past_dropWhileEnd (h : r.gap = .tight ∨ glyphs r cs ≠ []) :
    (r.past (dropWhileEnd isSpace cs)).gap = .tight := by
  rcases eq_nil_or_concat (dropWhileEnd isSpace cs) with hnil | ⟨ds, d, hds⟩
  · rw [hnil]
    refine h.resolve_right fun hne => hne ?_
    rw [← glyphs_dropWhileEnd, hnil, glyphs_nil]
  · have hd := getLast?_dropWhileEnd isSpace cs
    rw [concat_eq_append] at hds
    rw [hds] at hd ⊢
    rw [past_append, past_cons, push_char (hd d (by simp)), past_nil]

/-! ## Lines without line comments -/

def Sober (r : Reader) : List (String × Bool) → Prop
  | [] => True
  | line :: lines =>
    (line.2 = true → ∀ x ∈ glyphs r line.1.toList, x.mode.isLine = false) ∧ Sober (r.past (line.1.toList ++ ['\n'])) lines

def texts (lines : List (String × Bool)) : List (List Char) :=
  lines.map (·.1.toList)

lemma Sober.drop (h : Sober (r.push '\n') (taken ++ lines)) :
    Sober ((r.past (joinAfter (texts taken))).push '\n') lines := by
  induction taken generalizing r with
  | nil => exact h
  | cons line taken ih =>
    have hrest := h.2
    rw [past_append] at hrest
    have hjoin : joinAfter (texts (line :: taken)) = '\n' :: line.1.toList ++ joinAfter (texts taken) := by
      rw [texts, map_cons, joinAfter, flatMap_cons]
      rfl
    rw [hjoin, past_append]
    exact ih hrest

lemma regapped_taken (hgoes : ∀ line ∈ taken, Goes line) (hmode : r'.mode = r.mode)
    (hgap : r'.gap = .tight) (hline : r.mode.isLine = false) (hsober : Sober (r.push '\n') (taken ++ lines))
    {p : Option Glyph} (hp : ∀ y ∈ p, y.isBrace = false) :
    Regapped Loosened p (glyphs r (joinAfter (texts taken))) (glyphs r' (taken.flatMap fun line => ' ' :: (Text.trim line.1).toList)) := by
  induction taken generalizing r r' p with
  | nil => exact .nil
  | cons line taken ih =>
    obtain ⟨hgo, hgoes⟩ := forall_mem_cons.1 hgoes
    obtain ⟨w, c, cs, hw, hc, htext, htrim⟩ := hgo.exists_char
    obtain ⟨hfirst, hrest⟩ := hsober
    have hjoin : joinAfter (texts (line :: taken)) = '\n' :: (line.1.toList ++ joinAfter (texts taken)) := by
      rw [texts, map_cons, joinAfter, flatMap_cons]
      rfl
    have hfeed : (r.push '\n').past w = ⟨r.mode, .feed⟩ := past_feed (spaces_cons.2 ⟨rfl, hw⟩) mem_cons_self r
    have hblank : r'.push ' ' = ⟨r.mode, .blank⟩ := by
      rw [push_space rfl, hmode, hgap]
      rfl
    have hpause := Mode.pause_eq hline false true
    -- the first glyph of the line has another gap, and the rest of the line is the same
    have hglyphs : glyphs (r.push '\n') line.1.toList = ⟨.feed, c, (r.mode.pause true).step c⟩ :: glyphs ⟨(r.mode.pause true).step c, .tight⟩ cs := by
      rw [htext, glyphs_append, glyphs_spaces hw, hfeed, nil_append, glyphs_char hc]
      rfl
    have hglyphs' : glyphs (r'.push ' ') (Text.trim line.1).toList =
        ⟨.blank, c, (r.mode.pause true).step c⟩ :: glyphs ⟨(r.mode.pause true).step c, .tight⟩ cs := by
      rw [htrim, hblank, glyphs_char hc, glyphs_dropWhileEnd, ← hpause]
      rfl
    have hover : (r.push '\n').past line.1.toList = (⟨(r.mode.pause true).step c, .tight⟩ : Reader).past cs := by
      rw [htext, past_append, hfeed, past_cons, push_char hc]
      rfl
    have hover' : (r'.push ' ').past (Text.trim line.1).toList =
        (⟨(r.mode.pause true).step c, .tight⟩ : Reader).past (dropWhileEnd isSpace cs) := by
      rw [htrim, hblank, past_cons, push_char hc, ← hpause]
      rfl
    have hnotline := hfirst hgo.joinable
    have hbraces := hgo.not_brace (r := r.push '\n')
    rw [hglyphs] at hnotline hbraces
    rw [hjoin, flatMap_cons, cons_append, glyphs_space (by decide), glyphs_space (by decide), glyphs_append, glyphs_append,
      hglyphs, hglyphs']
    refine .append (.cons (.inr ⟨by simp, hbraces _ mem_cons_self, hp⟩) (.refl loosened_self _ _)) (ih hgoes ?_ ?_ ?_ ?_ ?_)
    · rw [hover, hover']
      exact mode_past_congr (glyphs_dropWhileEnd _ cs)
    · rw [hover']
      exact gap_past_dropWhileEnd (.inl rfl)
    · rw [hover]
      refine isLine_past (hnotline _ mem_cons_self) fun x hx => hnotline x (mem_cons_of_mem _ hx)
    · rw [past_append] at hrest
      exact hrest
    · intro y hy
      rw [getLast?_cons, some_or] at hy
      obtain rfl := some.inj hy
      refine hbraces _ ?_
      cases hlast : (glyphs ⟨(r.mode.pause true).step c, .tight⟩ cs).getLast? with
      | none => exact mem_cons_self
      | some x => exact mem_cons_of_mem _ (mem_of_getLast? hlast)

lemma joinLines_ne_nil (h : lines ≠ []) : joinLines 0 lines ≠ [] := by
  obtain ⟨line, lines, rfl⟩ := exists_cons_of_ne_nil h
  obtain ⟨line, joinable⟩ := line
  rw [joinLines]
  split <;> simp

lemma joinAfter_eq {lines : List (List Char)} (h : lines ≠ []) : joinAfter lines = '\n' :: ['\n'].intercalate lines := by
  obtain ⟨line, lines, rfl⟩ := exists_cons_of_ne_nil h
  rw [intercalate_lines, joinAfter, flatMap_cons]
  rfl

lemma toList_joined (line : String) (lines : List (String × Bool)) :
    (" ".intercalate (trimEnd line :: lines.map fun line => Text.trim line.1)).toList =
      dropWhileEnd isSpace line.toList ++ lines.flatMap fun line => ' ' :: (Text.trim line.1).toList := by
  have hspace : " ".toList = [' '] := rfl
  rw [toList_intercalate, hspace, map_cons, intercalate_cons, flatMap_map, flatMap_map, trimEnd, toList_ofList]

lemma regapped_assignment {line : String} (hstarts : startsAssignment line)
    (hparts : continuation? lines = some parts) (hsober : Sober r ((line, true) :: lines)) (p : Option Glyph) :
    Regapped Loosened p (glyphs r (line.toList ++ joinAfter (texts (lines.take parts.length))))
      (glyphs r (" ".intercalate (trimEnd line :: parts)).toList) := by
  have hgo := goes_of_startsAssignment hstarts
  obtain ⟨hgoes, hmap⟩ := continuation?_some hparts
  obtain ⟨hfirst, hrest⟩ := hsober
  have hnotline := hfirst rfl
  rw [past_append, ← take_append_drop parts.length lines] at hrest
  have hspelled : (" ".intercalate (trimEnd line :: parts)).toList =
      dropWhileEnd isSpace line.toList ++ (lines.take parts.length).flatMap fun line => ' ' :: (Text.trim line.1).toList := by
    conv_lhs => rw [hmap, toList_joined]
  have hvisible : glyphs r line.toList ≠ [] := by
    intro hnil
    obtain ⟨w, c, cs, -, hc, htext, -⟩ := hgo.exists_char
    have hspaces := spaces_of_glyphs hnil
    rw [show line.toList = w ++ c :: cs from htext] at hspaces
    simp [(spaces_cons.1 (spaces_append.1 hspaces).2).1] at hc
  obtain ⟨x, hlast⟩ := ne_none_iff_exists'.1 (mt getLast?_eq_none_iff.1 hvisible)
  have hx := mem_of_getLast? hlast
  have hline : (r.past line.toList).mode.isLine = false := by
    rw [mode_past, hlast]
    exact hnotline x hx
  have hbrace : ∀ y ∈ (glyphs r line.toList).getLast?.or p, y.isBrace = false := by
    intro y hy
    rw [hlast, some_or] at hy
    obtain rfl := some.inj hy
    exact hgo.not_brace x hx
  rw [hspelled, glyphs_append, glyphs_append, glyphs_dropWhileEnd]
  exact .append (.refl loosened_self p _) (regapped_taken hgoes (mode_past_congr (glyphs_dropWhileEnd r line.toList))
    (gap_past_dropWhileEnd (.inr hvisible)) hline hrest hbrace)

lemma regapped_joinLines (hsober : Sober r lines) (p : Option Glyph) :
    Regapped Loosened p (glyphs r (['\n'].intercalate (texts lines)))
      (glyphs r (['\n'].intercalate ((joinLines 0 lines).map String.toList))) := by
  induction hn : lines.length using Nat.strong_induction_on generalizing lines r p with
  | _ n ih =>
    cases lines with
    | nil => exact .refl loosened_self p _
    | cons line lines =>
      obtain ⟨line, joinable⟩ := line
      rw [length_cons] at hn
      -- the lines behind this one, or behind those that are joined with it
      have hbehind {rest : List (String × Bool)} (hlen : rest.length < n) {q q' : Reader} (hmode : q'.mode = q.mode)
          (hsober : Sober (q.push '\n') rest) (p : Option Glyph) :
          Regapped Loosened p (glyphs q (joinAfter (texts rest))) (glyphs q' (joinAfter ((joinLines 0 rest).map String.toList))) := by
        by_cases hnil : rest = []
        · subst hnil
          exact .nil
        · have hpush : q'.push '\n' = q.push '\n' := by
            rw [push_space rfl, push_space rfl, hmode]
            rfl
          rw [joinAfter_eq (by simpa [texts] using hnil), joinAfter_eq (by simpa using joinLines_ne_nil hnil), glyphs_space rfl, glyphs_space rfl,
            hpush]
          exact ih rest.length hlen hsober p rfl
      have htexts : texts ((line, joinable) :: lines) = line.toList :: texts lines := rfl
      have hrest := hsober.2
      rw [past_append] at hrest
      rw [htexts, intercalate_lines, joinLines]
      split
      · rename_i parts hparts
        split at hparts
        · rename_i hstarts
          rw [Bool.and_eq_true] at hstarts
          obtain ⟨rfl, hstarts⟩ := hstarts
          have hsplit := take_append_drop parts.length lines
          have hjoin : joinAfter (texts lines) =
              joinAfter (texts (lines.take parts.length)) ++ joinAfter (texts (lines.drop parts.length)) := by
            rw [texts, texts, texts, joinAfter, joinAfter, joinAfter, ← flatMap_append, ← map_append, hsplit]
          have hassignment := regapped_assignment hstarts hparts hsober p
          rw [← hsplit] at hrest
          have hdrop := hrest.drop
          rw [← past_append] at hdrop
          rw [map_cons, intercalate_lines, hjoin, joinLines_skip, ← List.append_assoc, glyphs_append,
            glyphs_append r (" ".intercalate (trimEnd line :: parts)).toList]
          exact hassignment.append (hbehind (by rw [length_drop]; omega) (hassignment.mode_past rfl) hdrop _)
        · cases hparts
      · rw [map_cons, intercalate_lines, glyphs_append, glyphs_append]
        exact .append (.refl loosened_self p _) (hbehind (by omega) rfl hrest _)

/-! ## The flags of the lines -/

lemma agrees_keepsLines (hreturn : '\r' ∉ cs) : Agrees Warns (.between false) (Segment.labelled keepsLines cs) := by
  refine agrees_of_shade (fun s _ c m hfits hline => ?_) hreturn trivial
  have hsegment := isLineSegment_of_shade (hfits.line hline)
  rw [isLineSegment, Bool.and_eq_true] at hsegment
  rw [keepsLines, hsegment.1, Bool.true_or]

lemma markInduction {motive : List (Char × Bool) → Prop} (last : ∀ line, OneLine (line.map (·.1)) → motive line)
    (more : ∀ line k rest, OneLine (line.map (·.1)) → motive rest → motive (line ++ ('\n', k) :: rest)) (ms : List (Char × Bool)) :
    motive ms := by
  induction hn : ms.length using Nat.strong_induction_on generalizing ms with
  | _ n ih =>
    by_cases hfeed : '\n' ∈ ms.map (·.1)
    · obtain ⟨as, bs, hsplit, has⟩ := eq_append_cons_of_mem hfeed
      obtain ⟨line, rest, rfl, rfl, hrest⟩ := map_eq_append_iff.1 hsplit
      obtain ⟨⟨c, k⟩, rest, rfl, hc, rfl⟩ := map_eq_cons_iff.1 hrest
      obtain rfl : c = '\n' := hc
      rw [List.length_append, length_cons] at hn
      exact more line k rest has (ih rest.length (by omega) rest rfl)
    · exact last ms hfeed

lemma sober_linesOf {ms : List (Char × Bool)} (h : Agrees Warns r.here ms) : Sober r (linesOf ms) := by
  have hline {r : Reader} {line : List (Char × Bool)} {k : Bool} (hwarned : Agrees Warns r.here line) (hflag : (!(line.any (·.2) || k))) :
      ∀ x ∈ glyphs r (line.map (·.1)), x.mode.isLine = false := by
    intro x hx
    by_contra hmode
    obtain ⟨y, hy, -, m, hwarns⟩ := hwarned.exists_of_glyph hx
    simp [any_eq_true.2 ⟨y, hy, hwarns (by simpa using hmode)⟩] at hflag
  induction ms using markInduction generalizing r with
  | last line hone =>
    rw [linesOf_line hone]
    refine ⟨fun hflag => ?_, trivial⟩
    rw [toList_ofList]
    exact @hline r line false h (by simpa using hflag)
  | more line k rest hone ih =>
    obtain ⟨hwarned, -, hnext⟩ := agrees_append.1 h
    rw [← here_past, ← here_push] at hnext
    rw [linesOf_append hone]
    refine ⟨fun hflag => ?_, ?_⟩
    · rw [toList_ofList]
      exact hline hwarned hflag
    · rw [toList_ofList, past_append]
      exact ih hnext

lemma intercalate_linesOf (ms : List (Char × Bool)) :
    linesOf ms ≠ [] ∧ ['\n'].intercalate (texts (linesOf ms)) = ms.map (·.1) := by
  induction ms using markInduction with
  | last line hone =>
    rw [linesOf_line hone, texts, map_singleton, toList_ofList, intercalate_lines]
    simp [joinAfter]
  | more line k rest hone ih =>
    obtain ⟨hne, ih⟩ := ih
    rw [linesOf_append hone, texts, map_cons, toList_ofList, intercalate_lines, ← texts,
      joinAfter_eq (by simpa [texts] using hne), ih]
    simp

lemma joinAssignments_eq (cs : List Char) :
    joinAssignments cs = ['\n'].intercalate ((joinLines 0 (linesOf (Segment.labelled keepsLines cs))).map String.toList) := by
  rw [linesOf, map_fst_labels, joinAssignments, toList_intercalate]
  rfl

lemma regapped_joinAssignments (hreturn : '\r' ∉ cs) :
    Regapped Loosened none (glyphs .initial cs) (glyphs .initial (joinAssignments cs)) := by
  have hsober : Sober .initial (linesOf (Segment.labelled keepsLines cs)) := sober_linesOf (agrees_keepsLines hreturn)
  have hjoined := regapped_joinLines hsober none
  rwa [(intercalate_linesOf _).2, map_fst_labels, ← joinAssignments_eq] at hjoined

lemma mem_joinLines {n : Nat} {part : String} (h : part ∈ joinLines n lines) {c : Char}
    (hc : c ∈ part.toList) : c = ' ' ∨ ∃ line ∈ lines, c ∈ line.1.toList := by
  induction lines generalizing n with
  | nil => cases h
  | cons line lines ih =>
    obtain ⟨line, joinable⟩ := line
    have hmore {n : Nat} (h : part ∈ joinLines n lines) : c = ' ' ∨ ∃ x ∈ (line, joinable) :: lines, c ∈ x.1.toList :=
      (ih h).imp_right fun hex => hex.imp fun x hx => ⟨mem_cons_of_mem _ hx.1, hx.2⟩
    cases n with
    | succ n => exact hmore h
    | zero =>
      rw [joinLines] at h
      split at h
      · rename_i parts hparts
        rcases mem_cons.1 h with rfl | h
        · split at hparts
          · rw [(continuation?_some hparts).2, toList_joined] at hc
            rcases mem_append.1 hc with hc | hc
            · exact .inr ⟨_, mem_cons_self, (Text.dropWhileEnd_prefix _ _).subset hc⟩
            · obtain ⟨x, hx, hc⟩ := mem_flatMap.1 hc
              exact (mem_cons.1 hc).imp_right fun hc => ⟨x, mem_cons_of_mem _ (mem_of_mem_take hx), mem_trim hc⟩
          · cases hparts
        · exact hmore h
      · rcases mem_cons.1 h with rfl | h
        · exact .inr ⟨_, mem_cons_self, hc⟩
        · exact hmore h

lemma reuses_joinAssignments (cs : List Char) : Reuses cs (joinAssignments cs) := by
  intro c hc
  rw [joinAssignments_eq] at hc
  rcases mem_intercalate hc with hc | ⟨part, hpart, hc⟩
  · exact .inr (.inr hc)
  · obtain ⟨joined, hjoined, rfl⟩ := mem_map.1 hpart
    rcases mem_joinLines hjoined hc with hc | ⟨line, hline, hc⟩
    · exact .inr (.inl hc)
    · refine .inl ?_
      rw [← map_fst_labels keepsLines cs, ← (intercalate_linesOf _).2]
      exact mem_intercalate_of_mem hc (mem_map_of_mem hline)

end DeviceForge.Layout
