import DeviceForge.Proofs.Layout.Condition
import DeviceForge.Proofs.Layout.Separated
/-!
# Conditions that are flattened

Flattening puts blanks in place of line feeds inside conditions and changes no other gap (`Flattened`).
-/

namespace DeviceForge.Layout

open Segment List Text Token Code Reader

variable {p q : Option Glyph} {xs : List (Char × Segment.Kind)} {r : Reader} {cs inside rest : List Char}
  {c : Char} {ts : List Token}

def Flattened (_ : Option Glyph) (x : Glyph) (g : Gap) : Prop :=
  g = x.gap ∨ x.gap = .feed ∧ g = .blank

lemma flattened_self (p : Option Glyph) (x : Glyph) : Flattened p x x.gap :=
  .inl rfl

lemma Flattened.fed {x : Glyph} {g : Gap} (h : Flattened p x g) : Fed p x g := by
  intro hg
  rcases h with h | ⟨h, -⟩
  · exact .inr (.inl (h ▸ hg))
  · exact .inr (.inl h)

lemma flattened_trans {xs ys zs : List Glyph} (h : Regapped Flattened p xs ys)
    (h' : Regapped Flattened q ys zs) : Regapped Flattened p xs zs := by
  refine h.trans h' fun p q x g g' hx hy => ?_
  rcases hy with rfl | ⟨hfeed, rfl⟩
  · exact hx
  · rcases hx with rfl | ⟨hx, -⟩
    · exact .inr ⟨hfeed, rfl⟩
    · exact .inr ⟨hx, rfl⟩

lemma closing_glyphs (h : Agrees Marks r.here xs) (level : Nat) : closing level (glyphs r (xs.map (·.1))) =
      (closingIn .round level xs).map fun n => (glyphs r ((xs.take n).map (·.1))).length := by
  induction xs generalizing r level with
  | nil => rfl
  | cons x xs ih =>
    obtain ⟨c, kind⟩ := x
    obtain ⟨hmarks, hxs⟩ := h
    rw [← here_push] at hxs
    rw [map_cons]
    by_cases hc : isSpace c
    · have hbracket {d : Char} (hd : isSpace d = false) : ¬(kind = .code ∧ c = d) := by
        rintro ⟨-, rfl⟩
        simp [hc] at hd
      rw [glyphs_space hc, ih hxs, Segment.closingIn, if_neg (hbracket (by decide)), if_neg (hbracket (by decide)), Option.map_map]
      congr 1
      funext n
      rw [Function.comp_apply, take_succ_cons, map_cons, glyphs_space hc]
    · rw [Bool.not_eq_true] at hc
      have hcode {d : Char} (hd : isBracket d) : (r.here.step c = .between false ∧ c = d) ↔ (kind = .code ∧ c = d) := by
        refine and_congr_left fun heq => ?_
        rw [← Mode.next_char hc]
        exact (hmarks.bracket (heq ▸ hd)).symm
      have hmore (level : Nat) : (closing level (glyphs ⟨r.here.step c, .tight⟩ (xs.map (·.1)))).map (· + 1) =
          ((closingIn .round level xs).map (· + 1)).map fun n => (glyphs r (((c, kind) :: xs).take n |>.map (·.1))).length := by
        rw [← push_char hc, ih hxs, Option.map_map, Option.map_map]
        congr 1
        funext n
        rw [Function.comp_apply, Function.comp_apply, take_succ_cons, map_cons, glyphs_char hc, length_cons, push_char hc]
      have hclose := hcode (d := ')') (by decide)
      have hopen := hcode (d := '(') (by decide)
      rw [glyphs_char hc, closing, Segment.closingIn]
      simp only [hclose, hopen, hmore]
      change _ = Option.map _ (if kind = .code ∧ c = ')' then _ else if kind = .code ∧ c = '(' then _ else _)
      split
      · split
        · rfl
        · rfl
      split
      · rfl
      · rfl

lemma closing_enclosed (h : Agrees Marks r.here (marked cs)) :
    closing 1 (glyphs r cs) = (Segment.enclosed? .round cs).map fun x => (glyphs r x.1).length := by
  have hclosing := closing_glyphs h 1
  rw [map_fst_marked] at hclosing
  rw [hclosing, Segment.enclosed?, Option.map_map]
  congr 1
  funext n
  rw [Function.comp_apply, map_take, map_fst_marked]

lemma getElem?_of_segmentClosingIn {b : Bracket} {level n : Nat}
    (h : closingIn b level xs = some n) : (xs.map (·.1))[n]? = some b.closing := by
  induction xs generalizing level n with
  | nil => cases h
  | cons x xs ih =>
    obtain ⟨c, kind⟩ := x
    have hmore {level : Nat} (h : (closingIn b level xs).map (· + 1) = some n) : (((c, kind) :: xs).map (·.1))[n]? = some b.closing := by
      obtain ⟨k, hk, rfl⟩ := Option.map_eq_some_iff.1 h
      exact ih hk
    rw [Segment.closingIn] at h
    split at h
    · rename_i hc
      split at h
      · obtain rfl := Option.some.inj h
        exact congrArg some hc.2
      · exact hmore h
    split at h
    · exact hmore h
    · exact hmore h

lemma eq_of_enclosed? (h : enclosed? .round cs = some (inside, rest)) : cs = inside ++ ')' :: rest := by
  obtain ⟨n, hn, heq⟩ := Option.map_eq_some_iff.1 h
  obtain ⟨rfl, rfl⟩ := Prod.mk.inj heq
  have hget := getElem?_of_segmentClosingIn hn
  rw [map_fst_marked] at hget
  obtain ⟨hlt, hget⟩ := List.getElem?_eq_some_iff.1 hget
  have hdrop : cs.drop n = ')' :: cs.drop (n + 1) := by
    rw [drop_eq_getElem_cons hlt, hget]
    rfl
  rw [← hdrop, take_append_drop]

/-! ## Flattening a condition -/

lemma no_feed_of_oneLine (h : '\n' ∉ cs) (hr : r.gap ≠ .feed) : ∀ x ∈ glyphs r cs, x.gap ≠ .feed := by
  induction cs generalizing r with
  | nil => simp
  | cons c cs ih =>
    rw [mem_cons, not_or] at h
    by_cases hc : isSpace c
    · rw [glyphs_space hc, push_space hc]
      refine ih h.2 ?_
      rw [Gap.push, if_neg (Ne.symm h.1), if_neg hr]
      simp
    · rw [Bool.not_eq_true] at hc
      rw [glyphs_char hc]
      exact forall_mem_cons.2 ⟨hr, ih h.2 (by simp)⟩

lemma isLine_of_hasLineComment (hreturn : '\r' ∉ cs) (hjoins : r.here.Joins cs)
    (h : hasLineComment cs = false) : ∀ x ∈ glyphs r cs, x.mode.isLine = false := by
  have hagrees : Agrees Warns r.here (labelled isLineSegment cs) :=
    agrees_of_shade (fun s _ _ m hfits hline => isLineSegment_of_shade (hfits.line hline)) hreturn hjoins
  intro x hx
  by_contra hline
  rw [← map_fst_labels isLineSegment cs] at hx
  obtain ⟨y, hy, -, m, hwarns⟩ := hagrees.exists_of_glyph hx
  have hlabel := hwarns (by simpa using hline)
  obtain ⟨s, hs, hy⟩ := mem_flatMap.1 hy
  obtain ⟨c, -, rfl⟩ := mem_map.1 hy
  rw [hasLineComment, any_eq_false] at h
  exact h s hs hlabel

lemma regapped_flatRun {m : Mode} (hm : m.isLine = false)
    (hline : ∀ x ∈ glyphs ⟨m, .tight⟩ cs, x.mode.isLine = false) (p : Option Glyph) :
    Regapped Flattened p (glyphs ⟨m, .tight⟩ cs) (glyphs ⟨m, .tight⟩ (respace flatRun [] cs)) := by
  induction cs using runInduction generalizing m p with
  | spaces w hw =>
    have hrespace : respace flatRun [] w = flatRun w := by
      rw [← append_nil w, respace_spaces hw, nil_append, respace, append_nil]
    have hspaces : Spaces (flatRun w) := by
      by_cases hne : w = []
      · rw [hne]
        exact spaces_nil
      · exact (runChange_flatRun.spaces w hne hw).2
    rw [hrespace, glyphs_spaces hw, glyphs_spaces hspaces]
    exact .nil
  | char w c cs hw hc ih =>
    have hrespace : respace flatRun [] (w ++ c :: cs) = flatRun w ++ c :: respace flatRun [] cs := by
      rw [runChange_flatRun.respace_lead hw hc, respace_char hc, runChange_flatRun.nil, nil_append]
    have hspaces : Spaces (flatRun w) := by
      by_cases hne : w = []
      · rw [hne]
        exact spaces_nil
      · exact (runChange_flatRun.spaces w hne hw).2
    have hhere : ((⟨m, .tight⟩ : Reader).past (flatRun w)).here = ((⟨m, .tight⟩ : Reader).past w).here ∧
        Flattened p ⟨((⟨m, .tight⟩ : Reader).past w).gap, c, ((⟨m, .tight⟩ : Reader).past w).here.step c⟩
          ((⟨m, .tight⟩ : Reader).past (flatRun w)).gap := by
      by_cases hfeed : '\n' ∈ w
      · have hrun : flatRun w = [' '] := if_pos (by simpa using hfeed)
        have hblank : Spaces [' '] := spaces_cons.2 ⟨rfl, spaces_nil⟩
        rw [hrun, past_feed hw hfeed, past_blank hblank (by simp) (by simp)]
        exact ⟨Mode.pause_eq hm false true, .inr ⟨rfl, rfl⟩⟩
      · rw [flatRun_of_oneLine hfeed]
        exact ⟨rfl, .inl rfl⟩
    rw [glyphs_append, glyphs_spaces hw, nil_append, glyphs_char hc] at hline ⊢
    rw [hrespace, glyphs_append, glyphs_spaces hspaces, nil_append, glyphs_char hc, hhere.1]
    obtain ⟨hfirst, hrest⟩ := forall_mem_cons.1 hline
    exact .cons hhere.2 (ih hfirst hrest _)

lemma respace_concat {f : List Char → List Char} (hf : f [] = []) (hc : isSpace c = false)
    (pending cs : List Char) : ∃ ds, respace f pending (cs ++ [c]) = ds ++ [c] := by
  induction cs generalizing pending with
  | nil => exact ⟨f pending, by rw [nil_append, respace_char hc, respace, hf]⟩
  | cons d cs ih =>
    rw [cons_append, respace]
    split
    · exact ih _
    · obtain ⟨ds, hds⟩ := ih []
      exact ⟨f pending ++ d :: ds, by rw [hds, List.append_assoc, cons_append]⟩

lemma oneLine_respace_flatRun (hc : isSpace c = false) (pending cs : List Char) :
    '\n' ∉ respace flatRun pending (cs ++ [c]) := by
  have hne {d : Char} (hd : isSpace d = false) : '\n' ≠ d := by
    rintro rfl
    cases hd
  induction cs generalizing pending with
  | nil =>
    rw [nil_append, respace_char hc, respace, mem_append, mem_cons]
    simp [oneLine_flatRun, hne hc]
  | cons d cs ih =>
    rw [cons_append, respace]
    split
    · exact ih _
    · rename_i hd
      rw [mem_append, mem_cons]
      simp [oneLine_flatRun, hne (by simpa using hd), ih]

structure FlatBehind (cs ds : List Char) : Prop where
  regapped : ∀ p, Regapped Flattened p (glyphs .opened cs) (glyphs .opened ds)
  oneLine : ∀ n, closing 1 (glyphs .opened cs) = some n → (∀ y ∈ (glyphs .opened cs).take n, y.isPlain = true) →
    ∀ y ∈ (glyphs .opened ds).take (n + 1), y.gap ≠ .feed

lemma flattenCondition_cases (cs : List Char) : flattenCondition cs = '(' :: cs ∧ (enclosed? .round cs = none ∨
      ∃ inside rest, enclosed? .round cs = some (inside, rest) ∧ ('\n' ∉ inside ∨ hasLineComment inside)) ∨
    ∃ inside rest, enclosed? .round cs = some (inside, rest) ∧ hasLineComment inside = false ∧
      flattenCondition cs = '(' :: (respace flatRun [] (inside ++ [')']) ++ rest) := by
  unfold flattenCondition
  cases h : enclosed? .round cs with
  | none => exact .inl ⟨rfl, .inl rfl⟩
  | some x =>
    obtain ⟨inside, rest⟩ := x
    dsimp only
    by_cases hflat : (inside.contains '\n' && !hasLineComment inside)
    · rw [if_pos hflat, flattenSpaces_eq [] inside (by decide)]
      rw [Bool.and_eq_true, Bool.not_eq_true'] at hflat
      exact .inr ⟨inside, rest, rfl, hflat.2, rfl⟩
    · rw [if_neg hflat]
      refine .inl ⟨rfl, .inr ⟨inside, rest, rfl, ?_⟩⟩
      rw [Bool.and_eq_true, not_and_or] at hflat
      simpa using hflat

lemma reuses_flattenCondition (cs : List Char) : Reuses ('(' :: cs) (flattenCondition cs) := by
  rcases flattenCondition_cases cs with ⟨hflat, -⟩ | ⟨inside, rest, hsome, -, hflat⟩
  · rw [hflat]
    exact .refl _
  · have hsplit : '(' :: cs = ['('] ++ ((inside ++ [')']) ++ rest) := by
      rw [eq_of_enclosed? hsome, List.append_assoc]
      rfl
    rw [hflat, hsplit]
    exact Reuses.append (.refl ['(']) ((runChange_flatRun.reuses_respace [] (inside ++ [')'])).append (.refl rest))

lemma flatBehind (hreturn : '\r' ∉ cs) : ∃ ds, flattenCondition cs = '(' :: ds ∧ FlatBehind cs ds := by
  have hclosing := closing_enclosed (r := .opened) (agrees_marked (m := opened.here) hreturn trivial)
  -- a condition that matches, among the glyphs
  have hglyphs {inside rest : List Char} (h : enclosed? .round cs = some (inside, rest)) :
      cs = inside ++ [')'] ++ rest ∧ '\r' ∉ inside ∧ closing 1 (glyphs .opened cs) = some (glyphs .opened inside).length := by
    have hcs := eq_of_enclosed? h
    refine ⟨by rw [hcs, List.append_assoc, singleton_append], fun hmem => hreturn ?_, by rw [hclosing, h]; rfl⟩
    rw [hcs]
    exact mem_append_left _ hmem
  rcases flattenCondition_cases cs with ⟨hflat, hnone | ⟨inside, rest, hsome, hinside⟩⟩ | ⟨inside, rest, hsome, hline, hflat⟩
  · refine ⟨cs, hflat, fun p => .refl flattened_self p _, fun n hn => ?_⟩
    simp [hclosing, hnone] at hn
  · obtain ⟨rfl, hreturn', hn'⟩ := hglyphs hsome
    refine ⟨_, hflat, fun p => .refl flattened_self p _, fun n hn hplain => ?_⟩
    obtain rfl : _ = n := Option.some.inj (hn'.symm.trans hn)
    rw [List.append_assoc, take_glyphs] at hplain
    rcases hinside with hone | hcomment
    · rw [take_glyphs_succ (by decide)]
      exact no_feed_of_oneLine (by simpa using hone) (by simp [opened])
    · obtain ⟨x, hx, hmode⟩ := exists_line_glyph (r := .opened) hreturn' trivial hcomment
      have := hplain x hx
      rw [Glyph.isPlain, hmode] at this
      simp at this
  · obtain ⟨rfl, hreturn', hn'⟩ := hglyphs hsome
    have hnotline := isLine_of_hasLineComment (r := .opened) hreturn' trivial hline
    have hnotline' : ∀ x ∈ glyphs .opened (inside ++ [')']), x.mode.isLine = false := by
      rw [glyphs_append, forall_mem_append, glyphs_char (by decide), glyphs_nil, forall_mem_singleton]
      exact ⟨hnotline, Mode.isLine_step (Mode.isLine_rest (isLine_past rfl hnotline) _) (by decide)⟩
    have hinside (p : Option Glyph) : Regapped Flattened p (glyphs .opened (inside ++ [')']))
        (glyphs .opened (respace flatRun [] (inside ++ [')']))) := regapped_flatRun rfl hnotline' p
    have hover : opened.past (respace flatRun [] (inside ++ [')'])) = opened.past (inside ++ [')']) := by
      have hmode := (hinside none).mode_past rfl
      obtain ⟨ds, hds⟩ := respace_concat (f := flatRun) rfl (c := ')') (by decide) [] inside
      rw [hds] at hmode ⊢
      rw [past_concat (by decide), past_concat (by decide) _ inside, hmode]
    refine ⟨_, hflat, fun p => ?_, fun n hn _ => ?_⟩
    · rw [glyphs_append _ (inside ++ [')']), glyphs_append _ (respace _ _ _), hover]
      exact (hinside p).append (.refl flattened_self _ _)
    · obtain rfl : _ = n := Option.some.inj (hn'.symm.trans hn)
      have hlen : (glyphs .opened inside).length + 1 = (glyphs .opened (respace flatRun [] (inside ++ [')']))).length := by
        rw [(hinside none).length_eq, glyphs_append, glyphs_char (by decide), length_append]
        rfl
      rw [hlen, take_glyphs]
      exact no_feed_of_oneLine (oneLine_respace_flatRun (by decide) [] inside) (by simp [opened])

/-! ## Finding the conditions -/

def pass (t : Token) (afterIf : Bool) : Bool :=
  if t.isComment then afterIf else t.text = "if"

def flattenAll (tail : List Char) (afterIf : Bool) : List Token → List Char
  | [] => tail
  | t :: ts =>
    let rest := flattenAll tail (pass t afterIf) ts
    t.lead.toList ++ if afterIf && !t.isComment && t.text = "(" then flattenCondition rest else t.text.toList ++ rest

lemma flattenTokens_foldComments (lead tail : String) (afterIf : Bool) (ts : List Token) :
    flattenTokens (foldComments lead ts tail).tail afterIf (foldComments lead ts tail).tokens =
      lead.toList ++ flattenAll tail.toList afterIf ts := by
  induction ts generalizing lead afterIf with
  | nil => simp [foldComments, flattenTokens, flattenAll]
  | cons t ts ih =>
    by_cases hcomment : t.isComment
    · rw [foldComments, if_pos hcomment, ih]
      simp [flattenAll, pass, hcomment, spelling]
    · rw [foldComments, if_neg hcomment]
      simp only [flattenTokens, ih, flattenAll, pass, hcomment, String.toList_append, String.toList_empty, nil_append, List.append_assoc]
      simp

lemma flattenConditions_eq {tail : String} (h : Token.scan cs = (ts, tail)) :
    flattenConditions cs = flattenAll tail.toList false ts := by
  rw [flattenConditions, Code.ofString, String.toList_ofList, h]
  exact flattenTokens_foldComments "" tail false ts

lemma flattenAll_cases (tail : List Char) (afterIf : Bool) (t : Token) (ts : List Token) :
    afterIf ∧ t.isComment = false ∧ t.text = "(" ∧
      flattenAll tail afterIf (t :: ts) = t.lead.toList ++ flattenCondition (flattenAll tail (pass t afterIf) ts) ∨
    ¬(afterIf ∧ t.isComment = false ∧ t.text = "(") ∧
      flattenAll tail afterIf (t :: ts) = t.lead.toList ++ (t.text.toList ++ flattenAll tail (pass t afterIf) ts) := by
  rw [flattenAll]
  split_ifs with h
  · simp only [Bool.and_eq_true, Bool.not_eq_true', decide_eq_true_eq, and_assoc] at h
    exact .inl ⟨h.1, h.2.1, h.2.2, rfl⟩
  · simp only [Bool.and_eq_true, Bool.not_eq_true', decide_eq_true_eq, and_assoc] at h
    exact .inr ⟨h, rfl⟩

lemma reuses_flattenAll (tail : List Char) (afterIf : Bool) (ts : List Token) :
    Reuses (chars ts ++ tail) (flattenAll tail afterIf ts) := by
  induction ts generalizing afterIf with
  | nil => exact .refl tail
  | cons t ts ih =>
    rw [chars_cons, List.append_assoc, List.append_assoc]
    rcases flattenAll_cases tail afterIf t ts with ⟨-, -, htext, hflat⟩ | ⟨-, hflat⟩
    · rw [hflat, htext]
      exact .append (.refl _) (.trans (.append (.refl ['(']) (ih _)) (reuses_flattenCondition _))
    · rw [hflat]
      exact .append (.refl _) (.append (.refl _) (ih _))

section Conditions

variable {r : Reader} {ts : List Token} {tail : List Char} {afterIf : Bool}

lemma not_mem_flattenAll (h : Reading r afterIf ts tail) (passed : Bool) : '\r' ∉ flattenAll tail passed ts := by
  intro hmem
  rcases reuses_flattenAll tail passed ts _ hmem with hmem | hmem | hmem
  · exact h.unified hmem
  · cases hmem
  · cases hmem

lemma regapped_flattenAll (h : Reading r afterIf ts tail) (passed : Bool) (p : Option Glyph) :
    Regapped Flattened p (glyphs r (chars ts ++ tail)) (glyphs r (flattenAll tail passed ts)) := by
  induction ts generalizing r afterIf passed p with
  | nil => exact .refl flattened_self p _
  | cons t ts ih =>
    have hrest := ih h.next (pass t passed)
    rw [chars_cons, List.append_assoc, List.append_assoc, h.glyphs_lead]
    rcases flattenAll_cases tail passed t ts with ⟨-, -, htext, hflat⟩ | ⟨-, hflat⟩
    · obtain ⟨ds, hds, hbehind⟩ := flatBehind (not_mem_flattenAll h.next (pass t passed))
      obtain ⟨hopened, hglyphs⟩ := h.bracket (c := '(') rfl htext
      have hparen : t.text.toList ++ (chars ts ++ tail) = '(' :: (chars ts ++ tail) := by
        rw [htext]
        rfl
      rw [hflat, hds, h.glyphs_lead, hparen, hglyphs, hglyphs]
      rw [hopened] at hrest
      exact .cons (flattened_self p _) (flattened_trans (hrest _) (hbehind.regapped none))
    · rw [hflat, h.glyphs_lead, glyphs_append _ t.text.toList, glyphs_append _ t.text.toList]
      exact .append (.refl flattened_self p _) (hrest _)

def Joined (afterIf passed : Bool) : List Token → Prop
  | [] => True
  | t :: ts => (afterIf = true → t.isComment = false → t.text = "(" → passed = true) ∧ Joined (carry t afterIf) (pass t passed) ts

lemma flat_append {m : Mode} {xs ys : List Glyph} (h : ∀ x ∈ xs, x.char = '(' → x.mode ≠ .between false)
    (hys : Flat ((xs.getLast?.map Glyph.mode).getD m) ys) : Flat m (xs ++ ys) := by
  induction xs generalizing m with
  | nil => exact hys
  | cons x xs ih =>
    obtain ⟨hx, hxs⟩ := forall_mem_cons.1 h
    refine .cons (fun _ hchar hmode => absurd hmode (hx hchar)) (ih hxs ?_)
    rw [getLast?_cons] at hys
    cases hlast : xs.getLast? <;> simpa [hlast] using hys

lemma flat_flattenAll (h : Reading r afterIf ts tail) {passed : Bool} (hjoined : Joined afterIf passed ts) :
    Flat r.mode (glyphs r (flattenAll tail passed ts)) := by
  induction ts generalizing r afterIf passed with
  | nil =>
    rw [flattenAll, glyphs_spaces fun c hc => isSpace_of_isBlank (h.legible c hc)]
    exact .nil
  | cons t ts ih =>
    obtain ⟨hfound, hjoined⟩ := hjoined
    have hrest := ih h.next hjoined
    have hmode : (r.past t.lead.toList).mode = r.mode := mode_past_spaces h.spaces_lead r
    by_cases hopen : t.isComment = false ∧ t.text = "("
    · obtain ⟨hopened, hglyphs⟩ := h.bracket (c := '(') rfl hopen.2
      rw [hopened] at hrest
      rcases flattenAll_cases tail passed t ts with ⟨-, -, -, hflat⟩ | ⟨hnot, hflat⟩
      · obtain ⟨ds, hds, hbehind⟩ := flatBehind (not_mem_flattenAll h.next (pass t passed))
        have hregapped := hbehind.regapped none
        rw [hflat, hds, h.glyphs_lead, hglyphs]
        refine .cons (fun _ _ _ n hclosing hplain => ?_) ((hregapped.mono fun _ _ _ => Flattened.fed).flat hrest)
        rw [hregapped.closing_eq] at hclosing
        exact hbehind.oneLine n hclosing ((hregapped.take n).isPlain_of_mem hplain)
      · have hpassed : r.mode.afterIf = false := by
          rw [h.afterIf_eq]
          by_contra hafter
          rw [Bool.not_eq_false] at hafter
          exact hnot ⟨hfound hafter hopen.1 hopen.2, hopen⟩
        have hparen (rest : List Char) : t.text.toList ++ rest = '(' :: rest := by
          rw [hopen.2]
          rfl
        rw [hflat, h.glyphs_lead, hparen, hglyphs]
        refine .cons (fun hafter => ?_) hrest
        simp [hpassed] at hafter
    · rcases flattenAll_cases tail passed t ts with ⟨-, hcomment, htext, -⟩ | ⟨-, hflat⟩
      · exact absurd ⟨hcomment, htext⟩ hopen
      · rw [hflat, h.glyphs_lead, glyphs_append]
        refine flat_append (fun x hx hchar hcode => hopen ?_) ?_
        · have htext := h.text_of_glyph hx (by rw [hchar]; decide) hcode
          rw [hchar] at htext
          refine ⟨?_, htext⟩
          have hkind := kind_of_bracket h.legible.2.1 (by decide) htext
          simp [isComment, hkind]
        · rw [← hmode, ← mode_past]
          exact hrest

end Conditions

def opensBehind (ts : List Token) : Bool :=
  (ts.dropWhile Token.isSpace).head?.any (·.text = "(")

/-- A space that is no blank parts an `if` from the parenthesis behind it. -/
def parted : List Token → Bool
  | [] => false
  | t :: ts => t.text = "if" && ts.head?.any Token.isSpace && opensBehind ts || parted ts

lemma opensBehind_cons (t : Token) (ts : List Token) : opensBehind (t :: ts) = if t.isSpace then opensBehind ts else t.text = "(" := by
  rw [opensBehind, dropWhile_cons]
  split <;> rfl

lemma joined_of_parted {afterIf passed : Bool} (h : parted (ts.filter (!·.isComment)) = false)
    (hbehind : afterIf → passed = false ∨ (ts.filter (!·.isComment)).head?.any Token.isSpace → opensBehind (ts.filter (!·.isComment)) = false) :
    Joined afterIf passed ts := by
  induction ts generalizing afterIf passed with
  | nil => trivial
  | cons t ts ih =>
    by_cases hcomment : t.isComment
    · rw [filter_cons_of_neg (by simp [hcomment])] at h hbehind
      refine ⟨fun _ hnot => ?_, ?_⟩
      · simp [hcomment] at hnot
      · rw [carry, if_pos (by simp [hcomment]), pass, if_pos hcomment]
        exact ih h hbehind
    · rw [filter_cons_of_pos (by simp [hcomment])] at h hbehind
      rw [parted, Bool.or_eq_false_iff] at h
      rw [opensBehind_cons] at hbehind
      by_cases hspace : t.isSpace
      · rw [if_pos hspace] at hbehind
        refine ⟨fun _ _ htext => ?_, ?_⟩
        · rw [Token.isSpace, htext] at hspace
          exact absurd hspace (by decide)
        · rw [carry, if_pos (by simp [hspace])]
          exact ih h.2 fun hafter _ => hbehind hafter (.inr hspace)
      · rw [if_neg hspace] at hbehind
        refine ⟨fun hafter _ htext => ?_, ?_⟩
        · by_contra hpassed
          have := hbehind hafter (.inl (by simpa using hpassed))
          simp [htext] at this
        · rw [carry, if_neg (by simp [hcomment, hspace]), pass, if_neg hcomment]
          refine ih h.2 fun hif hmore => ?_
          have := h.1
          have hhead := hmore.resolve_left (by simp [hif])
          rw [hif, hhead, Bool.true_and, Bool.true_and] at this
          exact this

section Text

variable {cs : List Char}

lemma reuses_flattenConditions (cs : List Char) : Reuses cs (flattenConditions cs) := by
  obtain ⟨ts, tail, hscan⟩ : ∃ ts tail, scan cs = (ts, tail) := ⟨_, _, rfl⟩
  rw [flattenConditions_eq hscan]
  nth_rewrite 1 [chars_scan hscan]
  exact reuses_flattenAll tail.toList false ts

lemma regapped_flattenConditions (hreturn : '\r' ∉ cs) :
    Regapped Flattened none (glyphs .initial cs) (glyphs .initial (flattenConditions cs)) := by
  obtain ⟨ts, tail, hscan⟩ : ∃ ts tail, scan cs = (ts, tail) := ⟨_, _, rfl⟩
  rw [flattenConditions_eq hscan]
  nth_rewrite 1 [chars_scan hscan]
  exact regapped_flattenAll (.initial hscan hreturn) false none

lemma flat_flattenConditions (hreturn : '\r' ∉ cs) (h : parted ((scan cs).1.filter (!·.isComment)) = false) :
    Flat (.between false) (glyphs .initial (flattenConditions cs)) := by
  obtain ⟨ts, tail, hscan⟩ : ∃ ts tail, scan cs = (ts, tail) := ⟨_, _, rfl⟩
  rw [hscan] at h
  rw [flattenConditions_eq hscan]
  refine flat_flattenAll (.initial hscan hreturn) (joined_of_parted h fun hafter => ?_)
  cases hafter

end Text

end DeviceForge.Layout
