import DeviceForge.Proofs.Layout.Flattened
/-!
# Tokens and line breaks

One kind of line break in place of several changes no token but for the line breaks in it and before it (`scan_unifyBreaks`).
-/

namespace DeviceForge.Layout

open Lexeme List String Token

variable {quote c : Char} {cs ds rest : List Char} {ts : List Token}

/-! ## Tokens that reach to the end of the text -/

lemma quoted_unifyBreaks (hquote : Text.isSpace quote = false) (cs : List Char) :
    (quoted quote cs = cs.length → quoted quote (unifyBreaks cs) = (unifyBreaks cs).length) ∧
      (quoted quote ('\\' :: cs) = cs.length + 1 → quoted quote ('\\' :: unifyBreaks cs) = (unifyBreaks cs).length + 1) := by
  have hne {c : Char} (hc : Text.isSpace c) : c ≠ quote := by
    rintro rfl
    simp [hc] at hquote
  fun_induction unifyBreaks cs with
  | case1 => exact ⟨id, id⟩
  | case2 cs ih =>
    refine ⟨fun h => ?_, fun h => ?_⟩
    · rw [quoted_plain (by decide), if_neg (hne rfl), quoted_plain (by decide), if_neg (hne rfl)] at h
      rw [quoted_plain (by decide), if_neg (hne rfl), ih.1 (by simp at h; omega), length_cons, Nat.add_comm]
    · rw [quoted_escape, quoted_plain (by decide), if_neg (hne rfl)] at h
      rw [quoted_escape, ih.1 (by simp at h; omega), length_cons]
      omega
  | case3 c cs hpair ih =>
    refine ⟨fun h => ?_, fun h => ?_⟩
    · by_cases hback : c = '\\'
      · subst hback
        exact ih.2 h
      · have hback' : (if c = '\r' then '\n' else c) ≠ '\\' := by split <;> simp_all
        rw [quoted_plain hback] at h
        rw [quoted_plain hback']
        by_cases hc : c = quote
        · rw [if_pos hc, length_cons] at h
          obtain rfl : cs = [] := length_eq_zero_iff.1 (by omega)
          have hreturn : c ≠ '\r' := by
            rintro rfl
            exact hne rfl hc
          rw [if_neg hreturn, if_pos hc]
          rfl
        · have hc' : (if c = '\r' then '\n' else c) ≠ quote := by
            split
            · exact hne rfl
            · exact hc
          rw [if_neg hc, length_cons] at h
          rw [if_neg hc', ih.1 (by omega), length_cons, Nat.add_comm]
    · rw [quoted_escape] at h
      rw [quoted_escape, ih.1 (by simp at h; omega), length_cons]
      omega

lemma block_cons (h : ¬(c = '*' ∧ cs.head? = some '/')) : block (c :: cs) = 1 + block cs := by
  rw [block]
  rintro ds rfl rfl
  exact h ⟨rfl, rfl⟩

lemma block_unifyBreaks (cs : List Char) : (block cs = cs.length → block (unifyBreaks cs) = (unifyBreaks cs).length) ∧
      (block ('*' :: cs) = cs.length + 1 → block ('*' :: unifyBreaks cs) = (unifyBreaks cs).length + 1) := by
  fun_induction unifyBreaks cs with
  | case1 => exact ⟨id, id⟩
  | case2 cs ih =>
    refine ⟨fun h => ?_, fun h => ?_⟩
    · rw [block_cons (by simp), block_cons (by simp)] at h
      rw [block_cons (by simp), ih.1 (by simp at h; omega), length_cons, Nat.add_comm]
    · rw [block_cons (by simp), block_cons (by simp), block_cons (by simp)] at h
      rw [block_cons (by simp), block_cons (by simp), ih.1 (by simp at h; omega), length_cons]
      omega
  | case3 c cs hpair ih =>
    have hfirst (h : block (c :: cs) = (c :: cs).length) :
        block ((if c = '\r' then '\n' else c) :: unifyBreaks cs) = (unifyBreaks cs).length + 1 := by
      by_cases hstar : c = '*'
      · subst hstar
        exact ih.2 h
      · have hstar' : (if c = '\r' then '\n' else c) ≠ '*' := by split <;> simp_all
        rw [block_cons (by simp [hstar]), length_cons] at h
        rw [block_cons (by simp [hstar']), ih.1 (by omega), Nat.add_comm]
    refine ⟨hfirst, fun h => ?_⟩
    by_cases hslash : c = '/'
    · subst hslash
      obtain rfl : cs = [] := by
        rw [block, length_cons] at h
        exact length_eq_zero_iff.1 (by omega)
      rfl
    · have hslash' : (if c = '\r' then '\n' else c) ≠ '/' := by split <;> simp_all
      rw [block_cons (by simp [hslash])] at h
      rw [block_cons (by simp [hslash']), hfirst (by omega), length_cons]
      omega

/-! ## Tokens -/

lemma mem_unifyBreaks (h : '\r' ∈ cs) : '\n' ∈ unifyBreaks cs := by
  fun_induction unifyBreaks cs with
  | case1 => cases h
  | case2 cs ih => exact mem_cons_self
  | case3 c cs hpair ih =>
    rcases mem_cons.1 h with rfl | h
    · exact mem_cons_self
    · exact mem_cons_of_mem _ (ih h)

lemma unifyBreaks_eq_iff (hreturn : '\r' ∉ ds) (hfeed : '\n' ∉ ds) : unifyBreaks cs = ds ↔ cs = ds := by
  refine ⟨fun h => ?_, fun h => ?_⟩
  · by_cases hcs : '\r' ∈ cs
    · exact absurd (h ▸ mem_unifyBreaks hcs) hfeed
    · rw [← h, unifyBreaks_eq_self hcs]
  · rw [h, unifyBreaks_eq_self hreturn]

lemma follows_unifyBreaks (rest : List Char) : Follows rest (unifyBreaks rest) := by
  fun_cases unifyBreaks rest with
  | case1 => exact .inl apart_nil
  | case2 cs => exact .inl fun c hc => Option.some.inj hc ▸ rfl
  | case3 c cs hpair =>
    by_cases hc : c = '\r'
    · rw [if_pos hc]
      exact .inl fun c hc => Option.some.inj hc ▸ rfl
    · rw [if_neg hc]
      refine .inr ⟨rfl, ?_⟩
      fun_cases unifyBreaks cs with
      | case1 => exact id
      | case2 ds => simp
      | case3 d ds =>
        by_cases hd : d = '\r'
        · simp [hd]
        · simp [hd]

lemma toList_unifyToken (t : Token) : (unifyToken t).text.toList = unifyBreaks t.text.toList :=
  toList_ofList

lemma unifyBreaks_visible (hc : Text.isSpace c = false) (cs : List Char) :
    unifyBreaks (c :: cs) = c :: unifyBreaks cs := by
  have hreturn : c ≠ '\r' := by
    rintro rfl
    cases hc
  rw [unifyBreaks_cons (by simp [hreturn]), if_neg hreturn]

lemma reads_unifyToken {t : Token} (h : Token.Reads t rest) : Token.Reads (unifyToken t) (unifyBreaks rest) := by
  rcases reads_cases h with hcode | ⟨quote, cs, hq, htext, hlen⟩ | ⟨cs, hkind, htext, hbreaks, hrest⟩ | ⟨cs, hkind, htext, hlen⟩
  · obtain ⟨c, cs, htext, hblank, hext⟩ := reads_of_follows h hcode (follows_unifyBreaks rest)
    have hreturn : '\r' ∉ t.text.toList := by
      rw [htext, mem_cons, not_or]
      refine ⟨?_, fun hmem => ?_⟩
      · rintro rfl
        cases hblank
      · rcases extent_cases hext with ⟨hne, -⟩ | ⟨-, -, hinner⟩
        · exact hne hcode
        · rw [take_left] at hinner
          exact absurd (not_space_of_inner (hinner _ hmem)) (by decide)
    refine ⟨c, cs, ?_, hblank, hext⟩
    rw [toList_unifyToken, unifyBreaks_eq_self hreturn, htext]
  · have htext' : (unifyToken t).text.toList = quote :: unifyBreaks cs := by
      rw [toList_unifyToken, htext, unifyBreaks_visible hq.not_space]
    refine IsQuoted.reads (t := unifyToken t) hq htext' ?_
    by_cases hrest : rest = []
    · subst hrest
      rw [append_nil] at hlen
      rw [unifyBreaks, append_nil]
      exact (quoted_unifyBreaks hq.not_space cs).1 hlen
    · have hends := endsQuoted_of_quoted hrest cs hlen
      rw [((alike_unifyBreaks cs).endsQuoted_both hq.not_space).1] at hends
      exact quoted_append hq.ne_backslash _ _ hends
  · have hreturn : '\r' ∉ cs := fun hmem => absurd (hbreaks _ hmem) (by decide)
    have htext' : (unifyToken t).text.toList = '/' :: '/' :: cs := by
      rw [toList_unifyToken, htext, unifyBreaks_visible (by decide), unifyBreaks_visible (by decide), unifyBreaks_eq_self hreturn]
    exact reads_lineComment (t := unifyToken t) hkind htext' hbreaks (breaksOff_unifyBreaks hrest)
  · have htext' : (unifyToken t).text.toList = '/' :: '*' :: unifyBreaks cs := by
      rw [toList_unifyToken, htext, unifyBreaks_visible (by decide), unifyBreaks_visible (by decide)]
    refine reads_block (t := unifyToken t) hkind htext' ?_
    by_cases hrest : rest = []
    · subst hrest
      rw [append_nil] at hlen
      rw [unifyBreaks, append_nil]
      exact (block_unifyBreaks cs).1 hlen
    · have hends := endsBlock_of_block hrest hlen
      rw [(alike_unifyBreaks cs).endsBlock_both.1] at hends
      exact block_append hends _

lemma blank_unifyBreaks (h : Token.Blank cs) : Token.Blank (unifyBreaks cs) :=
  (reuses_unifyBreaks cs).forall rfl rfl h

lemma legible_unify {tail : List Char} (h : Legible ts tail) : Legible (ts.map unifyToken) (unifyBreaks tail) := by
  induction ts with
  | nil => exact blank_unifyBreaks h
  | cons t ts ih =>
    obtain ⟨hlead, hreads, hlegible⟩ := h
    refine ⟨?_, ?_, ih hlegible⟩
    · rw [unifyToken, toList_ofList]
      exact blank_unifyBreaks hlead
    · rw [← chars_unify hlegible]
      exact reads_unifyToken hreads

lemma scan_unifyBreaks {tail : String} (h : scan cs = (ts, tail)) :
    scan (unifyBreaks cs) = (ts.map unifyToken, ofList (unifyBreaks tail.toList)) := by
  have hlegible := legible_of_scan h
  rw [chars_scan h, chars_unify hlegible]
  exact scan_of_legible (legible_unify hlegible)

lemma all_isSpace_unifyBreaks (cs : List Char) : (unifyBreaks cs).all Text.isSpace = cs.all Text.isSpace := by
  fun_induction unifyBreaks cs with
  | case1 => rfl
  | case2 cs ih => exact ih
  | case3 c cs hpair ih =>
    rw [all_cons, all_cons, ih]
    split_ifs with hc
    · rw [hc]
      rfl
    · rfl

lemma filter_unifyBreaks (cs : List Char) : (unifyBreaks cs).filter (!Text.isSpace ·) = cs.filter (!Text.isSpace ·) := by
  fun_induction unifyBreaks cs with
  | case1 => rfl
  | case2 cs ih => exact ih
  | case3 c cs hpair ih =>
    rw [filter_cons, filter_cons, ih]
    split
    · rename_i hc
      rw [hc]
      rfl
    · rfl

lemma parted_map {f : Token → Token} (hif : ∀ t, (f t).text = "if" ↔ t.text = "if") (hopen : ∀ t, (f t).text = "(" ↔ t.text = "(")
    (hspace : ∀ t, (f t).isSpace = t.isSpace) (ts : List Token) : parted (ts.map f) = parted ts := by
  have hopens (ts : List Token) : opensBehind (ts.map f) = opensBehind ts := by
    induction ts with
    | nil => rfl
    | cons t ts ih => simp only [map_cons, opensBehind_cons, ih, hspace, hopen]
  induction ts with
  | nil => rfl
  | cons t ts ih =>
    have hhead : (ts.map f).head?.any isSpace = ts.head?.any isSpace := by
      cases ts with
      | nil => rfl
      | cons u us => exact hspace u
    simp only [map_cons, parted, ih, hopens, hhead, hif]

lemma parted_unifyBreaks (cs : List Char) :
    parted ((scan (unifyBreaks cs)).1.filter (!·.isComment)) = parted ((scan cs).1.filter (!·.isComment)) := by
  have htext {t : Token} {word : String} (hreturn : '\r' ∉ word.toList) (hfeed : '\n' ∉ word.toList) :
      (unifyToken t).text = word ↔ t.text = word := by
    rw [← toList_inj, toList_unifyToken, unifyBreaks_eq_iff hreturn hfeed, toList_inj]
  rw [scan_unifyBreaks rfl, filter_map]
  exact parted_map (fun _ => htext (by decide) (by decide)) (fun _ => htext (by decide) (by decide))
    (fun t => by rw [isSpace, toList_unifyToken, all_isSpace_unifyBreaks, isSpace]) _

end DeviceForge.Layout
