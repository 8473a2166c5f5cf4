import DeviceForge.Token
import DeviceForge.Proofs.Text.Bytes
/-!
# What scanning a text gives

`scan_nil` and `scan_cons` say what one step of the scanner does; everything about a whole scan is an induction over its
tokens from these two.
-/

namespace DeviceForge.Token

open Text String List

variable {cs : List Char} {tail s : String} {ts : List Token} {pos line : Nat}

/-- The characters that tokens spell, leads included. -/
def chars (ts : List Token) : List Char :=
  ts.flatMap fun t => t.spelling.toList

@[simp] lemma chars_nil : chars [] = [] := rfl

@[simp] lemma chars_cons (t : Token) (ts : List Token) :
    chars (t :: ts) = t.lead.toList ++ t.text.toList ++ chars ts := by
  simp [chars, spelling]

@[simp] lemma chars_append (as bs : List Token) : chars (as ++ bs) = chars as ++ chars bs := by
  simp [chars]

lemma scan_nil (h : scan cs = ([], tail)) : tail.toList = cs ∧ ∀ c ∈ cs, isBlank c := by
  rw [scan] at h
  split at h
  · rename_i hd
    obtain rfl : ofList cs = tail := (Prod.mk.inj h).2
    exact ⟨toList_ofList, fun c hc => dropWhile_eq_nil_iff.1 hd c hc⟩
  · exact absurd (Prod.mk.inj h).1 (cons_ne_nil _ _)

lemma scan_cons {t : Token} (h : scan cs = (t :: ts, tail)) :
    ∃ c rest n, extent c rest = (t.kind, n) ∧ cs = t.lead.toList ++ c :: rest ∧
      t.text.toList = c :: rest.take n ∧ (∀ b ∈ t.lead.toList, isBlank b) ∧
      isBlank c = false ∧ scan (rest.drop n) = (ts, tail) := by
  rw [scan] at h
  split at h
  · cases h
  · rename_i c rest hd
    simp only [Prod.mk.injEq, cons.injEq] at h
    obtain ⟨⟨rfl, hts⟩, htail⟩ := h
    refine ⟨c, rest, (extent c rest).2, rfl, ?_, ?_, ?_, ?_, Prod.ext hts htail⟩
    · rw [toList_ofList, ← hd, List.takeWhile_append_dropWhile]
    · rw [toList_ofList]
    · intro b hb
      rw [toList_ofList] at hb
      exact mem_takeWhile_imp hb
    · have hc := head?_dropWhile_not isBlank cs
      rw [hd] at hc
      simpa using hc

lemma chars_scan (h : scan cs = (ts, tail)) : cs = chars ts ++ tail.toList := by
  have := flatMap_spelling_scan cs
  rw [h] at this
  exact this.symm

lemma scan_append {as bs : List Token} (h : scan cs = (as ++ bs, tail)) :
    ∃ rest, cs = chars as ++ rest ∧ scan rest = (bs, tail) := by
  induction as generalizing cs with
  | nil => exact ⟨cs, rfl, h⟩
  | cons a as ih =>
    obtain ⟨c, rest, n, -, hcs, htext, -, -, hscan⟩ := scan_cons h
    obtain ⟨rest', hrest, hscan'⟩ := ih hscan
    refine ⟨rest', ?_, hscan'⟩
    rw [hcs, chars_cons, htext, List.append_assoc, List.append_assoc, ← hrest, cons_append, take_append_drop]

lemma scan_mem (h : scan cs = (ts, tail)) : ∀ t ∈ ts, t.text.toList ≠ [] ∧ ∀ b ∈ t.lead.toList, isBlank b := by
  intro t ht
  obtain ⟨as, bs, rfl⟩ := append_of_mem ht
  obtain ⟨rest, -, hrest⟩ := scan_append h
  obtain ⟨c, rest', n, -, -, htext, hlead, -, -⟩ := scan_cons hrest
  exact ⟨by rw [htext]; exact cons_ne_nil _ _, hlead⟩

lemma scan_tail (h : scan cs = (ts, tail)) : ∀ b ∈ tail.toList, isBlank b := by
  rw [← append_nil ts] at h
  obtain ⟨rest, -, hrest⟩ := scan_append h
  obtain ⟨ht, hb⟩ := scan_nil hrest
  rwa [ht]

lemma map_token_locate (pos line : Nat) (ts : List Token) : (locate pos line ts).map (·.token) = ts := by
  induction ts generalizing pos line with
  | nil => rfl
  | cons t ts ih => simp [locate, ih]

lemma locate_append (pos line : Nat) (as bs : List Token) : locate pos line (as ++ bs) = locate pos line as ++
      locate (pos + byteLength (chars as)) (line + (chars as).count '\n') bs := by
  induction as generalizing pos line with
  | nil => rfl
  | cons a as ih =>
    simp only [cons_append, locate, ih, chars_cons, byteLength_append, count_append, lineFeeds, byteLength_toList]
    simp only [Nat.add_assoc]

lemma le_start_locate : ∀ t ∈ locate pos line ts, pos ≤ t.start := by
  induction ts generalizing pos line with
  | nil => simp [locate]
  | cons a as ih =>
    simp only [locate, mem_cons, forall_eq_or_imp]
    exact ⟨by omega, fun t ht => by have := ih t ht; omega⟩

lemma stop_le_locate : ∀ t ∈ locate pos line ts, t.stop ≤ pos + byteLength (chars ts) := by
  induction ts generalizing pos line with
  | nil => simp [locate]
  | cons a as ih =>
    simp only [locate, mem_cons, forall_eq_or_imp, chars_cons, byteLength_append, byteLength_toList]
    exact ⟨by omega, fun t ht => by have := ih t ht; omega⟩

lemma located_append {as bs : List Located} {t : Located} (h : located s = as ++ t :: bs) :
    ∃ pre post, s.toList = pre ++ t.token.text.toList ++ post ∧ t.start = byteLength pre ∧
      t.stop = byteLength (pre ++ t.token.text.toList) ∧ t.line = 1 + pre.count '\n' ∧
      bs = locate t.stop (t.line + lineFeeds t.token.text) (scan post).1 ∧ ∀ a ∈ as, a.stop ≤ t.start := by
  obtain ⟨token, start, stop, line⟩ := t
  have hts : ofString s = as.map (·.token) ++ ([token] ++ bs.map (·.token)) := by
    have := congrArg (List.map (·.token)) h
    rwa [located, map_token_locate, map_append, map_cons] at this
  have hscan : scan s.toList = (as.map (·.token) ++ ([token] ++ bs.map (·.token)), (scan s.toList).2) :=
    Prod.ext hts rfl
  -- the scan is resumed twice: before the token and behind it
  obtain ⟨mid, hmid, hscan⟩ := scan_append hscan
  obtain ⟨post, hpost, hscan⟩ := scan_append hscan
  rw [located, hts, locate_append] at h
  obtain ⟨has, h⟩ := append_inj h (by simpa using congrArg List.length (map_token_locate 0 1 (as.map (·.token))))
  simp only [singleton_append, locate, List.cons.injEq, Nat.zero_add, Located.mk.injEq, true_and] at h
  obtain ⟨⟨rfl, rfl, rfl⟩, hbs⟩ := h
  refine ⟨chars (as.map (·.token)) ++ token.lead.toList, post, ?_, ?_, ?_, ?_, ?_, ?_⟩
  · rw [hmid, hpost, chars_cons, chars_nil]
    simp only [List.append_assoc, nil_append]
  · rw [byteLength_append, byteLength_toList]
  · rw [byteLength_append, byteLength_append, byteLength_toList, byteLength_toList]
  · rw [count_append, ← Nat.add_assoc, lineFeeds]
  · rw [hscan]
    exact hbs.symm
  · intro a ha
    rw [← has] at ha
    have := stop_le_locate a ha
    dsimp only
    omega

/-! ## Tokens stand in their text -/

/-- The bytes of the blanks: tab, line feed, form feed, carriage return and space. -/
def blankBytes : List UInt8 := [9, 10, 12, 13, 32]

/-- A token takes some bytes of the text, from the start of a character to the end of one. They are the
bytes of its own text, and it is on the line behind as many line feeds as stand before it. -/
structure StandsIn (s : String) (t : Located) : Prop where
  start_lt_stop : t.start < t.stop
  start_isValid : (⟨t.start⟩ : Pos.Raw).IsValid s
  stop_isValid : (⟨t.stop⟩ : Pos.Raw).IsValid s
  bytes_eq : (s.toUTF8.data.toList.take t.stop).drop t.start = t.token.text.toUTF8.data.toList
  line_eq : t.line = 1 + (s.toUTF8.data.toList.take t.start).count 10

lemma mem_blankBytes {cs : List Char} (h : ∀ c ∈ cs, isBlank c) : ∀ b ∈ bytes cs, b ∈ blankBytes := by
  intro b hb
  obtain ⟨c, hc, hb⟩ := mem_flatMap.1 hb
  have hblank := h c hc
  simp only [isBlank, Bool.or_eq_true, decide_eq_true_eq] at hblank
  have hall : [' ', '\t', '\n', '\x0c', '\r'].all (fun c => (utf8EncodeChar c).all blankBytes.contains) := by decide
  simp only [all_eq_true, contains_iff_mem] at hall
  exact hall c (by simpa [or_assoc] using hblank) b hb

lemma standsIn_located {s : String} {t : Located} (h : t ∈ located s) : StandsIn s t := by
  obtain ⟨as, bs, has⟩ := append_of_mem h
  obtain ⟨pre, post, hs, hstart, hstop, hline, -, -⟩ := located_append has
  have hne : t.token.text.toList ≠ [] := by
    have hm : t.token ∈ ofString s := by
      rw [← map_token_locate 0 1 (ofString s)]
      exact mem_map_of_mem h
    exact (scan_mem (Prod.eta (scan s.toList)).symm t.token hm).1
  have hpos := byteLength_pos hne
  have hsum := byteLength_append pre t.token.text.toList
  refine ⟨by omega, ?_, ?_, ?_, ?_⟩
  · rw [hstart]
    exact isValid_byteLength (by rw [hs, List.append_assoc])
  · rw [hstop]
    exact isValid_byteLength hs
  · rw [toList_toUTF8, toList_toUTF8, hs, hstart, hstop, hsum]
    exact bytes_between pre _ post
  · rw [toList_toUTF8, hs, hstart, List.append_assoc, bytes_before, hline]
    exact congrArg _ (count_bytes_of_ascii (a := '\n') (by decide) pre).symm

lemma located_from {s : String} {offset : Nat} (h : offset = 0 ∨ ∃ t ∈ located s, t.stop = offset) :
    ∃ rest line, Text.after offset s.toList = (0, rest) ∧ offset + byteLength rest = s.utf8ByteSize ∧
      (located s).filter (offset ≤ ·.start) = locate offset line (scan rest).1 := by
  rcases h with rfl | ⟨t, ht, rfl⟩
  · refine ⟨s.toList, 1, after_append [] s.toList, ?_, ?_⟩
    · rw [Nat.zero_add, byteLength_toList]
    · rw [filter_eq_self.2 (by simp)]
      rfl
  · obtain ⟨as, bs, h⟩ := append_of_mem ht
    obtain ⟨pre, post, hs, -, hstop, -, hbs, has⟩ := located_append h
    have hlt := (standsIn_located ht).start_lt_stop
    refine ⟨post, t.line + lineFeeds t.token.text, ?_, ?_, ?_⟩
    · rw [hstop, hs]
      exact after_append _ post
    · rw [hstop, ← byteLength_append, ← hs, byteLength_toList]
    · have has' : as.filter (t.stop ≤ ·.start) = [] := by
        simp only [filter_eq_nil_iff, decide_eq_true_eq]
        intro a ha
        have := (standsIn_located (h ▸ mem_append_left _ ha)).start_lt_stop
        have := has a ha
        omega
      have hbs' : bs.filter (t.stop ≤ ·.start) = bs := by
        simp only [filter_eq_self, decide_eq_true_eq]
        rw [hbs]
        exact le_start_locate
      rw [h, filter_append, has', nil_append, filter_cons_of_neg (by simpa using hlt), hbs']
      exact hbs

lemma pairwise_locate {pos line : Nat} {ts : List Token} (h : ∀ t ∈ ts, t.text.toList ≠ []) :
    (locate pos line ts).Pairwise fun t u => t.start < u.start ∧ t.stop ≤ u.start := by
  induction ts generalizing pos line with
  | nil => exact .nil
  | cons t ts ih =>
    refine pairwise_cons.2 ⟨fun u hu => ?_, ih fun u hu => h u (mem_cons_of_mem _ hu)⟩
    have hle := le_start_locate u hu
    have hpos := byteLength_pos (h t mem_cons_self)
    rw [byteLength_toList] at hpos
    exact ⟨by dsimp only; omega, hle⟩

lemma pairwise_located (s : String) : (located s).Pairwise fun t u => t.start < u.start ∧ t.stop ≤ u.start :=
  pairwise_locate fun t ht => (scan_mem (Prod.eta (scan s.toList)).symm t ht).1

lemma blank_of_uncovered (pos line : Nat) {ts : List Token} {tail : List Char}
    (hlead : ∀ t ∈ ts, ∀ c ∈ t.lead.toList, isBlank c) (htail : ∀ c ∈ tail, isBlank c)
    {i : Nat} {b : UInt8} (hb : (Text.bytes (chars ts ++ tail))[i]? = some b)
    (hi : ∀ t ∈ locate pos line ts, ¬(t.start ≤ pos + i ∧ pos + i < t.stop)) : b ∈ blankBytes := by
  induction ts generalizing pos line i with
  | nil => exact mem_blankBytes htail b (mem_of_getElem? hb)
  | cons t ts ih =>
    simp only [locate, mem_cons, forall_eq_or_imp] at hi hlead
    simp only [chars_cons, bytes_append, List.append_assoc] at hb
    have hl : (Text.bytes t.lead.toList).length = t.lead.utf8ByteSize := by simp [byteLength_toList]
    have ht : (Text.bytes t.text.toList).length = t.text.utf8ByteSize := by simp [byteLength_toList]
    -- the byte is one of the lead, one of the token, or one behind the token
    by_cases h1 : i < t.lead.utf8ByteSize
    · rw [getElem?_append_left (by omega)] at hb
      exact mem_blankBytes hlead.1 b (mem_of_getElem? hb)
    · rw [getElem?_append_right (by omega), hl] at hb
      by_cases h2 : i < t.lead.utf8ByteSize + t.text.utf8ByteSize
      · exact absurd ⟨by omega, by omega⟩ hi.1
      · rw [getElem?_append_right (by omega), ht, ← bytes_append] at hb
        apply ih _ _ hlead.2 hb
        intro u hu
        have := hi.2 u hu
        omega

/-- The tokens of a text stand in it one behind the other, and nothing but blanks stands between them:
their texts and blank gaps, in turn, are the text. -/
theorem located_covers (s : String) :
    (∀ t ∈ located s, StandsIn s t) ∧
    (located s).Pairwise (fun t u => t.start < u.start ∧ t.stop ≤ u.start) ∧
    (∀ i b, s.toUTF8.data.toList[i]? = some b → (∀ t ∈ located s, ¬(t.start ≤ i ∧ i < t.stop)) → b ∈ blankBytes) ∧
    ∃ (gaps : List String) (tail : String), gaps.length = (located s).length ∧
      (∀ g ∈ tail :: gaps, ∀ c ∈ g.toList, isBlank c = true) ∧
      s = String.join (zipWith (· ++ ·) gaps ((located s).map (·.token.text))) ++ tail := by
  have hscan := (Prod.eta (scan s.toList)).symm
  have hmem := scan_mem hscan
  have hlead : ∀ t ∈ ofString s, ∀ c ∈ t.lead.toList, isBlank c = true := fun t ht => (hmem t ht).2
  have htail := scan_tail hscan
  have hchars := chars_scan hscan
  refine ⟨fun t => standsIn_located, pairwise_located s, ?_, ?_⟩
  · intro i b hb hi
    rw [toList_toUTF8, hchars] at hb
    exact blank_of_uncovered 0 1 hlead htail hb (by simpa only [Nat.zero_add, located] using hi)
  · refine ⟨(ofString s).map (·.lead), (scan s.toList).2, ?_, ?_, ?_⟩
    · rw [List.length_map, ← map_token_locate 0 1 (ofString s), List.length_map, located]
    · simp only [mem_cons, mem_map]
      rintro g (rfl | ⟨t, ht, rfl⟩)
      · exact htail
      · exact hlead t ht
    · have htext : (located s).map (·.token.text) = (ofString s).map (·.text) := by
        conv_rhs => rw [← map_token_locate 0 1 (ofString s), List.map_map]
        rfl
      apply toList_injective
      rw [htext, zipWith_map, zipWith_self, toList_append]
      conv_lhs => rw [hchars]
      simp [chars, spelling, ofString, flatMap_map]

end DeviceForge.Token
