import DeviceForge.Proofs.Directive.Document
/-!
# The marks of directives

A directive starts at a mark in code that does not lie in the reach of another one.
-/

namespace DeviceForge.Directive

open Lexeme List Text

variable {n pos k : Nat} {c z : Char} {cs tabs b rest more : List Char}
  {before ms : List (Char × Segment.Kind)} {d : Directive}

/-- The head of the directive ends with its word or with the symbol behind it. -/
def Kind.isShort : Kind → Bool
  | ifDefined _ | ifUndefined _ | otherwise | endIf => true
  | ifHolds | elseIf | define | inclusion | other => false

/-! ## How far a directive reaches -/

lemma drop_length_takeWhile (p : Char → Bool) (cs : List Char) : cs.drop (cs.takeWhile p).length = cs.dropWhile p := by
  induction cs with
  | nil => rfl
  | cons c cs ih => by_cases hc : p c <;> simp [hc, ih]

lemma breaksOff_line (cs : List Char) : BreaksOff (cs.drop (line cs)) := by
  rw [line, drop_length_takeWhile]
  intro c hc
  simpa using head?_dropWhile c hc

lemma breaksOff_definition (escaped : Bool) (cs : List Char) : BreaksOff (cs.drop (definition escaped cs)) := by
  fun_induction definition escaped cs with
  | case1 => simp [BreaksOff]
  | case2 cs ih =>
    rw [Nat.add_comm, drop_succ_cons, drop_succ_cons]
    exact ih
  | case3 => simp [BreaksOff, isLineBreak]
  | case4 c cs hne hc ih =>
    rw [Nat.add_comm, drop_succ_cons]
    exact ih
  | case5 escaped c cs hne hc => simpa [BreaksOff] using hc
  | case6 escaped c cs hne hc ih =>
    rw [Nat.add_comm, drop_succ_cons]
    exact ih

lemma take_length_takeWhile (p : Char → Bool) (cs : List Char) : cs.take (cs.takeWhile p).length = cs.takeWhile p :=
  (prefix_iff_eq_take.1 (List.takeWhile_prefix p)).symm

lemma not_mem_symbol (rest : List Char) : '#' ∉ rest.take ((rest.takeWhile isBlank).length +
      ((rest.drop (rest.takeWhile isBlank).length).takeWhile isWordChar).length) := by
  intro hmem
  rw [take_add, mem_append, take_length_takeWhile, take_length_takeWhile] at hmem
  rcases hmem with hmem | hmem
  · exact absurd (mem_takeWhile_imp hmem) (by decide)
  · exact absurd (mem_takeWhile_imp hmem) (by decide)

lemma readWord_reaches (n : Nat) (word : String) (rest : List Char) : ∃ k, (readWord n word rest).2 = n + k ∧
      ((readWord n word rest).1.isShort ∧ '#' ∉ rest.take k ∨
        (readWord n word rest).1.isShort = false ∧ BreaksOff (rest.drop k)) := by
  unfold readWord
  dsimp only
  split
  · exact ⟨_, Nat.add_assoc _ _ _, .inl ⟨rfl, not_mem_symbol rest⟩⟩
  · exact ⟨_, Nat.add_assoc _ _ _, .inl ⟨rfl, not_mem_symbol rest⟩⟩
  · exact ⟨_, rfl, .inr ⟨rfl, breaksOff_line rest⟩⟩
  · exact ⟨_, rfl, .inr ⟨rfl, breaksOff_line rest⟩⟩
  · exact ⟨0, rfl, .inl ⟨rfl, by simp⟩⟩
  · exact ⟨0, rfl, .inl ⟨rfl, by simp⟩⟩
  · exact ⟨_, rfl, .inr ⟨rfl, breaksOff_definition false rest⟩⟩
  · exact ⟨_, rfl, .inr ⟨rfl, breaksOff_line rest⟩⟩
  · exact ⟨_, rfl, .inr ⟨rfl, breaksOff_line rest⟩⟩

lemma read_reaches (cs : List Char) : (read cs).1.isShort ∧ '#' ∉ cs.take (read cs).2 ∨
      (read cs).1.isShort = false ∧ BreaksOff (cs.drop (read cs).2) := by
  obtain ⟨pad, word, rest, rfl, hpad, -, hword, -, hread⟩ := exists_read cs
  obtain ⟨k, hk, h⟩ := readWord_reaches (pad.length + word.toList.length) word rest
  have hlen : pad.length + word.toList.length + k = (pad ++ word.toList).length + k := by rw [length_append]
  rw [hread, hk, hlen, ← append_assoc, take_length_add_append, drop_length_add_append]
  refine h.imp (fun ⟨hshort, hmark⟩ => ⟨hshort, ?_⟩) id
  simp only [mem_append, not_or]
  refine ⟨⟨fun hc => ?_, fun hc => ?_⟩, hmark⟩
  · exact absurd (hpad '#' hc) (by decide)
  · exact absurd (hword '#' hc) (by decide)

def Reaches (n : Nat) (cs : List Char) : Prop :=
  '#' ∉ cs.take n ∨ BreaksOff (cs.drop n)

lemma reaches_read (cs : List Char) : Reaches (read cs).2 cs :=
  (read_reaches cs).imp (·.2) (·.2)

lemma reaches_zero (cs : List Char) : Reaches 0 cs :=
  .inl (by simp)

lemma Reaches.tail (h : Reaches (n + 1) (c :: cs)) : Reaches n cs := by
  rw [Reaches, take_succ_cons, drop_succ_cons, mem_cons, not_or] at h
  exact h.imp (·.2) id

/-! ## Where directives are found -/

def Covered (n : Nat) (before ms : List (Char × Segment.Kind)) : Prop :=
  ∀ as tabs tabs' ms', before = as ++ ('#', .code) :: tabs.map (·, .code) → ms = tabs'.map (·, .code) ++ ('#', .code) :: ms' →
    Tabs tabs → Tabs tabs' → tabs ++ tabs' ≠ [] → tabs'.length < n

def EndsMarked (ms : List (Char × Segment.Kind)) : Prop :=
  ∃ as tabs, ms = as ++ ('#', .code) :: tabs.map (·, .code) ∧ Tabs tabs ∧ tabs ≠ []

lemma Covered.not_endsMarked (h : Covered 0 before (('#', .code) :: ms)) : ¬EndsMarked before := by
  rintro ⟨as, tabs, hbefore, htabs, hne⟩
  exact absurd (h as tabs [] ms hbefore rfl htabs (by simp [Tabs]) (by simpa using hne)) (by simp)

lemma snoc_eq_marked {as : List (Char × Segment.Kind)} {p : Char × Segment.Kind}
    (h : before ++ [p] = as ++ ('#', .code) :: tabs.map (·, .code)) : tabs = [] ∧ p = ('#', .code) ∨
      ∃ tabs₀ c, tabs = tabs₀ ++ [c] ∧ p = (c, .code) ∧ before = as ++ ('#', .code) :: tabs₀.map (·, .code) := by
  rcases eq_nil_or_concat tabs with rfl | ⟨tabs₀, c, rfl⟩
  · exact .inl ⟨rfl, by simpa using (append_inj' h rfl).2⟩
  · rw [concat_eq_append, map_append, ← cons_append, ← append_assoc] at h
    obtain ⟨hbefore, hp⟩ := append_inj' h rfl
    exact .inr ⟨tabs₀, c, by simp, by simpa using hp, hbefore⟩

section Covered
variable {n : Nat} {before ms : List (Char × Segment.Kind)} {c : Char}

lemma covered_literal {kind : Segment.Kind} (h : kind ≠ .code) : Covered n (before ++ [(c, kind)]) ms := by
  intro as tabs tabs' ms' hbefore
  rcases snoc_eq_marked hbefore with ⟨-, hp⟩ | ⟨tabs₀, d, -, hp, -⟩
  · exact absurd (Prod.mk.inj hp).2 h
  · exact absurd (Prod.mk.inj hp).2 h

lemma lt_of_breaksOff (htabs : Tabs tabs) (h : BreaksOff ((tabs ++ '#' :: rest).drop n)) : tabs.length < n := by
  by_contra hle
  rw [Nat.not_lt] at hle
  rw [drop_append_of_le_length hle] at h
  cases hdrop : tabs.drop n with
  | nil => exact absurd (h '#' (by rw [hdrop]; rfl)) (by decide)
  | cons d ds =>
    have hd := htabs d (mem_of_mem_drop (hdrop ▸ mem_cons_self))
    have hbreak := h d (by rw [hdrop]; rfl)
    simp only [isTab, Bool.or_eq_true, decide_eq_true_eq] at hd
    rcases hd with rfl | rfl <;> cases hbreak

lemma Covered.skip (h : Covered (n + 1) before ((c, .code) :: ms)) (hreach : Reaches (n + 1) (c :: ms.map (·.1))) :
    Covered n (before ++ [(c, .code)]) ms := by
  intro as tabs tabs' ms' hbefore hms htabs htabs' hne
  rcases snoc_eq_marked hbefore with ⟨rfl, hp⟩ | ⟨tabs₀, d, rfl, hp, hbefore'⟩
  · obtain ⟨rfl, -⟩ := Prod.mk.inj hp
    rcases hreach with hmark | hbreaks
    · exact absurd (by simp) hmark
    · rw [drop_succ_cons, hms] at hbreaks
      exact lt_of_breaksOff htabs' (by simpa [Function.comp_def] using hbreaks)
  · obtain ⟨rfl, -⟩ := Prod.mk.inj hp
    have := h as tabs₀ (c :: tabs') ms' hbefore' (by rw [hms]; rfl) (fun d hd => htabs d (by simp [hd]))
      (forall_mem_cons.2 ⟨htabs c (by simp), htabs'⟩) (by simp)
    simpa using this

lemma Covered.other (h : Covered 0 before ((c, .code) :: ms)) (hc : c ≠ '#' ∨ (ms.map (·.1)).head? = some '#') :
    Covered 0 (before ++ [(c, .code)]) ms := by
  intro as tabs tabs' ms' hbefore hms htabs htabs' hne
  rcases snoc_eq_marked hbefore with ⟨rfl, hp⟩ | ⟨tabs₀, d, rfl, hp, hbefore'⟩
  · obtain ⟨rfl, -⟩ := Prod.mk.inj hp
    obtain ⟨d, tabs', rfl⟩ := exists_cons_of_ne_nil hne
    have hd : d = '#' := by simpa [hms] using hc
    exact absurd (htabs' d mem_cons_self) (by rw [hd]; decide)
  · obtain ⟨rfl, -⟩ := Prod.mk.inj hp
    exact absurd (h as tabs₀ (c :: tabs') ms' hbefore' (by rw [hms]; rfl) (fun d hd => htabs d (by simp [hd]))
      (forall_mem_cons.2 ⟨htabs c (by simp), htabs'⟩) (by simp)) (by simp)

lemma covered_mark : Covered (read (ms.map (·.1))).2 (before ++ [('#', .code)]) ms := by
  intro as tabs tabs' ms' hbefore hms htabs htabs' hne
  rcases snoc_eq_marked hbefore with ⟨rfl, -⟩ | ⟨tabs₀, d, rfl, hp, -⟩
  · have hread : read (tabs' ++ ("".toList ++ '#' :: ms'.map (·.1))) = readWord (tabs'.length + 0) "" ('#' :: ms'.map (·.1)) :=
      read_word "" htabs' (by simp [isTab]) (by simp) (by simp)
    have hchars : ms.map (·.1) = tabs' ++ ("".toList ++ '#' :: ms'.map (·.1)) := by
      rw [hms]
      simp [Function.comp_def]
    rw [hchars, hread]
    have hline : 0 < line ('#' :: ms'.map (·.1)) := by simp [line, isLineBreak]
    change tabs'.length < tabs'.length + 0 + line ('#' :: ms'.map (·.1))
    omega
  · obtain ⟨rfl, -⟩ := Prod.mk.inj hp
    exact absurd (htabs '#' (by simp)) (by decide)

end Covered

lemma exists_of_mem_found (hreach : Reaches n (ms.map (·.1))) (hcovered : Covered n before ms)
    (hd : d ∈ found pos n ms) :
    ∃ as bs, ms = as ++ ('#', .code) :: bs ∧ ¬EndsMarked (before ++ as) ∧ d.kind = (read (bs.map (·.1))).1 ∧
      d.start = pos + byteLength (as.map (·.1)) ∧
      d.stop = d.start + byteLength ('#' :: (bs.map (·.1)).take (read (bs.map (·.1))).2) := by
  induction ms generalizing n pos before with
  | nil =>
    simp [found_nil] at hd
  | cons p ms ih =>
    obtain ⟨c, kind⟩ := p
    -- a directive behind the first character is one behind the rest
    have hrest {n' : Nat} (hreach' : Reaches n' (ms.map (·.1))) (hcovered' : Covered n' (before ++ [(c, kind)]) ms)
        (hd' : d ∈ found (pos + c.utf8Size) n' ms) : ∃ as bs, (c, kind) :: ms = as ++ ('#', .code) :: bs ∧ ¬EndsMarked (before ++ as) ∧
          d.kind = (read (bs.map (·.1))).1 ∧ d.start = pos + byteLength (as.map (·.1)) ∧
          d.stop = d.start + byteLength ('#' :: (bs.map (·.1)).take (read (bs.map (·.1))).2) := by
      obtain ⟨as, bs, rfl, hends, hkind, hstart, hstop⟩ := ih hreach' hcovered' hd'
      refine ⟨(c, kind) :: as, bs, rfl, by simpa using hends, hkind, ?_, hstop⟩
      rw [hstart, map_cons, byteLength_cons, Nat.add_assoc]
    by_cases hcode : kind = .code
    · subst hcode
      cases n with
      | succ n =>
        rw [found_skip] at hd
        exact hrest hreach.tail (hcovered.skip hreach) hd
      | zero =>
        by_cases hc : c = '#' ∧ (ms.map (·.1)).head? ≠ some '#'
        · obtain ⟨rfl, hhead⟩ := hc
          rw [found_mark _ _ hhead, mem_cons] at hd
          rcases hd with rfl | hd
          · refine ⟨[], ms, rfl, by simpa using hcovered.not_endsMarked, rfl, rfl, ?_⟩
            rw [byteLength_cons, ← Nat.add_assoc]
            rfl
          · exact hrest (reaches_read _) covered_mark hd
        · rw [not_and_or, not_ne_iff] at hc
          rw [found_other _ _ _ hc] at hd
          exact hrest (reaches_zero _) (hcovered.other hc) hd
    · rw [found_literal _ _ _ _ hcode] at hd
      exact hrest (reaches_zero _) (covered_literal hcode) hd

lemma found_cons (pos k : Nat) (p : Char × Segment.Kind) (ms : List (Char × Segment.Kind)) :
    (∃ k', found pos k (p :: ms) = found (pos + p.1.utf8Size) k' ms) ∨
    p = ('#', .code) ∧ (ms.map (·.1)).head? ≠ some '#' ∧ found pos k (p :: ms) =
        ⟨(read (ms.map (·.1))).1, pos, pos + 1 + byteLength ((ms.map (·.1)).take (read (ms.map (·.1))).2)⟩ ::
          found (pos + 1) (read (ms.map (·.1))).2 ms := by
  obtain ⟨c, kind⟩ := p
  by_cases hcode : kind = .code
  · subst hcode
    cases k with
    | succ k => exact .inl ⟨k, found_skip pos k c ms⟩
    | zero =>
      by_cases hc : c = '#'
      · subst hc
        by_cases hhead : (ms.map (·.1)).head? = some '#'
        · exact .inl ⟨0, found_other pos '#' ms (.inr hhead)⟩
        · exact .inr ⟨rfl, hhead, found_mark pos ms hhead⟩
      · exact .inl ⟨0, found_other pos c ms (.inl hc)⟩
  · exact .inl ⟨0, found_literal pos k c ms hcode⟩

lemma le_start_of_mem_found (h : ('#', .code) ∉ ms.take n) (hd : d ∈ found pos k ms) :
    pos + byteLength ((ms.map (·.1)).take n) ≤ d.start := by
  induction ms generalizing k n pos with
  | nil =>
    simp [found_nil] at hd
  | cons p ms ih =>
    rw [map_cons]
    rcases found_cons pos k p ms with ⟨k', heq⟩ | ⟨rfl, -, heq⟩
    · rw [heq] at hd
      cases n with
      | zero =>
        have := ih (n := 0) (by simp) hd
        simp only [take_zero, byteLength_nil] at this ⊢
        omega
      | succ n =>
        rw [take_succ_cons, mem_cons, not_or] at h
        have := ih h.2 hd
        rw [take_succ_cons, byteLength_cons]
        omega
    · cases n with
      | zero =>
        rw [heq, mem_cons] at hd
        simp only [take_zero, byteLength_nil]
        rcases hd with rfl | hd
        · exact Nat.le_refl _
        · have := ih (n := 0) (by simp) hd
          omega
      | succ n => simp at h

def Before (d e : Directive) : Prop :=
  d.start < e.start ∧ (d.kind.isShort = true → d.stop ≤ e.start)

lemma pairwise_found (pos k : Nat) (ms : List (Char × Segment.Kind)) : (found pos k ms).Pairwise Before := by
  induction ms generalizing pos k with
  | nil => rw [found_nil]; exact .nil
  | cons p ms ih =>
    rcases found_cons pos k p ms with ⟨k', heq⟩ | ⟨rfl, -, heq⟩
    · rw [heq]
      exact ih _ _
    · rw [heq]
      refine pairwise_cons.2 ⟨fun e he => ⟨?_, fun hshort => ?_⟩, ih _ _⟩
      · have := le_start_of_mem_found (n := 0) (by simp) he
        simp only [take_zero, byteLength_nil] at this
        dsimp only
        omega
      · rcases read_reaches (ms.map (·.1)) with ⟨-, hmark⟩ | ⟨hlong, -⟩
        · exact le_start_of_mem_found (fun h => hmark (by rw [← map_take]; exact mem_map_of_mem h)) he
        · simp [hlong] at hshort

/-! ## Heads before a blank -/

def Kind.isNamed : Kind → Bool
  | ifDefined symbol | ifUndefined symbol => symbol ≠ ""
  | _ => true

lemma takeWhile_append_of_mem {p : Char → Bool} {as : List Char} (hc : c ∈ as) (hp : p c = false)
    (bs : List Char) : (as ++ bs).takeWhile p = as.takeWhile p := by
  obtain ⟨xs, ys, rfl⟩ := append_of_mem hc
  rw [append_assoc, cons_append, takeWhile_append_cons xs hp, takeWhile_append_cons xs hp]

lemma not_wordChar_of_blank (h : isBlank c) : isWordChar c = false := by
  by_contra hword
  simp [not_blank_of_wordChar (by simpa using hword)] at h

lemma symbol_append (hz : b.getLast? = some z) (hblank : isBlank z) : (∀ c ∈ b, isBlank c) ∨
      ∃ gap symbol : List Char, gap.length + symbol.length ≤ b.length ∧ ∀ rest, (b ++ rest).takeWhile isBlank = gap ∧
        ((b ++ rest).drop gap.length).takeWhile isWordChar = symbol := by
  by_cases hall : ∀ c ∈ b, isBlank c
  · exact .inl hall
  simp only [not_forall, Bool.not_eq_true] at hall
  obtain ⟨c, hc, hcb⟩ := hall
  have hsplit := takeWhile_append_dropWhile (p := isBlank) (l := b)
  have hne : b.dropWhile isBlank ≠ [] := fun hnil => by
    simp [dropWhile_eq_nil_iff.1 hnil c hc] at hcb
  have hmem : z ∈ b.dropWhile isBlank := by
    rw [← hsplit, getLast?_append_of_ne_nil _ hne] at hz
    exact mem_of_getLast? hz
  refine .inr ⟨b.takeWhile isBlank, (b.dropWhile isBlank).takeWhile isWordChar, ?_, fun rest => ?_⟩
  · have hle := (List.takeWhile_prefix isWordChar (l := b.dropWhile isBlank)).length_le
    have hlen := congrArg length hsplit
    rw [length_append] at hlen
    omega
  · refine ⟨takeWhile_append_of_mem hc hcb rest, ?_⟩
    rw [drop_append_of_le_length (List.takeWhile_prefix _).length_le, drop_length_takeWhile]
    exact takeWhile_append_of_mem hmem (not_wordChar_of_blank hblank) rest

lemma readWord_stable (hz : b.getLast? = some z) (hblank : isBlank z) (n : Nat)
    (word : String) (hshort : (readWord n word (b ++ rest)).1.isShort)
    (hnamed : (readWord n word (b ++ '#' :: more)).1.isNamed) :
    readWord n word (b ++ rest) = readWord n word (b ++ '#' :: more) ∧ (readWord n word (b ++ rest)).2 ≤ n + b.length := by
  have hword : (word = "ifdef" ∨ word = "ifndef") ∨ word = "else" ∨ word = "endif" := by
    revert hshort
    unfold readWord
    dsimp only
    split <;> simp [Kind.isShort]
  rcases hword with hword | hword
  · rcases symbol_append hz hblank with hall | ⟨gap, symbol, hlen, hsymbol⟩
    · -- only blanks follow the word, so the directive has no symbol
      have hgap : (b ++ '#' :: more).takeWhile isBlank = b := takeWhile_append_stop hall (by simp [isBlank])
      rcases hword with rfl | rfl <;> simp [readWord, hgap, Kind.isNamed, isWordChar] at hnamed
    · obtain ⟨hgap, hsym⟩ := hsymbol rest
      obtain ⟨hgap', hsym'⟩ := hsymbol ('#' :: more)
      rcases hword with rfl | rfl
      all_goals
        simp only [readWord, hgap, hsym, hgap', hsym', true_and]
        omega
  · rcases hword with rfl | rfl <;> exact ⟨rfl, Nat.le_add_right _ _⟩

lemma exists_readWord (hz : b.getLast? = some z) (hblank : isBlank z) (htabs : ¬Tabs b) :
    ∃ (n : Nat) (word : String) (tail : List Char), tail.getLast? = some z ∧ n + tail.length = b.length ∧
      ∀ more, read (b ++ more) = readWord n word (tail ++ more) := by
  obtain ⟨pad, word, tail, hb, hpad, hstop, hword, htail, -⟩ := exists_read b
  have hne : word.toList ++ tail ≠ [] := by
    rintro hnil
    rw [hnil, append_nil] at hb
    exact htabs (hb ▸ hpad)
  have htail' : tail ≠ [] := by
    rintro rfl
    rw [append_nil] at hne hb
    rw [hb, getLast?_append_of_ne_nil _ hne] at hz
    have := hword z (mem_of_getLast? hz)
    have := not_wordChar_of_blank hblank
    simp_all [isWordChar]
  refine ⟨pad.length + word.toList.length, word, tail, ?_, ?_, fun more => ?_⟩
  · rwa [hb, ← append_assoc, getLast?_append_of_ne_nil _ htail'] at hz
  · rw [hb, length_append, length_append, Nat.add_assoc]
  · rw [hb, append_assoc, append_assoc]
    refine read_word word hpad ?_ hword ?_
    · rw [← append_assoc, head?_append_of_ne_nil _ hne]
      exact hstop
    · rw [head?_append_of_ne_nil _ htail']
      exact htail

lemma read_stable (hz : b.getLast? = some z) (hblank : isBlank z) (htabs : ¬Tabs b)
    (hshort : (read (b ++ rest)).1.isShort) (hnamed : (read (b ++ '#' :: more)).1.isNamed) :
    read (b ++ rest) = read (b ++ '#' :: more) ∧ (read (b ++ rest)).2 ≤ b.length := by
  obtain ⟨n, word, tail, hlast, hlen, hread⟩ := exists_readWord hz hblank htabs
  rw [hread] at hshort hnamed ⊢
  rw [hread]
  obtain ⟨heq, hle⟩ := readWord_stable hlast hblank _ word hshort hnamed
  exact ⟨heq, hle.trans (Nat.le_of_eq hlen)⟩

end DeviceForge.Directive

/-! # Texts in which directives stand apart -/

namespace DeviceForge.Segment

open List

@[simp] lemma length_marked (cs : List Char) : (marked cs).length = cs.length := by
  have := congrArg length (map_fst_marked cs)
  rwa [length_map] at this

lemma marked_of_code {pre post : List Char} {c : Char} (h : (marked (pre ++ c :: post))[pre.length]? = some (c, .code)) :
    ∃ ms, marked (pre ++ c :: post) = ms ++ (c, .code) :: marked post ∧ ms.length = pre.length := by
  induction hn : pre.length using Nat.strong_induction_on generalizing pre with
  | _ n ih =>
    cases pre with
    | nil =>
      have hcode : (extent c post).1 = .code := by
        rw [nil_append, marked_cons] at h
        simpa using h
      exact ⟨[], by rw [nil_append, marked_code hcode, nil_append], hn⟩
    | cons a pre =>
      rw [length_cons] at hn h
      rw [cons_append] at h ⊢
      by_cases hcode : (extent a (pre ++ c :: post)).1 = .code
      · rw [marked_code hcode, getElem?_cons_succ] at h
        obtain ⟨ms, hms, hlen⟩ := ih pre.length (by omega) h rfl
        exact ⟨(a, .code) :: ms, by rw [marked_code hcode, hms, cons_append], by rw [length_cons, hlen, hn]⟩
      · -- a literal or a comment ends before the character
        rw [marked_cons] at h ⊢
        generalize (extent a (pre ++ c :: post)).1 = kind at h hcode ⊢
        generalize (extent a (pre ++ c :: post)).2 = m at h ⊢
        by_cases hm : m ≤ pre.length
        · rw [take_append_of_le_length hm, drop_append_of_le_length hm] at h ⊢
          have hlen : ((a :: pre.take m).map (·, kind)).length = m + 1 := by simp [hm]
          rw [getElem?_append_right (by omega), hlen, show pre.length + 1 - (m + 1) = (pre.drop m).length by simp] at h
          obtain ⟨ms, hms, hlen'⟩ := ih (pre.drop m).length (by simp; omega) h rfl
          refine ⟨(a :: pre.take m).map (·, kind) ++ ms, by rw [hms, append_assoc], ?_⟩
          rw [length_append, hlen, hlen', length_drop]
          omega
        · exfalso
          rw [getElem?_append_left (by simp; omega), getElem?_map, Option.map_eq_some_iff] at h
          obtain ⟨d, -, hd⟩ := h
          exact hcode (Prod.mk.inj hd).2

end DeviceForge.Segment

namespace DeviceForge.Directive

variable {as bs cs pre post tabs rest rest' : List Char}

def EndsBlank (cs : List Char) : Prop :=
  ∀ b ∈ cs.getLast?, Text.isBlank b = true

def MarkAt (cs pre post : List Char) : Prop :=
  cs = pre ++ '#' :: post ∧ (Segment.marked cs)[pre.length]? = some ('#', .code)

/-- The directive at a mark behind `pre` and before `post` stands apart: behind a blank, with the symbol that
it tests if it tests one, and its head does not end inside a token. -/
structure StandsApart (pre post : List Char) : Prop where
  blank : EndsBlank pre
  named : (read post).1.isNamed = true
  whole : Token.Between ('#' :: post.take (read post).2) (post.drop (read post).2)

/-- The directives of conditional blocks that test a symbol, else and end stand apart. -/
def Tidy (cs : List Char) : Prop :=
  ∀ pre post, MarkAt cs pre post → (read post).1.isShort = true → StandsApart pre post

instance (cs : List Char) : Decidable (EndsBlank cs) :=
  decidable_of_iff (cs.getLast?.all Text.isBlank = true) (Option.all_eq_true _ _)

instance (pre post : List Char) : Decidable (StandsApart pre post) :=
  decidable_of_iff (EndsBlank pre ∧ (read post).1.isNamed = true ∧ Token.Between ('#' :: post.take (read post).2) (post.drop (read post).2))
    ⟨fun ⟨blank, named, whole⟩ => ⟨blank, named, whole⟩, fun h => ⟨h.blank, h.named, h.whole⟩⟩

lemma tidy_iff (cs : List Char) :
    Tidy cs ↔ ∀ i < cs.length, (Segment.marked cs)[i]? = some ('#', .code) → (read (cs.drop (i + 1))).1.isShort →
      StandsApart (cs.take i) (cs.drop (i + 1)) := by
  constructor
  · intro h i hi hcode hshort
    have hget : cs[i] = '#' := by
      have := congrArg (Option.map Prod.fst) hcode
      rw [← List.getElem?_map, Segment.map_fst_marked, List.getElem?_eq_getElem hi] at this
      simpa using this
    have hcs : cs = cs.take i ++ '#' :: cs.drop (i + 1) := by rw [← hget, List.getElem_cons_drop, List.take_append_drop]
    refine h _ _ ⟨hcs, ?_⟩ hshort
    rwa [List.length_take, Nat.min_eq_left (Nat.le_of_lt hi)]
  · rintro h pre post ⟨rfl, hcode⟩ hshort
    have hdrop : (pre ++ '#' :: post).drop (pre.length + 1) = post := by simp
    have := h pre.length (by simp) hcode
    rw [List.take_left, hdrop] at this
    exact this hshort

instance (cs : List Char) : Decidable (Tidy cs) :=
  decidable_of_iff _ (tidy_iff cs).symm

lemma EndsBlank.of_append (h : EndsBlank (as ++ bs)) : EndsBlank bs := by
  intro b hb
  have hne : bs ≠ [] := by rintro rfl; cases hb
  exact h b (by rwa [List.getLast?_append_of_ne_nil _ hne])

lemma EndsBlank.append (has : EndsBlank as) (hbs : EndsBlank bs) : EndsBlank (as ++ bs) := by
  by_cases hne : bs = []
  · rwa [hne, List.append_nil]
  · intro b hb
    rw [List.getLast?_append_of_ne_nil _ hne] at hb
    exact hbs b hb

lemma MarkAt.rests (h : MarkAt cs pre post) (hblank : EndsBlank pre) : Token.Rests pre := by
  obtain ⟨rfl, hcode⟩ := h
  exact Token.rests_of_mark hcode (by decide) hblank

lemma markAt_append_iff (h : Token.Between as bs) : MarkAt (as ++ bs) (as ++ pre) post ↔ MarkAt bs pre post := by
  obtain ⟨ms, hms, hlen⟩ := h.marked_suffix
  rw [MarkAt, MarkAt, hms, List.append_assoc, List.append_cancel_left_eq, List.length_append, ← hlen,
    List.getElem?_append_right (Nat.le_add_right _ _), Nat.add_sub_cancel_left]

lemma Tidy.suffix (h : Tidy (as ++ bs)) (hbetween : Token.Between as bs) : Tidy bs := by
  intro pre post hmark hshort
  have := h (as ++ pre) post ((markAt_append_iff hbetween).2 hmark) hshort
  exact ⟨this.blank.of_append, this.named, this.whole⟩

structure Remains (cs cs' : List Char) : Prop where
  tidy : Tidy cs'
  sublist : (Token.shapes cs').Sublist (Token.shapes cs)

lemma Remains.trans (h : Remains as bs) (h' : Remains bs cs) : Remains as cs :=
  ⟨h'.tidy, h'.sublist.trans h.sublist⟩

lemma remains_suffix (h : Tidy (as ++ bs)) (hbetween : Token.Between as bs) : Remains (as ++ bs) bs := by
  obtain ⟨ss, hss⟩ := hbetween.shapes_suffix
  exact ⟨h.suffix hbetween, by rw [hss]; exact List.sublist_append_right _ _⟩

lemma endsMarked_of_tabs (h : (Segment.marked (pre ++ '#' :: tabs))[pre.length]? = some ('#', .code))
    (htabs : Tabs tabs) (hne : tabs ≠ []) : EndsMarked (Segment.marked (pre ++ '#' :: tabs)) := by
  obtain ⟨ms, hms, -⟩ := Segment.marked_of_code h
  have hplain : Segment.marked tabs = tabs.map (·, .code) := by
    have := Segment.marked_plain (fun c hc => Segment.plain_of_blank (blank_of_tab (htabs c hc))) []
    simpa [Segment.marked, Segment.ofChars] using this
  exact ⟨ms, tabs, by rw [hms, hplain], htabs, hne⟩

lemma StandsApart.extend (more : List Char) (hrests : Token.Rests (pre ++ '#' :: post))
    (hmark : (Segment.marked (pre ++ '#' :: post))[pre.length]? = some ('#', .code)) (htabs : ¬Tabs post)
    (hshort : (read (post ++ rest)).1.isShort)
    (h : (read (post ++ '#' :: more)).1.isShort → StandsApart pre (post ++ '#' :: more)) : StandsApart pre (post ++ rest) := by
  have hne : post ≠ [] := by rintro rfl; exact htabs (by simp [Tabs])
  obtain ⟨z, hz⟩ := List.getLast?_isSome.2 hne |> Option.isSome_iff_exists.1
  have hblank : Text.isBlank z := hrests.getLast? z (by
    rw [List.getLast?_append_of_ne_nil _ (List.cons_ne_nil _ _), List.getLast?_cons, hz]
    rfl)
  have hnamed : (read (post ++ '#' :: more)).1.isNamed := by
    by_cases hshort' : (read (post ++ '#' :: more)).1.isShort
    · exact (h hshort').named
    · cases hk : (read (post ++ '#' :: more)).1 <;> simp_all [Kind.isShort, Kind.isNamed]
  obtain ⟨hread, hle⟩ := read_stable hz hblank htabs hshort hnamed
  have happ := h (hread ▸ hshort)
  have hrests' : Token.Rests ('#' :: post) :=
    hrests.suffix ((Token.rests_of_mark hmark (by decide) happ.blank).between _)
  refine ⟨happ.blank, hread ▸ happ.named, ?_⟩
  have hwhole := happ.whole
  rw [← hread, List.take_append_of_le_length hle, List.drop_append_of_le_length hle] at hwhole
  rw [List.take_append_of_le_length hle, List.drop_append_of_le_length hle]
  exact hwhole.extend (by rwa [List.cons_append, List.take_append_drop]) rest

lemma Remains.splice (h : Remains ('#' :: rest) rest') (htidy : Tidy (pre ++ '#' :: rest))
    (hrests : Token.Rests pre) (hends : ¬EndsMarked (Segment.marked pre)) :
    Remains (pre ++ '#' :: rest) (pre ++ rest') := by
  refine ⟨?_, ?_⟩
  · intro p q hmark hshort
    have hbehind (a : List Char) (hmark : MarkAt (pre ++ rest') (pre ++ a) q) : StandsApart (pre ++ a) q := by
      have happ := h.tidy a q ((markAt_append_iff (hrests.between rest')).1 hmark) hshort
      exact ⟨EndsBlank.append hrests.getLast? happ.blank, happ.named, happ.whole⟩
    -- the mark is one of the rest, or one of the text before it
    rcases List.append_eq_append_iff.1 hmark.1 with ⟨a, rfl, -⟩ | ⟨a, hpre, ha⟩
    · exact hbehind a hmark
    · cases a with
      | nil =>
        rw [List.append_nil] at hpre
        subst hpre
        have := hbehind [] (by rwa [List.append_nil])
        rwa [List.append_nil] at this
      | cons d a =>
        obtain ⟨rfl, rfl⟩ := List.cons.inj ha
        subst hpre
        change (read (a ++ rest')).1.isShort = true at hshort
        have hcode := hmark.2
        rw [hrests.marked_append, List.getElem?_append_left (by simp)] at hcode
        have hne : a ≠ [] := by
          rintro rfl
          exact absurd (hrests.getLast? '#' (by simp)) (by decide)
        refine StandsApart.extend rest hrests hcode (fun htabs => hends (endsMarked_of_tabs hcode htabs hne)) hshort fun hshort' => ?_
        refine htidy p _ ⟨by simp, ?_⟩ hshort'
        rw [hrests.marked_append, List.getElem?_append_left (by simp), hcode]
  · rw [hrests.shapes_append, hrests.shapes_append]
    exact (List.Sublist.refl _).append h.sublist

end DeviceForge.Directive
