import DeviceForge.Proofs.Directive.Again
/-!
# Directives that do not overlap

The scan for directives starts anew behind a literal or a comment, also in the middle of a directive that goes on to the
end of its line.
-/

namespace DeviceForge.Directive

open Segment List Text Lexeme

variable {cs pre post : List Char} {d : Directive} {pos n k : Nat} {ms as bs : List (Char × Segment.Kind)} {spans : List (Nat × Nat)}
  {p : Char × Segment.Kind}

/-! ## Marks behind literals and comments -/

def sites (cs : List Char) : List ((Nat × Char) × Segment.Kind) :=
  (placed 0 cs).zip (Segment.kinds cs)

/-- In no directive a mark of code stands behind a character of a literal or a comment. -/
def Unmixed (cs : List Char) : Prop :=
  ∀ d ∈ ofChars cs, ∀ x ∈ sites cs, ∀ y ∈ sites cs, d.start ≤ x.1.1 → x.1.1 < y.1.1 → y.1.1 < d.stop →
    y.1.2 = '#' → y.2 = .code → x.2 = .code

instance (cs : List Char) : Decidable (Unmixed cs) :=
  inferInstanceAs (Decidable (∀ d ∈ ofChars cs, _))

lemma mem_zip_placed (pos : Nat) (as bs : List (Char × Segment.Kind)) (p : Char × Segment.Kind) :
    ((pos + byteLength (as.map (·.1)), p.1), p.2) ∈
      (placed pos ((as ++ p :: bs).map (·.1))).zip ((as ++ p :: bs).map (·.2)) := by
  induction as generalizing pos with
  | nil => exact mem_cons_self
  | cons q as ih =>
    rw [map_cons, byteLength_cons, ← Nat.add_assoc]
    exact mem_cons_of_mem _ (ih _)

lemma mem_sites (h : marked cs = as ++ p :: bs) :
    ((byteLength (as.map (·.1)), p.1), p.2) ∈ sites cs := by
  have hmem := mem_zip_placed 0 as bs p
  rwa [← h, map_fst_marked, Nat.zero_add] at hmem

def Clear (n : Nat) (ms : List (Char × Segment.Kind)) : Prop :=
  ∀ us q vs ws, ms = us ++ q :: (vs ++ ('#', .code) :: ws) → us.length + vs.length + 1 < n → q.2 = .code

lemma Clear.tail (h : Clear (n + 1) (p :: ms)) : Clear n ms := by
  intro us q vs ws hms hlt
  exact h (p :: us) q vs ws (by rw [hms]; rfl) (by rw [length_cons]; omega)

lemma Clear.not_mem (h : Clear (n + 1) (p :: ms)) (hp : p.2 ≠ .code) : ('#', .code) ∉ ms.take n := by
  intro hmem
  obtain ⟨vs, ws, htake⟩ := append_of_mem hmem
  have hlt : vs.length < n := by
    have := congrArg length htake
    rw [length_take, length_append, length_cons] at this
    omega
  refine hp (h [] p vs (ws ++ ms.drop n) ?_ (by simpa using hlt))
  have hms : ms = (vs ++ ('#', .code) :: ws) ++ ms.drop n := by rw [← htake, take_append_drop]
  rw [nil_append, cons.injEq]
  exact ⟨rfl, by simpa using hms⟩

lemma le_start_of_clear (h : Clear n ms) (hd : d ∈ found pos n ms) : pos + byteLength ((ms.map (·.1)).take n) ≤ d.start := by
  induction ms generalizing n pos with
  | nil =>
    simp [found_nil] at hd
  | cons p ms ih =>
    obtain ⟨c, kind⟩ := p
    cases n with
    | zero => exact le_start_of_mem_found (n := 0) (by simp) hd
    | succ n =>
      rw [map_cons, take_succ_cons, byteLength_cons, ← Nat.add_assoc]
      by_cases hcode : kind = .code
      · subst hcode
        rw [found_skip] at hd
        exact ih h.tail hd
      · rw [found_literal pos _ c ms hcode] at hd
        exact le_start_of_mem_found (h.not_mem hcode) hd

lemma disjoint_found (h : ∀ as bs, ms = as ++ ('#', .code) :: bs →
      (∃ d ∈ found pos k ms, d.start = pos + byteLength (as.map (·.1))) → Clear (read (bs.map (·.1))).2 bs) :
    (found pos k ms).Pairwise fun d e => d.stop ≤ e.start := by
  induction ms generalizing pos k with
  | nil => rw [found_nil]; exact .nil
  | cons p ms ih =>
    have hbehind {k' : Nat} (hsub : found (pos + p.1.utf8Size) k' ms ⊆ found pos k (p :: ms)) :
        (found (pos + p.1.utf8Size) k' ms).Pairwise fun d e => d.stop ≤ e.start := by
      refine ih fun as bs hms ⟨d, hd, hstart⟩ => h (p :: as) bs (by rw [hms]; rfl) ⟨d, hsub hd, ?_⟩
      rw [hstart, map_cons, byteLength_cons, Nat.add_assoc]
    rcases found_cons pos k p ms with ⟨k', heq⟩ | ⟨rfl, -, heq⟩
    · rw [heq] at hbehind ⊢
      exact hbehind fun d hd => hd
    · rw [heq] at hbehind h ⊢
      exact pairwise_cons.2 ⟨fun e he => le_start_of_clear (h [] ms rfl ⟨_, mem_cons_self, rfl⟩) he,
        hbehind fun d hd => mem_cons_of_mem _ hd⟩

lemma byteLength_lt_take (as bs : List Char) (c : Char) (h : as.length < n) :
    byteLength as < byteLength ((as ++ c :: bs).take n) := by
  obtain ⟨m, rfl⟩ : ∃ m, n = as.length + (m + 1) := ⟨n - as.length - 1, by omega⟩
  have := c.utf8Size_pos
  rw [take_length_add_append, take_succ_cons, byteLength_append, byteLength_cons]
  omega

lemma Unmixed.disjoint (h : Unmixed cs) : (ofChars cs).Pairwise fun d e => d.stop ≤ e.start := by
  rw [ofChars_eq]
  refine disjoint_found fun as bs hms ⟨d, hd, hstart⟩ us q vs ws hbs hlt => ?_
  rw [← ofChars_eq] at hd
  obtain ⟨pre, post, hfound⟩ := exists_found hd
  have hcs : as.map (·.1) ++ '#' :: bs.map (·.1) = pre ++ '#' :: post := by
    rw [← hfound.mark.1, ← map_fst_marked cs, hms, map_append, map_cons]
  have hbytes : byteLength (as.map (·.1)) = byteLength pre := by rw [← hfound.stands.start_eq, hstart, Nat.zero_add]
  obtain ⟨gap, hgap⟩ := exists_append_of_byteLength_le hcs (Nat.le_of_eq hbytes)
  obtain rfl : gap = [] := by
    by_contra hne
    have := byteLength_pos hne
    rw [hgap, byteLength_append] at hbytes
    omega
  rw [append_nil] at hgap
  subst hgap
  obtain rfl : bs.map (·.1) = post := by simpa using hcs
  have hx : marked cs = (as ++ ('#', .code) :: us) ++ q :: (vs ++ ('#', .code) :: ws) := by rw [hms, hbs, append_assoc]; rfl
  have hy : marked cs = (as ++ ('#', .code) :: us ++ q :: vs) ++ ('#', .code) :: ws := by rw [hx]; simp
  refine h d hd _ (mem_sites hx) _ (mem_sites hy) ?_ ?_ ?_ rfl rfl
  · simp only [hfound.stands.start_eq, map_append, byteLength_append]
    omega
  · have := q.1.utf8Size_pos
    simp only [map_append, map_cons, byteLength_append, byteLength_cons]
    omega
  · have hlast := byteLength_lt_take (n := (read (bs.map (·.1))).2) ((us ++ q :: vs).map (·.1)) (ws.map (·.1)) '#'
      (by simp; omega)
    have hbs' : bs.map (·.1) = (us ++ q :: vs).map (·.1) ++ '#' :: ws.map (·.1) := by rw [hbs]; simp
    rw [← hbs'] at hlast
    rw [hfound.stands.stop_eq]
    simp only [map_append, map_cons, byteLength_append, byteLength_cons] at hlast ⊢
    omega

/-! ## Cutting spans out -/

def Within (cs : List Char) (span : Nat × Nat) : Prop :=
  ∃ pre mid post, cs = pre ++ mid ++ post ∧ span.1 = byteLength pre ∧ span.2 = byteLength (pre ++ mid)

def covers (pos : Nat) (span : Nat × Nat) : Bool :=
  span.1 ≤ pos && pos < span.2

def kept (spans : List (Nat × Nat)) (pos : Nat) (cs : List Char) : List Char :=
  ((placed pos cs).filter fun x => !spans.any (covers x.1)).map (·.2)

section Kept
variable {span : Nat × Nat}

lemma kept_append (spans : List (Nat × Nat)) (pos : Nat) (cs more : List Char) :
    kept spans pos (cs ++ more) = kept spans pos cs ++ kept spans (pos + byteLength cs) more := by
  rw [kept, placed_append, filter_append, map_append]
  rfl

lemma kept_before (h : ∀ span ∈ spans, pos + byteLength cs ≤ span.1) : kept spans pos cs = cs := by
  have hall : ∀ x ∈ placed pos cs, (!spans.any (covers x.1)) := by
    intro x hx
    have := (mem_placed x hx).2
    simp only [Bool.not_eq_true', any_eq_false, covers, Bool.and_eq_true, decide_eq_true_eq, not_and]
    intro span hspan
    have := h span hspan
    omega
  rw [kept, filter_eq_self.2 hall, map_snd_placed]

lemma kept_inside (hstart : span.1 = pos) (hstop : span.2 = pos + byteLength cs) : kept (span :: spans) pos cs = [] := by
  have hnone : ∀ x ∈ placed pos cs, ¬(!(span :: spans).any (covers x.1)) := by
    intro x hx
    subst hstart
    have := mem_placed x hx
    rw [← hstop] at this
    simp [covers, this]
  rw [kept, filter_eq_nil_iff.2 hnone, map_nil]

lemma kept_behind (h : span.2 ≤ pos) : kept (span :: spans) pos cs = kept spans pos cs := by
  refine congrArg _ (filter_congr fun x hx => ?_)
  have hge := (mem_placed x hx).1
  have hnot : covers x.1 span = false := by
    simp only [covers, Bool.and_eq_false_iff, decide_eq_false_iff_not]
    omega
  rw [any_cons, hnot, Bool.false_or]

end Kept

lemma foldr_cut_eq (hcs : cs = pre ++ post) (hwithin : ∀ span ∈ spans, Within cs span)
    (hle : ∀ span ∈ spans, byteLength pre ≤ span.1) (hdisjoint : spans.Pairwise fun a b => a.2 ≤ b.1) :
    spans.foldr (fun span text => cut span.1 span.2 text) cs = pre ++ kept spans (byteLength pre) post := by
  induction spans generalizing pre post with
  | nil => rw [foldr_nil, kept_before (by simp), hcs]
  | cons span spans ih =>
    rw [forall_mem_cons] at hwithin hle
    rw [pairwise_cons] at hdisjoint
    obtain ⟨⟨pre', mid, rest, hspan, hstart, hstop⟩, hwithin⟩ := hwithin
    rw [append_assoc] at hspan
    obtain ⟨gap, rfl⟩ := exists_append_of_byteLength_le (hcs.symm.trans hspan) (hstart ▸ hle.1)
    obtain rfl : post = gap ++ (mid ++ rest) := by
      have := hcs.symm.trans hspan
      rwa [append_assoc, append_cancel_left_eq] at this
    have hlength : span.2 = byteLength (pre ++ gap) + byteLength mid := by rw [hstop, byteLength_append (pre ++ gap)]
    have hgap : ∀ s ∈ span :: spans, byteLength pre + byteLength gap ≤ s.1 := by
      rw [← byteLength_append, ← hstart]
      refine forall_mem_cons.2 ⟨Nat.le_refl _, fun s hs => ?_⟩
      have := hdisjoint.1 s hs
      omega
    -- the other spans are cut out behind this one, which is still in its place then
    have hfold := @ih (pre ++ gap ++ mid) rest (by rw [hspan, append_assoc _ mid]) hwithin (fun s hs => hstop ▸ hdisjoint.1 s hs)
      hdisjoint.2
    calc (span :: spans).foldr (fun span text => cut span.1 span.2 text) cs
        = cut span.1 span.2 (pre ++ gap ++ mid ++ kept spans (byteLength (pre ++ gap ++ mid)) rest) := by rw [foldr_cons, hfold]
      _ = pre ++ gap ++ kept spans (byteLength (pre ++ gap ++ mid)) rest := by rw [hstart, hlength, cut_append]
      _ = pre ++ kept (span :: spans) (byteLength pre) (gap ++ (mid ++ rest)) := by
        rw [kept_append, kept_before hgap, kept_append, ← byteLength_append, kept_inside hstart hlength, ← hlength,
          kept_behind (Nat.le_refl _), hstop, nil_append, append_assoc]

/-! ## Dropping definitions and inclusions -/

lemma stop_le_start {e : Directive} {span : Nat × Nat} (hd : d ∈ ofChars cs) (he : e ∈ ofChars cs) (hle : d.stop ≤ e.start)
    (h : d.dropped? cs = some span) : span.2 ≤ e.start := by
  obtain ⟨pre, post, hfound⟩ := exists_found hd
  obtain ⟨before, behind, hnext⟩ := exists_found he
  obtain ⟨breaks, rest, hpost, hbreaks, rfl⟩ := exists_breaks hfound.mark.1 hfound.stands h
  have hcs : pre ++ '#' :: post.take (read post).2 ++ (breaks ++ rest) = before ++ '#' :: behind := by
    rw [← hpost, ← hnext.mark.1, hfound.mark.1]
    simp
  rw [hfound.stands.stop_eq, hnext.stands.start_eq] at hle
  obtain ⟨gap, rfl⟩ := exists_append_of_byteLength_le hcs hle
  rw [append_assoc _ gap, append_cancel_left_eq] at hcs
  rw [hnext.stands.start_eq, ← cons_append, ← append_assoc, byteLength_append _ gap, byteLength_append _ breaks]
  refine Nat.add_le_add_left ?_ _
  -- a mark is no line break, so the line breaks end before it
  rcases append_eq_append_iff.1 hcs with ⟨more, rfl, -⟩ | ⟨more, hmore, hmark⟩
  · rw [byteLength_append]
    omega
  · cases more with
    | nil => rw [hmore, append_nil]
    | cons c more =>
      obtain ⟨rfl, -⟩ := cons.inj hmark
      exact absurd (hbreaks '#' (by rw [hmore]; simp)) (by decide)

/-- The byte belongs to a directive that is dropped, or to the line breaks behind an inclusion. -/
def drops (cs : List Char) (d : Directive) (pos : Nat) : Bool :=
  match d.kind with
  | .define => d.start ≤ pos && pos < d.stop
  | .inclusion => d.start ≤ pos && pos < d.stop + ((Text.after d.stop cs).2.takeWhile isLineBreak).length
  | _ => false

lemma drops_eq (cs : List Char) (d : Directive) (pos : Nat) : drops cs d pos = (d.dropped? cs).any (covers pos) := by
  unfold drops dropped?
  cases d.kind <;> rfl

/-- Where no mark of code stands behind a literal or a comment in a directive, directives stand one after the other in the
text and share no byte; each of the spans that are dropped, from the last to the first, lies in what is left of the text
then, and exactly the bytes of definitions and of inclusions with the line breaks behind them are gone in the end. -/
theorem dropDefinitions_exact (h : Unmixed cs) :
    ((ofChars cs).Pairwise fun d e => d.start < e.start ∧ d.stop ≤ e.start) ∧
      (∀ d ∈ ofChars cs, d.start < d.stop ∧ d.stop ≤ byteLength cs) ∧
      (∀ before span behind, (ofChars cs).filterMap (dropped? cs) = before ++ span :: behind →
        span.1 ≤ span.2 ∧ span.2 ≤ byteLength (behind.foldr (fun span text => cut span.1 span.2 text) cs)) ∧
      dropDefinitions cs = ((placed 0 cs).filter fun x => !(ofChars cs).any fun d => drops cs d x.1).map (·.2) := by
  have hwithin : ∀ span ∈ (ofChars cs).filterMap (dropped? cs), Within cs span := by
    intro span hspan
    obtain ⟨d, hd, hdrop⟩ := mem_filterMap.1 hspan
    obtain ⟨pre, mid, post, hfound, hstart, hstop⟩ := exists_append_of_dropped? hd hdrop
    exact ⟨pre, '#' :: mid, post, by rw [hfound.mark.1]; simp, hstart, hstop⟩
  have hdisjoint : ((ofChars cs).filterMap (dropped? cs)).Pairwise fun a b => a.2 ≤ b.1 := by
    refine pairwise_filterMap.2 (h.disjoint.imp_of_mem fun hd he hle span hspan span' hspan' => ?_)
    rw [start_of_dropped? hspan']
    exact stop_le_start hd he hle hspan
  refine ⟨?_, fun d hd => ?_, fun before span behind hspans => ?_, ?_⟩
  · have hstarts : (ofChars cs).Pairwise Before := ofChars_eq cs ▸ pairwise_found 0 0 _
    exact (hstarts.and h.disjoint).imp fun ⟨hlt, hle⟩ => ⟨hlt.1, hle⟩
  · obtain ⟨pre, post, hfound⟩ := exists_found hd
    have hcs : cs = pre ++ '#' :: post.take (read post).2 ++ post.drop (read post).2 := by rw [hfound.mark.1]; simp
    rw [hfound.stands.start_eq, hfound.stands.stop_eq, congrArg byteLength hcs, byteLength_append _ (drop _ _), byteLength_append,
      byteLength_cons]
    exact ⟨Nat.lt_add_of_pos_right (Nat.add_pos_left (Char.utf8Size_pos '#') _), Nat.le_add_right _ _⟩
  · rw [hspans] at hwithin hdisjoint
    obtain ⟨pre, mid, post, hcs, hstart, hstop⟩ := hwithin span (by simp)
    have hrest := (pairwise_cons.1 (pairwise_append.1 hdisjoint).2.1)
    rw [foldr_cut_eq hcs (fun s hs => hwithin s (by simp [hs])) (fun s hs => hstop ▸ hrest.1 s hs) hrest.2, hstart, hstop,
      byteLength_append _ (kept _ _ _), byteLength_append]
    omega
  · rw [dropDefinitions_eq, foldr_cut_eq (nil_append cs).symm hwithin (fun _ _ => Nat.zero_le _) hdisjoint, nil_append, kept]
    have hany (pos : Nat) : ((ofChars cs).filterMap (dropped? cs)).any (covers pos) = (ofChars cs).any fun d => drops cs d pos := by
      rw [any_filterMap]
      congr 1
      funext d
      rw [drops_eq]
      cases d.dropped? cs <;> rfl
    simp only [hany, byteLength_nil]

def mixedLines : List Char :=
  "#include \"a.h\"\r\n\nint x;\n#define F(s) \\\n s \"#\" // v\n#endif\n".toList

/-- Literals and a comment in directives, and a definition that goes on behind its first line. -/
theorem dropDefinitions_exact_lines :
    Unmixed mixedLines ∧ ((ofChars mixedLines).Pairwise fun d e => d.start < e.start ∧ d.stop ≤ e.start) ∧
      dropDefinitions mixedLines = "int x;\n\n#endif\n".toList := by
  have h : Unmixed mixedLines := by decide +kernel
  obtain ⟨hpairwise, -, -, hdrop⟩ := dropDefinitions_exact h
  refine ⟨h, hpairwise, hdrop.trans ?_⟩
  decide +kernel

/-- A definition behind a literal of another one: both go on to the end of the line, and when the second one is cut out
first, the first one takes the start of the next line with it. -/
theorem not_disjoint_behind_literal :
    let cs := "#define A \"x\" #define B\nint y; double z;".toList
    (¬(ofChars cs).Pairwise fun d e => d.stop ≤ e.start) ∧ dropDefinitions cs = "ouble z;".toList ∧
      ((placed 0 cs).filter fun x => !(ofChars cs).any fun d => drops cs d x.1).map (·.2) = "\nint y; double z;".toList := by
  decide +kernel

end DeviceForge.Directive
