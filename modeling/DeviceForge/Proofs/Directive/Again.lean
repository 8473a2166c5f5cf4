import DeviceForge.Proofs.Directive.Walk
/-!
# Resolving again

What is left of an orderly text has nothing left to resolve (`resolve_resolve`).
-/

namespace DeviceForge.Directive

open Segment Text Token List Lexeme

variable {bs cs rest pre post breaks : List Char} {skip pos : Nat} {before after ds : List Directive}
  {d e : Directive} {as ms : List (Char × Segment.Kind)} {span : Nat × Nat}

/-! ## Heads that end before other directives -/

structure PassedHead (cs : List Char) (pos : Nat) (before : List Directive) (d : Directive) (after : List Directive)
    (gap head rest : List Char) : Prop where
  text : cs = gap ++ head ++ rest
  start_eq : d.start = pos + Text.byteLength gap
  stop_eq : d.stop = pos + Text.byteLength (gap ++ head)
  head_ne : head ≠ []
  settled : Sealed gap (before.map (·.kind))
  tidy : Tidy rest
  after_eq : after = found d.stop 0 (Segment.marked rest)
  kinds_eq : kinds cs = before.map (·.kind) ++ d.kind :: kinds rest

lemma marked_behind {as : List Char} (h : Between ('#' :: as) bs) :
    ∃ ms, Segment.marked (as ++ bs) = ms ++ Segment.marked bs ∧ ms.map (·.1) = as := by
  obtain ⟨ms, hms, hlen⟩ := h.marked_suffix
  have hcode : (Segment.extent '#' (as ++ bs)).1 = .code := rfl
  rw [cons_append, marked_code hcode] at hms
  cases ms with
  | nil => simp at hlen
  | cons p ms =>
    have hms : marked (as ++ bs) = ms ++ marked bs := (cons.inj hms).2
    refine ⟨ms, hms, ?_⟩
    have := congrArg (map (·.1)) hms
    rw [map_fst_marked, map_append, map_fst_marked] at this
    exact (append_cancel_right this).symm

lemma found_behind {as : List Char} (h : Between ('#' :: as) bs) (hmark : '#' ∉ as) (pos : Nat)
    (hskip : skip ≤ as.length) : found pos skip (marked (as ++ bs)) = found (pos + byteLength as) 0 (marked bs) := by
  obtain ⟨ms, hms, rfl⟩ := marked_behind h
  have hunmarked : ∀ p ∈ ms, p.2 = .code → p.1 ≠ '#' := by
    rintro p hp - heq
    exact hmark (heq ▸ mem_map_of_mem hp)
  rw [hms, found_unmarked hunmarked pos (by simpa using hskip)]

lemma definition_le (escaped : Bool) (cs : List Char) : definition escaped cs ≤ cs.length := by
  fun_induction definition escaped cs <;> simp_all <;> omega

lemma read_le (cs : List Char) : (read cs).2 ≤ cs.length := by
  obtain ⟨pad, word, rest, hcs, -, -, -, -, hread⟩ := exists_read cs
  have hlen : cs.length = pad.length + word.toList.length + rest.length := by simp [hcs, Nat.add_assoc]
  have htake (p : Char → Bool) (cs : List Char) : (cs.takeWhile p).length ≤ cs.length := (List.takeWhile_prefix p).length_le
  have hline : line rest ≤ rest.length := htake _ _
  have hsymbol := htake isWordChar (rest.drop (rest.takeWhile isBlank).length)
  have hblank := htake isBlank rest
  have hdefinition := definition_le false rest
  rw [length_drop] at hsymbol
  rw [hread, hlen]
  generalize pad.length + word.toList.length = n
  unfold readWord
  dsimp only
  split <;> simp only <;> omega

lemma exists_passed (htidy : Tidy cs) (h : found pos 0 (marked cs) = before ++ d :: after)
    (hshort : d.kind.isShort) : ∃ gap head rest, PassedHead cs pos before d after gap head rest := by
  obtain ⟨gap, post, hsplit⟩ := exists_split htidy h
  have happ := htidy gap post hsplit.mark (hsplit.kind_eq ▸ hshort)
  obtain ⟨hrests, hsealed⟩ := hsplit.settled happ.blank
  have hcs : cs = gap ++ ('#' :: post.take (read post).2) ++ post.drop (read post).2 := by
    rw [hsplit.mark.1]
    simp
  have hafter : after = found d.stop 0 (marked (post.drop (read post).2)) := by
    have hmark : '#' ∉ post.take (read post).2 := by
      rcases read_reaches post with ⟨-, hmark⟩ | ⟨hlong, -⟩
      · exact hmark
      · simp [hsplit.kind_eq, hlong] at hshort
    have hskip : (read post).2 ≤ (post.take (read post).2).length := by
      rw [length_take]
      exact Nat.le_min.2 ⟨Nat.le_refl _, read_le post⟩
    have := found_behind happ.whole hmark (d.start + 1) hskip
    rw [take_append_drop] at this
    rw [hsplit.after_eq, this, hsplit.stop_eq, byteLength_cons, ← Nat.add_assoc]
    rfl
  refine ⟨gap, '#' :: post.take (read post).2, post.drop (read post).2, ?_⟩
  refine ⟨hcs, hsplit.start_eq, ?_, by simp, hsealed, ?_, hafter, ?_⟩
  · rw [hsplit.stop_eq, hsplit.start_eq, byteLength_append, Nat.add_assoc]
  · rw [hcs] at htidy
    exact htidy.suffix ((hrests.between _).append happ.whole)
  · rw [kinds_eq cs pos, h, map_append, map_cons, hafter, ← kinds_eq]

def Shrinks (cs' cs : List Char) : Prop :=
  (kinds cs').Sublist (kinds cs) ∧ cs'.length ≤ cs.length

lemma Shrinks.refl (cs : List Char) : Shrinks cs cs :=
  ⟨Sublist.refl _, Nat.le_refl _⟩

lemma Shrinks.trans {as : List Char} (h : Shrinks as bs) (h' : Shrinks bs cs) : Shrinks as cs :=
  ⟨h.1.trans h'.1, Nat.le_trans h.2 h'.2⟩

section Heads

variable {cs pre gap head rest : List Char} {before after : List Directive} {d : Directive}
  (h : PassedHead cs (Text.byteLength pre) before d after gap head rest)
include h

lemma PassedHead.stands : Stands d (pre ++ gap) head := by
  refine ⟨?_, ?_⟩
  · rw [h.start_eq, byteLength_append]
  · rw [h.stop_eq, append_assoc, byteLength_append pre]

lemma PassedHead.shrinks_rest : Shrinks rest cs := by
  refine ⟨?_, ?_⟩
  · rw [h.kinds_eq]
    exact (sublist_cons_self _ _).trans (sublist_append_right _ _)
  · rw [h.text]
    simp only [length_append]
    omega

lemma PassedHead.shrinks {rest' : List Char} (hrest : Shrinks rest' rest) : Shrinks (gap ++ rest') cs ∧ (gap ++ rest').length < cs.length := by
  have hlen : (gap ++ rest').length < cs.length := by
    have := length_pos_iff.2 h.head_ne
    have := hrest.2
    rw [h.text]
    simp only [length_append]
    omega
  refine ⟨⟨?_, Nat.le_of_lt hlen⟩, hlen⟩
  rw [h.settled, h.kinds_eq]
  exact (Sublist.refl _).append (hrest.1.trans (sublist_cons_self _ _))

end Heads

/-! ## Blocks -/

lemma mem_behind (hds : ds = before ++ d :: after) (hpairwise : ds.Pairwise Before) (he : e ∈ ds)
    (hbefore : Before d e) : e ∈ after := by
  subst hds
  rcases mem_append.1 he with he | he
  · have := (pairwise_append.1 hpairwise).2.2 e he d mem_cons_self
    exact absurd this.1 (Nat.lt_asymm hbefore.1)
  · rcases mem_cons.1 he with rfl | he
    · exact absurd hbefore.1 (Nat.lt_irrefl _)
    · exact he

lemma Block.shrinks (htidy : Tidy cs) {b : OpenBlock} {close : Directive} (h : Block (ofChars cs) b close) (taken : Bool) :
    Shrinks (b.resolve cs close taken) cs ∧ (b.resolve cs close taken).length < cs.length := by
  have hclose : close.kind.isShort := by rw [h.close_kind]; rfl
  have hpairwise : (ofChars cs).Pairwise Before := by
    rw [ofChars_eq]
    exact pairwise_found 0 0 _
  obtain ⟨before, after, hds⟩ := append_of_mem h.head_mem
  have hpairwise' : after.Pairwise Before := by
    rw [hds] at hpairwise
    exact (pairwise_cons.1 (pairwise_append.1 hpairwise).2.1).2
  obtain ⟨pre, opening, rest, hhead⟩ : ∃ pre opening rest, PassedHead cs (byteLength []) before b.head after pre opening rest :=
    exists_passed htidy (by rw [← hds, ofChars_eq]; rfl) h.head_short
  have hopening : Stands b.head pre opening := hhead.stands
  have hafter := hhead.after_eq
  rw [hopening.stop_eq] at hafter
  have htext := hhead.text
  have hmem := mem_behind hds hpairwise h.close_mem h.before
  cases hb : b.otherwise with
  | none =>
    obtain ⟨between, after', hafter'⟩ := append_of_mem hmem
    obtain ⟨first, closing, post, hend⟩ := exists_passed hhead.tidy (hafter.symm.trans hafter') hclose
    rw [hend.text, ← append_assoc, ← append_assoc] at htext
    have hresolve : b.resolve (_ ++ post) close taken = _ := resolve_block hb hopening hend.stands taken
    rw [← htext, append_assoc] at hresolve
    rw [hresolve]
    refine hhead.shrinks ?_
    cases taken with
    | true => exact (hend.shrinks (Shrinks.refl post)).1
    | false => exact hend.shrinks_rest
  | some d =>
    obtain ⟨hmem', hkind, hbefore, hbefore'⟩ := h.otherwise d hb
    have hd : d.kind.isShort := by rw [hkind]; rfl
    obtain ⟨between, after', hafter'⟩ := append_of_mem (mem_behind hds hpairwise hmem' hbefore)
    obtain ⟨first, middle, rest', hmiddle⟩ := exists_passed hhead.tidy (hafter.symm.trans hafter') hd
    have hmiddle' := hmiddle.after_eq
    rw [hmiddle.stands.stop_eq] at hmiddle'
    obtain ⟨between', after'', hafter''⟩ := append_of_mem (mem_behind hafter' hpairwise' hmem hbefore')
    obtain ⟨second, closing, post, hend⟩ := exists_passed hmiddle.tidy (hmiddle'.symm.trans hafter'') hclose
    rw [hmiddle.text, hend.text] at htext
    simp only [← append_assoc] at htext
    have hresolve : b.resolve (_ ++ post) close taken = _ := resolve_choice hb hopening hmiddle.stands hend.stands taken
    rw [← htext, append_assoc] at hresolve
    rw [hresolve]
    refine hhead.shrinks ?_
    cases taken with
    | true => exact (hmiddle.shrinks hend.shrinks_rest).1
    | false => exact (hend.shrinks (Shrinks.refl post)).1.trans hmiddle.shrinks_rest

lemma resolveBlocks_again (defined : List String) (htidy : Tidy cs) :
    Shrinks (resolveBlocks defined cs) cs ∧ resolveBlocks defined (resolveBlocks defined cs) = resolveBlocks defined cs := by
  fun_induction resolveBlocks defined cs with
  | case1 cs h =>
    refine ⟨Shrinks.refl cs, ?_⟩
    rw [resolveBlocks, h]
  | case2 cs next h hlt ih =>
    obtain ⟨b, close, taken, hblock, rfl⟩ := exists_block h
    obtain ⟨hshrinks, hagain⟩ := ih (hblock.remains htidy taken).tidy
    exact ⟨hshrinks.trans (hblock.shrinks htidy taken).1, hagain⟩
  | case3 cs next h hlt =>
    obtain ⟨b, close, taken, hblock, rfl⟩ := exists_block h
    exact absurd (hblock.shrinks htidy taken).2 hlt

/-! ## Definitions -/

def Kind.isDropped : Kind → Bool
  | define | inclusion => true
  | _ => false

lemma dropped?_eq_none_iff (cs : List Char) (d : Directive) : d.dropped? cs = none ↔ d.kind.isDropped = false := by
  unfold dropped?
  split <;> simp_all [Kind.isDropped]

lemma not_break_of_read (hlong : (read cs).1.isShort = false) (hdefine : (read cs).1 ≠ .define) :
    ∀ c ∈ cs.take (read cs).2, isLineBreak c = false := by
  obtain ⟨pad, word, rest, rfl, hpad, -, hword, -, hread⟩ := exists_read cs
  have hline : (readWord (pad.length + word.toList.length) word rest).2 = pad.length + word.toList.length + line rest := by
    rw [hread] at hlong hdefine
    revert hlong hdefine
    unfold readWord
    dsimp only
    split <;> simp [Kind.isShort]
  intro c hc
  rw [hread, hline, ← append_assoc, ← length_append, take_length_add_append, mem_append, mem_append] at hc
  rcases hc with (hc | hc) | hc
  · have := hpad c hc
    simp only [isTab, Bool.or_eq_true, decide_eq_true_eq] at this
    rcases this with rfl | rfl <;> rfl
  · have := hword c hc
    by_contra hbreak
    simp only [isLineBreak, Bool.not_eq_false, Bool.or_eq_true, decide_eq_true_eq] at hbreak
    rcases hbreak with rfl | rfl <;> cases this
  · rw [line, take_length_takeWhile] at hc
    simpa using mem_takeWhile_imp hc

lemma read_le_of_breaksOff {as : List Char} (hrest : Lexeme.BreaksOff rest)
    (hlong : (read (as ++ rest)).1.isShort = false) (hdefine : (read (as ++ rest)).1 ≠ .define) :
    (read (as ++ rest)).2 ≤ as.length := by
  cases rest with
  | nil =>
    rw [append_nil]
    exact read_le as
  | cons c rest =>
    by_contra hlt
    have hmem : c ∈ (as ++ c :: rest).take (read (as ++ c :: rest)).2 := by
      obtain ⟨k, hk⟩ : ∃ k, (read (as ++ c :: rest)).2 = as.length + (k + 1) := ⟨(read (as ++ c :: rest)).2 - as.length - 1, by omega⟩
      rw [hk, take_length_add_append, take_succ_cons]
      simp
    have := not_break_of_read hlong hdefine c hmem
    simp [hrest c rfl] at this

lemma start_lt_of_mem_walk (h : d ∈ (walk pos skip rest as).1) : d.start < pos + byteLength (as.map (·.1)) := by
  induction as generalizing pos skip with
  | nil => cases h
  | cons p as ih =>
    obtain ⟨c, kind⟩ := p
    have hbehind {skip' : Nat} (h : d ∈ (walk (pos + c.utf8Size) skip' rest as).1) :
        d.start < pos + byteLength (((c, kind) :: as).map (·.1)) := by
      rw [map_cons, byteLength_cons, ← Nat.add_assoc]
      exact ih h
    rcases walk_cases c kind skip (as.map (·.1) ++ rest).head? with hcode | ⟨rfl, hpos | ⟨rfl, hc⟩ | ⟨rfl, rfl, hc⟩⟩
    · rw [walk_literal _ _ _ _ _ hcode] at h
      exact hbehind h
    · obtain ⟨skip, rfl⟩ : ∃ n, skip = n + 1 := ⟨skip - 1, by omega⟩
      rw [walk_skip] at h
      exact hbehind h
    · rw [walk_other _ _ _ _ hc] at h
      exact hbehind h
    · rw [walk_mark _ _ _ hc] at h
      rcases mem_cons.1 h with rfl | h
      · have := byteLength_pos (cons_ne_nil '#' (as.map (·.1)))
        simp only [map_cons]
        omega
      · exact hbehind h

lemma walk_line (hrest : Lexeme.BreaksOff rest) (hskip : skip ≤ as.length ∨ '#' ∉ (as.map (·.1) ++ rest).take skip)
    (hdefine : ∀ e ∈ (walk pos skip rest as).1, e.kind ≠ .define) : '#' ∉ rest.take (walk pos skip rest as).2 := by
  induction as generalizing pos skip with
  | nil =>
    rcases hskip with hskip | hskip
    · rw [Nat.le_zero.1 hskip]
      simp [walk]
    · exact hskip
  | cons p as ih =>
    obtain ⟨c, kind⟩ := p
    rcases walk_cases c kind skip (as.map (·.1) ++ rest).head? with hcode | ⟨rfl, hpos | ⟨rfl, hc⟩ | ⟨rfl, rfl, hc⟩⟩
    · rw [walk_literal _ _ _ _ _ hcode] at hdefine ⊢
      exact ih (.inl (Nat.zero_le _)) hdefine
    · obtain ⟨skip, rfl⟩ : ∃ n, skip = n + 1 := ⟨skip - 1, by omega⟩
      rw [walk_skip] at hdefine ⊢
      refine ih (hskip.imp Nat.le_of_succ_le_succ fun hmark => ?_) hdefine
      rw [map_cons, cons_append, take_succ_cons, mem_cons, not_or] at hmark
      exact hmark.2
    · rw [walk_other _ _ _ _ hc] at hdefine ⊢
      exact ih (.inl (Nat.zero_le _)) hdefine
    · rw [walk_mark _ _ _ hc] at hdefine ⊢
      rw [forall_mem_cons] at hdefine
      refine ih ?_ hdefine.2
      rcases read_reaches (as.map (·.1) ++ rest) with ⟨-, hmark⟩ | ⟨hlong, -⟩
      · exact .inr hmark
      · have := read_le_of_breaksOff hrest hlong hdefine.1
        exact .inl (by simpa using this)

lemma found_unreached (h : '#' ∉ (ms.map (·.1)).take skip) (pos : Nat) : found pos skip ms = found pos 0 ms := by
  induction ms generalizing pos skip with
  | nil => rw [found_nil, found_nil]
  | cons p ms ih =>
    obtain ⟨c, kind⟩ := p
    cases skip with
    | zero => rfl
    | succ skip =>
      rw [map_cons, take_succ_cons, mem_cons, not_or] at h
      by_cases hcode : kind = .code
      · subst hcode
        rw [found_skip, found_other _ _ _ (.inl (Ne.symm h.1)), ih h.2]
      · rw [found_literal _ _ _ _ hcode, found_literal _ _ _ _ hcode]

lemma breaksOff_of_dropped? (hkind : d.kind = (read post).1) (h : d.dropped? cs = some span) :
    Lexeme.BreaksOff (post.drop (read post).2) := by
  have hdropped : (read post).1.isDropped := by
    by_contra hnot
    simp [← hkind, Bool.not_eq_true, ← dropped?_eq_none_iff cs, h] at hnot
  rcases read_reaches post with ⟨hshort, -⟩ | ⟨-, hlong⟩
  · cases hk : (read post).1 <;> simp_all [Kind.isShort, Kind.isDropped]
  · exact hlong

lemma found_dropped (hpost : post.drop (read post).2 = breaks ++ rest)
    (hbreaks : ∀ c ∈ breaks, isLineBreak c) (hends : Lexeme.BreaksOff (breaks ++ rest))
    (hwhole : Between ('#' :: (post.take (read post).2 ++ breaks)) rest) (pos : Nat)
    (hdefine : ∀ e ∈ found pos (read post).2 (marked post), e.start < pos + byteLength (post.take (read post).2 ++ breaks) → e.kind ≠ .define) :
    ∃ inner, found pos (read post).2 (marked post) =
        inner ++ found (pos + byteLength (post.take (read post).2 ++ breaks)) 0 (marked rest) ∧
      ∀ e ∈ inner, e.start < pos + byteLength (post.take (read post).2 ++ breaks) := by
  obtain ⟨ms, hms, hchars⟩ := marked_behind hwhole
  obtain ⟨as, bs, rfl, has, hbs⟩ := map_eq_append_iff.1 hchars
  have hmarked : marked post = as ++ (bs ++ marked rest) := by
    rw [append_assoc, ← hpost, take_append_drop, append_assoc] at hms
    exact hms
  have hrest : (bs ++ marked rest).map (·.1) = breaks ++ rest := by rw [map_append, hbs, map_fst_marked]
  have hlen : (read post).2 ≤ as.length := by
    have := congrArg length has
    rw [length_map, length_take, Nat.min_eq_left (read_le post)] at this
    exact Nat.le_of_eq this.symm
  have hfound := found_append pos (read post).2 as (bs ++ marked rest)
  rw [← hmarked, hrest, has] at hfound
  have hstart : ∀ e ∈ (walk pos (read post).2 (breaks ++ rest) as).1, e.start < pos + byteLength (post.take (read post).2 ++ breaks) := by
    intro e he
    have := start_lt_of_mem_walk he
    rw [has] at this
    rw [byteLength_append]
    omega
  refine ⟨(walk pos (read post).2 (breaks ++ rest) as).1, ?_, hstart⟩
  have hreach := walk_line hends (.inl hlen) fun e he => hdefine e (by rw [hfound]; exact mem_append_left _ he) (hstart e he)
  have hunmarked : ∀ p ∈ bs, p.2 = .code → p.1 ≠ '#' := by
    rintro p hp - heq
    exact absurd (hbreaks p.1 (hbs ▸ mem_map_of_mem hp)) (by rw [heq]; decide)
  rw [hfound, found_unreached (by rwa [hrest]), found_unmarked hunmarked _ (Nat.zero_le _), hbs, byteLength_append, Nat.add_assoc]

lemma start_of_dropped? (h : d.dropped? cs = some span) : span.1 = d.start := by
  unfold dropped? at h
  split at h
  · obtain rfl := Option.some.inj h
    rfl
  · obtain rfl := Option.some.inj h
    rfl
  · cases h

structure DroppedAt (cs pre : List Char) (before after : List Directive) (gap mid rest : List Char) : Prop where
  text : cs = pre ++ gap ++ '#' :: mid ++ rest
  settled : Sealed gap (before.map (·.kind))
  between : Between (pre ++ gap ++ '#' :: mid) rest
  scanned : (∀ e ∈ after, e.start < Text.byteLength (pre ++ gap ++ '#' :: mid) → e.kind ≠ .define) →
    ∃ inner, after = inner ++ found (Text.byteLength (pre ++ gap ++ '#' :: mid)) 0 (Segment.marked rest) ∧
      ∀ e ∈ inner, e.start < Text.byteLength (pre ++ gap ++ '#' :: mid)

lemma Orderly.exists_droppedAt (h : Orderly cs) (hcs : cs = pre ++ post) (hbetween : Between pre post)
    (hfound : found (byteLength pre) 0 (marked post) = before ++ d :: after)
    (hd : d ∈ ofChars cs) (hdropped : d.dropped? cs = some span) :
    ∃ gap mid rest, DroppedAt cs pre before after gap mid rest ∧
      span = (byteLength (pre ++ gap), byteLength (pre ++ gap ++ '#' :: mid)) := by
  obtain ⟨gap, line, hsplit⟩ := exists_split ((hcs ▸ h.tidy).suffix hbetween) hfound
  have hcs' : cs = (pre ++ gap) ++ '#' :: line := by rw [hcs, hsplit.mark.1, append_assoc]
  have hstart : d.start = byteLength (pre ++ gap) := by rw [hsplit.start_eq, byteLength_append]
  have hstop : d.stop = byteLength (pre ++ gap ++ '#' :: line.take (read line).2) := by
    rw [hsplit.stop_eq, hstart, byteLength_append (pre ++ gap)]
  obtain ⟨breaks, rest, hrest, hbreaks, rfl⟩ := exists_breaks hcs' ⟨hstart, hstop⟩ hdropped
  have hends := breaksOff_of_dropped? hsplit.kind_eq hdropped
  rw [hrest] at hends
  have hbehind := found_dropped hrest hbreaks hends
  have hline : line = (line.take (read line).2 ++ breaks) ++ rest := by rw [append_assoc, ← hrest, take_append_drop]
  generalize line.take (read line).2 ++ breaks = mid at hline hbehind hdropped ⊢
  have hwhole : cs = pre ++ gap ++ '#' :: mid ++ rest := by rw [append_assoc _ ('#' :: _), cons_append, ← hline, hcs']
  obtain ⟨hblank, hmiddle⟩ := h.apart d hd _ _ hdropped
  have hpre : slice 0 (byteLength (pre ++ gap)) cs = pre ++ gap := by rw [hcs', slice_zero]
  have hend : d.start + 1 + byteLength mid = byteLength (pre ++ gap ++ '#' :: mid) := by
    rw [hstart, byteLength_append (pre ++ gap), byteLength_cons, ← Nat.add_assoc]
    rfl
  have hmid : slice (byteLength (pre ++ gap)) (byteLength (pre ++ gap ++ '#' :: mid)) cs = '#' :: mid := by
    rw [hwhole, byteLength_append (pre ++ gap), slice_append]
  have hpost : (Text.after (Text.byteLength (pre ++ gap ++ '#' :: mid)) cs).2 = rest := by rw [hwhole, after_append]
  rw [hpre] at hblank
  rw [hmid, hpost] at hmiddle
  obtain ⟨hrests, hsealed⟩ := hsplit.settled hblank.of_append
  refine ⟨gap, mid, rest, ?_, rfl⟩
  refine ⟨hwhole, hsealed, ?_, fun hdefine => ?_⟩
  · refine Between.append (Between.append ?_ (hrests.between _)) hmiddle
    rwa [cons_append, ← hline, ← hsplit.mark.1]
  · rw [← hend, hsplit.after_eq] at hdefine ⊢
    exact hbehind hmiddle (d.start + 1) hdefine

lemma kinds_foldr_cut {spans : List (Nat × Nat)} (horderly : Orderly cs) (hcs : cs = pre ++ post)
    (hbetween : Between pre post) (hfound : ∃ done, ofChars cs = done ++ found (byteLength pre) 0 (marked post))
    (hspans : (found (byteLength pre) 0 (marked post)).filterMap (dropped? cs) = spans) :
    ∃ post', spans.foldr (fun span text => cut span.1 span.2 text) cs = pre ++ post' ∧ ∀ k ∈ kinds post', k.isDropped = false := by
  induction spans generalizing pre post with
  | nil =>
    refine ⟨post, hcs, fun k hk => ?_⟩
    rw [kinds_eq post (byteLength pre)] at hk
    obtain ⟨d, hd, rfl⟩ := mem_map.1 hk
    exact (dropped?_eq_none_iff cs d).1 (filterMap_eq_nil_iff.1 hspans d hd)
  | cons span spans ih =>
    obtain ⟨before, d, after, hsplit, hbefore, hdropped, hafter⟩ := filterMap_eq_cons_iff.1 hspans
    obtain ⟨done, hdone⟩ := hfound
    obtain ⟨gap, mid, rest, h, rfl⟩ := horderly.exists_droppedAt hcs hbetween hsplit (by rw [hdone, hsplit]; simp) hdropped
    -- what is dropped with another directive starts behind this
    have hapart : ∀ e ∈ after, e.start < byteLength (pre ++ gap ++ '#' :: mid) → e.dropped? cs = none := by
      intro e he hlt
      by_contra hne
      obtain ⟨span, hspan⟩ := Option.ne_none_iff_exists'.1 hne
      have hdisjoint := horderly.disjoint
      rw [hdone, filterMap_append, hspans, pairwise_append, pairwise_cons] at hdisjoint
      have hle := hdisjoint.2.1.1 span (hafter ▸ mem_filterMap.2 ⟨e, he, hspan⟩)
      rw [start_of_dropped? hspan] at hle
      exact absurd hlt (Nat.not_lt.2 hle)
    obtain ⟨inner, hscan, hstarts⟩ := h.scanned fun e he hlt hkind => by
      have := (dropped?_eq_none_iff cs e).1 (hapart e he hlt)
      rw [hkind] at this
      cases this
    have hinner : inner.filterMap (dropped? cs) = [] :=
      filterMap_eq_nil_iff.2 fun e he => hapart e (by rw [hscan]; exact mem_append_left _ he) (hstarts e he)
    rw [hscan, filterMap_append, hinner, nil_append] at hafter
    have hdone' : ofChars cs = (done ++ before ++ d :: inner) ++ found (byteLength (pre ++ gap ++ '#' :: mid)) 0 (marked rest) := by
      rw [hdone, hsplit, hscan]
      simp
    obtain ⟨rest', hfold, hkinds⟩ := ih h.text h.between ⟨_, hdone'⟩ hafter
    refine ⟨gap ++ rest', ?_, ?_⟩
    · rw [foldr_cons, hfold, byteLength_append (pre ++ gap), cut_append, append_assoc]
    · rw [h.settled]
      intro k hk
      rcases mem_append.1 hk with hk | hk
      · obtain ⟨e, he, rfl⟩ := mem_map.1 hk
        exact (dropped?_eq_none_iff cs e).1 (hbefore e he)
      · exact hkinds k hk

lemma Orderly.kinds_dropDefinitions (h : Orderly cs) : ∀ k ∈ kinds (dropDefinitions cs), k.isDropped = false := by
  have hfound : ofChars cs = found (byteLength []) 0 (marked cs) := ofChars_eq cs
  obtain ⟨cs', heq, hkinds⟩ := kinds_foldr_cut h (nil_append cs).symm (between_nil cs) ⟨[], hfound⟩ rfl
  rw [dropDefinitions_eq, hfound, heq]
  exact hkinds

lemma dropDefinitions_of_kinds (h : ∀ k ∈ kinds cs, k.isDropped = false) : dropDefinitions cs = cs := by
  have hnone : (ofChars cs).filterMap (dropped? cs) = [] :=
    filterMap_eq_nil_iff.2 fun d hd => (dropped?_eq_none_iff cs d).2 (h d.kind (mem_map_of_mem hd))
  rw [dropDefinitions_eq, hnone, foldr_nil]

/-- Resolving what is left of an orderly text changes nothing. -/
theorem resolve_resolve (defined : List String) (s : String) (h : Orderly s.toList) : resolve defined (resolve defined s) = resolve defined s := by
  have htidy := h.remains_dropDefinitions.tidy
  obtain ⟨hshrinks, hagain⟩ := resolveBlocks_again defined htidy
  have hdrop := dropDefinitions_of_kinds fun k hk => h.kinds_dropDefinitions k (hshrinks.1.subset hk)
  rw [resolve, resolve, String.toList_ofList, hdrop, hagain]

/-- A definition in a branch, an inclusion behind it and a block in a block. -/
theorem resolve_resolve_nested :
    Orderly "#ifdef X\n#define A 1\n#include <a>\n#ifndef Y\nf();\n#endif\n#else\ng();\n#endif\n".toList ∧
      resolve ["X"] (resolve ["X"] "#ifdef X\n#define A 1\n#include <a>\n#ifndef Y\nf();\n#endif\n#else\ng();\n#endif\n") =
        resolve ["X"] "#ifdef X\n#define A 1\n#include <a>\n#ifndef Y\nf();\n#endif\n#else\ng();\n#endif\n" := by
  have h : Orderly "#ifdef X\n#define A 1\n#include <a>\n#ifndef Y\nf();\n#endif\n#else\ng();\n#endif\n".toList := by decide +kernel
  exact ⟨h, resolve_resolve ["X"] _ h⟩

/-- A definition ends with its line even if a comment on it goes on. What the rest of the comment holds is no comment then,
and a definition in it is dropped when the text is resolved again. -/
theorem not_resolve_resolve_comment_tail :
    resolve [] (resolve [] "#define A /* one\n#define B two */\n") ≠ resolve [] "#define A /* one\n#define B two */\n" := by
  decide +kernel

end DeviceForge.Directive
