import DeviceForge.Proofs.Directive.Marks
/-!
# What is left of a text

Resolving takes pieces out of a text: definitions and inclusions first, then the heads and the untaken
branches of conditional blocks.
-/

namespace DeviceForge.Directive

open Segment List Text Token Lexeme

variable {cs out pre post : List Char} {d close : Directive} {b : OpenBlock} {ds done : List Directive}
  {defined : List String} {span : Nat × Nat}

/-! ## Directives in a tidy text -/

structure Found (cs pre post : List Char) (d : Directive) : Prop where
  mark : MarkAt cs pre post
  apart : ∀ as bs, marked cs = as ++ bs → as.length = pre.length → ¬EndsMarked as
  kind_eq : d.kind = (read post).1
  stands : Stands d pre ('#' :: post.take (read post).2)

lemma exists_found (h : d ∈ ofChars cs) : ∃ pre post, Found cs pre post d := by
  rw [ofChars_eq] at h
  have hcovered : Covered 0 [] (marked cs) := by
    intro as tabs tabs' ms' hnil
    simp at hnil
  obtain ⟨as, bs, hms, hends, hkind, hstart, hstop⟩ := exists_of_mem_found (reaches_zero _) hcovered h
  have hcs : cs = as.map (·.1) ++ '#' :: bs.map (·.1) := by rw [← map_fst_marked cs, hms, map_append, map_cons]
  refine ⟨as.map (·.1), bs.map (·.1), ⟨hcs, ?_⟩, ?_, hkind, ?_, ?_⟩
  · rw [hms, length_map, getElem?_append_right (Nat.le_refl _), Nat.sub_self, getElem?_cons_zero]
  · intro as' bs' hms' hlen
    obtain ⟨rfl, -⟩ := append_inj (hms'.symm.trans hms) (by rw [hlen, length_map])
    exact hends
  · rw [hstart, Nat.zero_add]
  · rw [hstop, hstart, Nat.zero_add, byteLength_append]

section Parts
variable {cs pre post pre' post' : List Char} {d e : Directive}

lemma exists_append_of_byteLength_le {as bs as' bs' : List Char} (h : as ++ bs = as' ++ bs')
    (hle : byteLength as ≤ byteLength as') : ∃ gap, as' = as ++ gap := by
  rcases append_eq_append_iff.1 h with ⟨gap, rfl, -⟩ | ⟨gap, rfl, -⟩
  · exact ⟨gap, rfl⟩
  · rw [byteLength_append] at hle
    by_cases hne : gap = []
    · exact ⟨[], by rw [hne, append_nil, append_nil]⟩
    · have := byteLength_pos hne
      omega

lemma Found.gap {as gap : List Char} (he : Found (as ++ (gap ++ '#' :: post')) (as ++ gap) post' e) (hblank : EndsBlank (as ++ gap))
    (h : Between as (gap ++ '#' :: post')) : Token.Rests gap ∧ ¬EndsMarked (marked gap) := by
  have hrests := ((markAt_append_iff h).1 he.mark).rests hblank.of_append
  obtain ⟨ms, hms, hlen⟩ := h.marked_suffix
  rw [hrests.marked_append, ← append_assoc ms] at hms
  refine ⟨hrests, fun ⟨bs, tabs, hgap, htabs⟩ => he.apart _ _ hms (by simp [hlen]) ?_⟩
  exact ⟨ms ++ bs, tabs, by rw [hgap, append_assoc], htabs⟩

variable (htidy : Tidy cs) (hd : Found cs pre post d) (hdshort : d.kind.isShort)

include htidy hd hdshort

lemma Found.standsApart : StandsApart pre post :=
  htidy pre post hd.mark (hd.kind_eq ▸ hdshort)

lemma Found.rests : Token.Rests pre :=
  hd.mark.rests (hd.standsApart htidy hdshort).blank

lemma Found.not_endsMarked : ¬EndsMarked (marked pre) := by
  have hcs := congrArg marked hd.mark.1
  rw [(hd.rests htidy hdshort).marked_append] at hcs
  exact hd.apart _ _ hcs (by simp)

lemma Found.tidy : Tidy ('#' :: post) := by
  rw [hd.mark.1] at htidy
  exact htidy.suffix ((Found.rests (hd.mark.1 ▸ htidy) hd hdshort).between _)

lemma Found.remains_behind : Remains ('#' :: post) (post.drop (read post).2) := by
  have hpost : '#' :: post = ('#' :: post.take (read post).2) ++ post.drop (read post).2 := by simp
  have h := hd.tidy htidy hdshort
  rw [hpost] at h ⊢
  exact remains_suffix h (hd.standsApart htidy hdshort).whole

lemma Found.splice {rest : List Char} (h : Remains ('#' :: post) rest) : Remains cs (pre ++ rest) := by
  have hcs := hd.mark.1
  have := h.splice (hcs ▸ htidy) (hd.rests htidy hdshort) (hd.not_endsMarked htidy hdshort)
  rwa [← hcs] at this

lemma Found.next (he : Found cs pre' post' e) (heshort : e.kind.isShort) (hle : d.stop ≤ e.start) :
    ∃ gap, pre' = pre ++ ('#' :: post.take (read post).2) ++ gap ∧ post.drop (read post).2 = gap ++ '#' :: post' ∧
      Token.Rests gap ∧ ¬EndsMarked (marked gap) := by
  have hcs : pre ++ ('#' :: post.take (read post).2) ++ post.drop (read post).2 = pre' ++ '#' :: post' := by
    rw [← he.mark.1, hd.mark.1]
    simp
  rw [hd.stands.stop_eq, he.stands.start_eq] at hle
  obtain ⟨gap, rfl⟩ := exists_append_of_byteLength_le hcs hle
  rw [append_assoc _ gap, append_cancel_left_eq] at hcs
  have hbetween : Between (pre ++ ('#' :: post.take (read post).2)) (gap ++ '#' :: post') := by
    rw [← hcs]
    exact ((hd.rests htidy hdshort).between _).append (hd.standsApart htidy hdshort).whole
  have hwhole : cs = (pre ++ ('#' :: post.take (read post).2)) ++ (gap ++ '#' :: post') := by
    rw [he.mark.1, append_assoc _ gap]
  have he' := he
  rw [hwhole] at he'
  exact ⟨gap, rfl, hcs, he'.gap (he.standsApart htidy heshort).blank hbetween⟩

end Parts

/-! ## Taking a block out -/

structure Block (ds : List Directive) (b : OpenBlock) (close : Directive) : Prop where
  head_mem : b.head ∈ ds
  head_short : b.head.kind.isShort = true
  close_mem : close ∈ ds
  close_kind : close.kind = .endIf
  before : Before b.head close
  otherwise : ∀ d ∈ b.otherwise, d ∈ ds ∧ d.kind = .otherwise ∧ Before b.head d ∧ Before d close

lemma Block.remains (htidy : Tidy cs) (h : Block (ofChars cs) b close) (taken : Bool) :
    Remains cs (b.resolve cs close taken) := by
  have hclose : close.kind.isShort := by rw [h.close_kind]; rfl
  obtain ⟨pre, post, hhead⟩ := exists_found h.head_mem
  obtain ⟨pre', post', hend⟩ := exists_found h.close_mem
  have hbehind := hhead.remains_behind htidy h.head_short
  have hbehind' := hend.remains_behind htidy hclose
  have hparts : '#' :: post' = ('#' :: post'.take (read post').2) ++ post'.drop (read post').2 := by simp
  cases hb : b.otherwise with
  | none =>
    obtain ⟨gap, rfl, hpost, hrests, hends⟩ := hhead.next htidy h.head_short hend hclose (h.before.2 h.head_short)
    rw [hpost] at hbehind
    have hcs := hend.mark.1
    rw [hparts, ← append_assoc] at hcs
    have hresolve : b.resolve (_ ++ post'.drop (read post').2) close taken = _ := resolve_block hb hhead.stands hend.stands taken
    rw [← hcs] at hresolve
    rw [hresolve, append_assoc]
    refine hhead.splice htidy h.head_short (hbehind.trans ?_)
    cases taken with
    | true => exact hbehind'.splice hbehind.tidy hrests hends
    | false => exact (remains_suffix hbehind.tidy (hrests.between _)).trans hbehind'
  | some d =>
    obtain ⟨hmem, hkind, hbefore, hbefore'⟩ := h.otherwise d hb
    have hd : d.kind.isShort := by rw [hkind]; rfl
    obtain ⟨mid, rest, hmiddle⟩ := exists_found hmem
    obtain ⟨gap, rfl, hpost, hrests, hends⟩ := hhead.next htidy h.head_short hmiddle hd (hbefore.2 h.head_short)
    obtain ⟨gap', rfl, hrest, hrests', hends'⟩ := hmiddle.next htidy hd hend hclose (hbefore'.2 hd)
    have hbehindm := hmiddle.remains_behind htidy hd
    rw [hpost] at hbehind
    rw [hrest] at hbehindm
    have hcs := hend.mark.1
    rw [hparts, ← append_assoc] at hcs
    have hresolve : b.resolve (_ ++ post'.drop (read post').2) close taken = _ :=
      resolve_choice hb hhead.stands hmiddle.stands hend.stands taken
    rw [← hcs] at hresolve
    rw [hresolve, append_assoc]
    refine hhead.splice htidy h.head_short (hbehind.trans ?_)
    cases taken with
    | true =>
      have hskip := (remains_suffix hbehindm.tidy (hrests'.between _)).trans hbehind'
      exact (hbehindm.trans hskip).splice hbehind.tidy hrests hends
    | false =>
      have hskip := remains_suffix hbehind.tidy (hrests.between _)
      exact hskip.trans (hbehindm.trans (hbehind'.splice hbehindm.tidy hrests' hends'))

structure Opened (ds : List Directive) (b : OpenBlock) : Prop where
  head_mem : b.head ∈ ds
  otherwise : ∀ d ∈ b.otherwise, d ∈ ds ∧ d.kind = .otherwise ∧ Before b.head d

lemma Opened.append (h : Opened ds b) (ds' : List Directive) : Opened (ds ++ ds') b :=
  ⟨mem_append_left _ h.head_mem, fun d hd => (h.otherwise d hd).imp_left (mem_append_left _)⟩

lemma isShort_of_taken? {taken : Bool} (h : b.taken? defined = some taken) : b.head.kind.isShort := by
  unfold OpenBlock.taken? at h
  split at h
  · cases h
  · split at h
    · rename_i hk
      rw [hk]
      rfl
    · rename_i hk
      rw [hk]
      rfl
    · cases h

lemma resolveBlock?_eq_some {blocks : List OpenBlock} (hpairwise : (done ++ ds).Pairwise Before)
    (hblocks : ∀ b ∈ blocks, Opened done b) (h : resolveBlock? defined cs blocks ds = some out) :
    ∃ b close taken, Block (done ++ ds) b close ∧ out = b.resolve cs close taken := by
  induction ds generalizing done blocks with
  | nil => cases h
  | cons d ds ih =>
    -- every case but one goes on with the directive among those that are done
    have hnext {blocks' : List OpenBlock} (hblocks' : ∀ b ∈ blocks', Opened (done ++ [d]) b)
        (h : resolveBlock? defined cs blocks' ds = some out) :
        ∃ b close taken, Block (done ++ d :: ds) b close ∧ out = b.resolve cs close taken := by
      have := ih (by simpa using hpairwise) hblocks' h
      simpa using this
    have hbefore {e : Directive} (he : e ∈ done) : Before e d :=
      (pairwise_append.1 hpairwise).2.2 e he d mem_cons_self
    have hkeep : ∀ b ∈ blocks, Opened (done ++ [d]) b := fun b hb => (hblocks b hb).append [d]
    have hopen : ∀ b ∈ ⟨d, none, false⟩ :: blocks, Opened (done ++ [d]) b :=
      forall_mem_cons.2 ⟨⟨by simp, by simp⟩, hkeep⟩
    unfold resolveBlock? at h
    split at h
    · exact hnext hopen h
    · exact hnext hopen h
    · exact hnext hopen h
    · rw [forall_mem_cons] at hkeep
      refine hnext ?_ h
      exact forall_mem_cons.2 ⟨⟨hkeep.1.head_mem, hkeep.1.otherwise⟩, hkeep.2⟩
    · rename_i b outer hk
      rw [forall_mem_cons] at hkeep
      refine hnext ?_ h
      refine forall_mem_cons.2 ⟨⟨hkeep.1.head_mem, ?_⟩, hkeep.2⟩
      rintro e ⟨⟩
      exact ⟨by simp, hk, hbefore (hblocks b mem_cons_self).head_mem⟩
    · rename_i b outer hk
      have hb := hblocks b mem_cons_self
      split at h
      · rename_i taken htaken
        refine ⟨b, d, taken, ⟨mem_append_left _ hb.head_mem, isShort_of_taken? htaken, by simp, hk, hbefore hb.head_mem, ?_⟩,
          (Option.some.inj h).symm⟩
        intro e he
        obtain ⟨hmem, hkind, hlt⟩ := hb.otherwise e he
        exact ⟨mem_append_left _ hmem, hkind, hlt, hbefore hmem⟩
      · exact hnext (forall_mem_cons.1 hkeep).2 h
    · exact hnext hkeep h

lemma exists_block {next : List Char} (h : resolveBlock? defined cs [] (ofChars cs) = some next) :
    ∃ b close taken, Block (ofChars cs) b close ∧ next = b.resolve cs close taken := by
  have hpairwise : ([] ++ ofChars cs).Pairwise Before := by
    rw [nil_append, ofChars_eq]
    exact pairwise_found 0 0 _
  exact resolveBlock?_eq_some hpairwise (by simp) h

lemma remains_resolveBlocks (defined : List String) (htidy : Tidy cs) : Remains cs (resolveBlocks defined cs) := by
  have hround {cs next : List Char} (htidy : Tidy cs) (h : resolveBlock? defined cs [] (ofChars cs) = some next) : Remains cs next := by
    obtain ⟨b, close, taken, hblock, rfl⟩ := exists_block h
    exact hblock.remains htidy taken
  fun_induction resolveBlocks defined cs with
  | case1 cs h => exact ⟨htidy, Sublist.refl _⟩
  | case2 cs next h hlt ih => exact (hround htidy h).trans (ih (hround htidy h).tidy)
  | case3 cs next h hlt => exact hround htidy h

/-! ## Dropping definitions -/

/-- In an orderly text directives stand apart, and what is dropped with a definition or an inclusion starts
behind a blank, ends at the end of a token and shares nothing with what is dropped with another one. -/
structure Orderly (cs : List Char) : Prop where
  tidy : Tidy cs
  apart : ∀ d ∈ ofChars cs, ∀ start stop, d.dropped? cs = some (start, stop) →
    EndsBlank (Text.slice 0 start cs) ∧ Between (Text.slice start stop cs) (Text.after stop cs).2
  disjoint : ((ofChars cs).filterMap (dropped? cs)).Pairwise fun a b => a.2 ≤ b.1

instance (cs : List Char) : Decidable (Orderly cs) :=
  decidable_of_iff (Tidy cs ∧ (∀ d ∈ ofChars cs, ∀ span ∈ d.dropped? cs, EndsBlank (Text.slice 0 span.1 cs) ∧
      Between (Text.slice span.1 span.2 cs) (Text.after span.2 cs).2) ∧
      ((ofChars cs).filterMap (dropped? cs)).Pairwise fun a b => a.2 ≤ b.1)
    ⟨fun ⟨tidy, apart, disjoint⟩ => ⟨tidy, fun d hd start stop h => apart d hd (start, stop) h, disjoint⟩,
      fun h => ⟨h.tidy, fun d hd span hspan => h.apart d hd span.1 span.2 hspan, h.disjoint⟩⟩

structure Dropped (cs : List Char) (span : Nat × Nat) (pre mid post : List Char) : Prop where
  found : ∃ d, Found cs pre (mid ++ post) d
  start_eq : span.1 = byteLength pre
  stop_eq : span.2 = byteLength (pre ++ '#' :: mid)
  blank : EndsBlank pre
  whole : Between ('#' :: mid) post

lemma byteLength_lineBreaks (cs : List Char) : byteLength (cs.takeWhile isLineBreak) = (cs.takeWhile isLineBreak).length := by
  induction cs with
  | nil => rfl
  | cons c cs ih =>
    by_cases hc : isLineBreak c
    · have hsize : c.utf8Size = 1 := by
        simp only [isLineBreak, Bool.or_eq_true, decide_eq_true_eq] at hc
        rcases hc with rfl | rfl <;> rfl
      rw [takeWhile_cons_of_pos hc, byteLength_cons, ih, hsize, length_cons, Nat.add_comm]
    · rw [takeWhile_cons_of_neg hc]
      rfl

lemma exists_breaks (hcs : cs = pre ++ '#' :: post) (hstands : Stands d pre ('#' :: post.take (read post).2))
    (h : d.dropped? cs = some span) :
    ∃ breaks rest, post.drop (read post).2 = breaks ++ rest ∧ (∀ c ∈ breaks, isLineBreak c) ∧
      span = (byteLength pre, byteLength (pre ++ '#' :: (post.take (read post).2 ++ breaks))) := by
  unfold dropped? at h
  split at h
  · obtain rfl := Option.some.inj h
    exact ⟨[], _, rfl, by simp, by rw [hstands.start_eq, hstands.stop_eq, append_nil]⟩
  · obtain rfl := Option.some.inj h
    have hafter : (Text.after d.stop cs).2 = post.drop (read post).2 := by
      have : cs = pre ++ '#' :: post.take (read post).2 ++ post.drop (read post).2 := by
        rw [hcs]
        simp
      rw [this, hstands.stop_eq, after_append]
    refine ⟨_, _, (takeWhile_append_dropWhile (p := isLineBreak)).symm, fun c hc => mem_takeWhile_imp hc, ?_⟩
    rw [hafter, ← byteLength_lineBreaks, hstands.start_eq, hstands.stop_eq, ← byteLength_append, append_assoc, cons_append]
  · cases h

lemma exists_append_of_dropped? (hd : d ∈ ofChars cs) (h : d.dropped? cs = some span) :
    ∃ pre mid post, Found cs pre (mid ++ post) d ∧ span.1 = byteLength pre ∧ span.2 = byteLength (pre ++ '#' :: mid) := by
  obtain ⟨pre, post, hfound⟩ := exists_found hd
  obtain ⟨breaks, rest, hpost, -, rfl⟩ := exists_breaks hfound.mark.1 hfound.stands h
  refine ⟨pre, post.take (read post).2 ++ breaks, rest, ?_, rfl, rfl⟩
  rwa [append_assoc, ← hpost, take_append_drop]

lemma Orderly.exists_dropped (h : Orderly cs) (hspan : span ∈ (ofChars cs).filterMap (dropped? cs)) :
    ∃ pre mid post, Dropped cs span pre mid post := by
  obtain ⟨d, hd, hdrop⟩ := mem_filterMap.1 hspan
  obtain ⟨pre, mid, post, hfound, hstart, hstop⟩ := exists_append_of_dropped? hd hdrop
  obtain ⟨hblank, hwhole⟩ := h.apart d hd span.1 span.2 hdrop
  have hcs : cs = pre ++ '#' :: mid ++ post := by
    rw [hfound.mark.1]
    simp
  have hpre : slice 0 span.1 cs = pre := by rw [hstart, hcs, append_assoc, slice_zero]
  have hmid : slice span.1 span.2 cs = '#' :: mid := by rw [hstart, hstop, hcs, byteLength_append, slice_append]
  have hpost : (Text.after span.2 cs).2 = post := by rw [hstop, hcs, after_append]
  exact ⟨pre, mid, post, ⟨d, hfound⟩, hstart, hstop, hpre ▸ hblank, by rwa [hmid, hpost] at hwhole⟩

lemma remains_foldr_cut {spans : List (Nat × Nat)} (hcs : cs = pre ++ post) (htidy : Tidy cs)
    (hbetween : Between pre post) (hdropped : ∀ span ∈ spans, ∃ pre mid post, Dropped cs span pre mid post)
    (hle : ∀ span ∈ spans, byteLength pre ≤ span.1) (hdisjoint : spans.Pairwise fun a b => a.2 ≤ b.1) :
    ∃ post', spans.foldr (fun span text => cut span.1 span.2 text) cs = pre ++ post' ∧ Remains post post' := by
  induction spans generalizing pre post with
  | nil => exact ⟨post, hcs, (hcs ▸ htidy).suffix hbetween, Sublist.refl _⟩
  | cons span spans ih =>
    rw [forall_mem_cons] at hdropped hle
    rw [pairwise_cons] at hdisjoint
    obtain ⟨⟨pre', mid, rest, hdrop⟩, hdropped⟩ := hdropped
    obtain ⟨d, hfound⟩ := hdrop.found
    have hle' := hle.1
    rw [hdrop.start_eq] at hle'
    obtain ⟨gap, rfl⟩ := exists_append_of_byteLength_le (hcs.symm.trans hfound.mark.1) hle'
    have hpost : post = gap ++ '#' :: (mid ++ rest) := by
      have := hcs.symm.trans hfound.mark.1
      rwa [append_assoc, append_cancel_left_eq] at this
    subst hpost
    have hgap : Token.Rests gap ∧ ¬EndsMarked (marked gap) := (hcs ▸ hfound).gap hdrop.blank hbetween
    -- the other spans are dropped from what follows this one
    have hbetween' : Between (pre ++ gap ++ '#' :: mid) rest :=
      (hbetween.append (hgap.1.between _)).append (by simpa using hdrop.whole)
    have hcs' : cs = pre ++ gap ++ '#' :: mid ++ rest := by
      rw [hcs]
      simp
    obtain ⟨rest', hfold, hremains⟩ := ih hcs' hbetween' hdropped (fun s hs => hdrop.stop_eq ▸ hdisjoint.1 s hs) hdisjoint.2
    have htidy' : Tidy (gap ++ '#' :: (mid ++ rest)) := (hcs ▸ htidy).suffix hbetween
    have hbehind : Remains ('#' :: (mid ++ rest)) rest' :=
      (remains_suffix (htidy'.suffix (hgap.1.between _)) hdrop.whole).trans hremains
    refine ⟨gap ++ rest', ?_, hbehind.splice htidy' hgap.1 hgap.2⟩
    rw [foldr_cons, hfold, hdrop.start_eq, hdrop.stop_eq, byteLength_append (pre ++ gap), cut_append, append_assoc]

lemma dropDefinitions_eq (cs : List Char) :
    dropDefinitions cs = ((ofChars cs).filterMap (dropped? cs)).foldr (fun span text => cut span.1 span.2 text) cs := by
  rw [dropDefinitions, foldr_filterMap]
  congr 1
  funext d text
  cases d.dropped? cs <;> rfl

lemma Orderly.remains_dropDefinitions (h : Orderly cs) : Remains cs (dropDefinitions cs) := by
  obtain ⟨cs', heq, hremains⟩ := remains_foldr_cut (nil_append cs).symm h.tidy (between_nil cs) (fun _ => h.exists_dropped)
    (fun _ _ => Nat.zero_le _) h.disjoint
  rw [dropDefinitions_eq, heq]
  exact hremains

/-- Resolving an orderly text makes no tokens: the tokens of code that are left are tokens of code of the
text, in their order. -/
theorem resolve_sublist (defined : List String) (s : String) (h : Orderly s.toList) :
    (Code.shapes (resolve defined s)).Sublist (Code.shapes s) := by
  have hdrop := h.remains_dropDefinitions
  have hall := hdrop.trans (remains_resolveBlocks defined hdrop.tidy)
  rw [Code.shapes_eq, Code.shapes_eq, resolve, String.toList_ofList]
  exact hall.sublist.filter _

/-- An inclusion, a definition in the branch that is left out, and a comment behind the test of a symbol. -/
theorem resolve_sublist_nested :
    Orderly "#include <a>\n#ifdef X // x\nf(1);\n# else\n#define Y 2\ng();\n#endif\n".toList ∧
      (Code.shapes (resolve ["X"] "#include <a>\n#ifdef X // x\nf(1);\n# else\n#define Y 2\ng();\n#endif\n")).Sublist
        (Code.shapes "#include <a>\n#ifdef X // x\nf(1);\n# else\n#define Y 2\ng();\n#endif\n") := by
  have h : Orderly "#include <a>\n#ifdef X // x\nf(1);\n# else\n#define Y 2\ng();\n#endif\n".toList := by decide +kernel
  exact ⟨h, resolve_sublist ["X"] _ h⟩

/-- A definition ends with its line even if a comment on it goes on, and then the rest of the comment is left
as code. -/
theorem not_sublist_comment_tail :
    ¬(Code.shapes (resolve [] "#define X /* a\n b */ c\n")).Sublist (Code.shapes "#define X /* a\n b */ c\n") := by
  decide +kernel

end DeviceForge.Directive
