import DeviceForge.Proofs.Directive.Remainder
/-!
# Scanning for directives piece by piece

The scan for directives carries a number from character to character: how many of the next ones belong to the last
directive.
-/

namespace DeviceForge.Directive

open Segment Text List Lexeme

variable {pos skip n m m' skip' : Nat} {ms as bs : List (Char × Segment.Kind)}
  {before after ds : List Directive} {d : Directive} {c z : Char} {cs tail more b r r' : List Char}

/-! ## The scan over a part -/

/-- The directives that are found among characters before `rest`, and how many characters of the rest belong to the last
one. -/
def walk (pos skip : Nat) (rest : List Char) : List (Char × Segment.Kind) → List Directive × Nat
  | [] => ([], skip)
  | (c, kind) :: as =>
    if kind ≠ .code then walk (pos + c.utf8Size) 0 rest as
    else
      match skip with
      | skip + 1 => walk (pos + c.utf8Size) skip rest as
      | 0 =>
        let cs := as.map (·.1) ++ rest
        if c = '#' ∧ cs.head? ≠ some '#' then
          let next := walk (pos + 1) (read cs).2 rest as
          (⟨(read cs).1, pos, pos + 1 + byteLength (cs.take (read cs).2)⟩ :: next.1, next.2)
        else walk (pos + c.utf8Size) 0 rest as

section Steps
variable (pos skip : Nat) (rest : List Char) (c : Char) (as : List (Char × Segment.Kind))

lemma walk_literal {kind : Segment.Kind} (h : kind ≠ .code) : walk pos skip rest ((c, kind) :: as) = walk (pos + c.utf8Size) 0 rest as := by
  cases skip <;> simp [walk, h]

lemma walk_skip : walk pos (skip + 1) rest ((c, .code) :: as) = walk (pos + c.utf8Size) skip rest as := by
  simp [walk]

lemma walk_other (h : c ≠ '#' ∨ (as.map (·.1) ++ rest).head? = some '#') :
    walk pos 0 rest ((c, .code) :: as) = walk (pos + c.utf8Size) 0 rest as := by
  have hmark : ¬(c = '#' ∧ (as.map (·.1) ++ rest).head? ≠ some '#') := fun hc => h.elim (· hc.1) hc.2
  rw [walk, if_neg (by simp)]
  exact if_neg hmark

lemma walk_mark (h : (as.map (·.1) ++ rest).head? ≠ some '#') : walk pos 0 rest (('#', .code) :: as) =
      (⟨(read (as.map (·.1) ++ rest)).1, pos,
          pos + 1 + byteLength ((as.map (·.1) ++ rest).take (read (as.map (·.1) ++ rest)).2)⟩ ::
        (walk (pos + 1) (read (as.map (·.1) ++ rest)).2 rest as).1, (walk (pos + 1) (read (as.map (·.1) ++ rest)).2 rest as).2) := by
  rw [walk, if_neg (by simp)]
  exact if_pos ⟨rfl, h⟩

end Steps

lemma walk_cases (c : Char) (kind : Segment.Kind) (skip : Nat) (next : Option Char) :
    kind ≠ .code ∨ kind = .code ∧ (0 < skip ∨ skip = 0 ∧ (c ≠ '#' ∨ next = some '#') ∨ skip = 0 ∧ c = '#' ∧ next ≠ some '#') := by
  by_cases hcode : kind = .code
  · refine .inr ⟨hcode, ?_⟩
    rcases Nat.eq_zero_or_pos skip with hskip | hskip
    · by_cases hc : c = '#'
      · by_cases hnext : next = some '#'
        · exact .inr (.inl ⟨hskip, .inr hnext⟩)
        · exact .inr (.inr ⟨hskip, hc, hnext⟩)
      · exact .inr (.inl ⟨hskip, .inl hc⟩)
    · exact .inl hskip
  · exact .inl hcode

lemma found_append (pos skip : Nat) (as bs : List (Char × Segment.Kind)) :
    found pos skip (as ++ bs) = (walk pos skip (bs.map (·.1)) as).1 ++
      found (pos + byteLength (as.map (·.1))) (walk pos skip (bs.map (·.1)) as).2 bs := by
  induction as generalizing pos skip with
  | nil => simp [walk]
  | cons p as ih =>
    obtain ⟨c, kind⟩ := p
    have hmap : (as ++ bs).map (·.1) = as.map (·.1) ++ bs.map (·.1) := map_append
    rw [cons_append, map_cons, byteLength_cons, ← Nat.add_assoc]
    rcases walk_cases c kind skip ((as ++ bs).map (·.1)).head? with hcode | ⟨rfl, hskip | ⟨rfl, hc⟩ | ⟨rfl, rfl, hc⟩⟩
    · rw [found_literal _ _ _ _ hcode, walk_literal _ _ _ _ _ hcode, ih]
    · obtain ⟨skip, rfl⟩ := Nat.exists_eq_add_of_lt hskip
      rw [Nat.zero_add, found_skip, walk_skip, ih]
    · rw [found_other _ _ _ hc, walk_other _ _ _ _ (hmap ▸ hc), ih]
    · rw [found_mark _ _ hc, walk_mark _ _ _ (hmap ▸ hc), ih, hmap, cons_append]
      rfl

/-- The directive `d` is read at a mark, behind those `before` it. -/
def FoundAt (pos skip : Nat) (before : List Directive) (d : Directive) (after : List Directive) (ms : List (Char × Segment.Kind)) : Prop :=
  ∃ as bs, ms = as ++ ('#', .code) :: bs ∧ (bs.map (·.1)).head? ≠ some '#' ∧
    walk pos skip ('#' :: bs.map (·.1)) as = (before, 0) ∧ d.kind = (read (bs.map (·.1))).1 ∧
    d.start = pos + byteLength (as.map (·.1)) ∧
    d.stop = d.start + byteLength ('#' :: (bs.map (·.1)).take (read (bs.map (·.1))).2) ∧
    after = found (d.start + 1) (read (bs.map (·.1))).2 bs

lemma found_split (h : found pos skip ms = before ++ d :: after) : FoundAt pos skip before d after ms := by
  induction ms generalizing pos skip before with
  | nil => simp [found_nil] at h
  | cons p ms ih =>
    obtain ⟨c, kind⟩ := p
    -- a directive behind the first character is one behind the rest
    have hrest {skip' : Nat} {before' : List Directive} (h' : found (pos + c.utf8Size) skip' ms = before' ++ d :: after)
        (hwalk : ∀ as bs, ms = as ++ ('#', .code) :: bs → walk (pos + c.utf8Size) skip' ('#' :: bs.map (·.1)) as = (before', 0) →
          walk pos skip ('#' :: bs.map (·.1)) ((c, kind) :: as) = (before, 0)) :
        FoundAt pos skip before d after ((c, kind) :: ms) := by
      obtain ⟨as, bs, hms, hhead, hw, hkind, hstart, hstop, hafter⟩ := ih h'
      refine ⟨(c, kind) :: as, bs, by rw [hms, cons_append], hhead, hwalk as bs hms hw, hkind, ?_, hstop, hafter⟩
      rw [hstart, map_cons, byteLength_cons, Nat.add_assoc]
    have hchars {as bs : List (Char × Segment.Kind)} (hms : ms = as ++ ('#', .code) :: bs) :
        as.map (·.1) ++ '#' :: bs.map (·.1) = ms.map (·.1) := by
      rw [hms, map_append, map_cons]
    rcases walk_cases c kind skip (ms.map (·.1)).head? with hcode | ⟨rfl, hskip | ⟨rfl, hc⟩ | ⟨rfl, rfl, hc⟩⟩
    · rw [found_literal _ _ _ _ hcode] at h
      exact hrest h fun as bs _ hw => by rw [walk_literal _ _ _ _ _ hcode, hw]
    · obtain ⟨skip, rfl⟩ := Nat.exists_eq_add_of_lt hskip
      rw [Nat.zero_add, found_skip] at h
      exact hrest h fun as bs _ hw => by rw [Nat.zero_add, walk_skip, hw]
    · rw [found_other _ _ _ hc] at h
      exact hrest h fun as bs hms hw => by rw [walk_other _ _ _ _ (by rwa [hchars hms]), hw]
    · rw [found_mark _ _ hc] at h
      cases before with
      | nil =>
        obtain ⟨rfl, rfl⟩ := cons.inj h
        exact ⟨[], ms, rfl, hc, rfl, rfl, rfl, by rw [byteLength_cons, ← Nat.add_assoc]; rfl, rfl⟩
      | cons e before =>
        obtain ⟨rfl, hbehind⟩ := cons.inj h
        refine hrest hbehind fun as bs hms hw => ?_
        have hw : walk (pos + 1) (read (ms.map (·.1))).2 ('#' :: bs.map (·.1)) as = (before, 0) := hw
        rw [walk_mark _ _ _ (by rwa [hchars hms]), hchars hms, hw]

/-! ## Heads before other texts -/

def Alike (n m m' : Nat) : Prop :=
  m = m' ∨ n < m ∧ n ≤ m'

lemma Alike.add (h : Alike n m m') (k : Nat) : Alike (k + n) (k + m) (k + m') := by
  unfold Alike at *
  omega

lemma line_alike (tail more rest : List Char) :
    Alike tail.length (line (tail ++ '#' :: more)) (line (tail ++ rest)) := by
  by_cases h : ∀ c ∈ tail, isLineBreak c = false
  · have hpass (cs : List Char) : line (tail ++ cs) = tail.length + line cs := by
      rw [line, takeWhile_append_of_pos (fun c hc => by simp [h c hc]), length_append, line]
    have hmark : line ('#' :: more) = line more + 1 := by simp [line, isLineBreak]
    refine .inr ?_
    rw [hpass, hpass, hmark]
    omega
  · simp only [not_forall, Bool.not_eq_false] at h
    obtain ⟨c, hc, hbreak⟩ := h
    refine .inl ?_
    rw [line, line, takeWhile_append_of_mem hc (by simp [hbreak]), takeWhile_append_of_mem hc (by simp [hbreak])]

lemma definition_cons (h : ¬(c = '\r' ∧ cs.head? = some '\n')) (escaped : Bool) :
    definition escaped (c :: cs) = if isLineBreak c then if escaped then 1 + definition false cs else 0
      else 1 + definition (c = '\\' || (escaped && isTab c)) cs := by
  rw [definition]
  rintro cs' rfl rfl
  exact h ⟨rfl, rfl⟩

lemma definition_mark (escaped : Bool) (more : List Char) : 0 < definition escaped ('#' :: more) := by
  rw [definition_cons (by simp), if_neg (by decide)]
  omega

lemma definition_return (escaped : Bool) (cs : List Char) :
    if escaped then 1 ≤ definition escaped ('\r' :: cs) else definition escaped ('\r' :: cs) = 0 := by
  by_cases h : cs.head? = some '\n'
  · obtain ⟨cs, rfl⟩ := head?_eq_some_iff.1 h
    cases escaped <;> simp [definition]
    omega
  · rw [definition_cons (by simp [h])]
    cases escaped <;> simp [isLineBreak]

lemma definition_alike (tail more rest : List Char) (escaped : Bool) :
    Alike tail.length (definition escaped (tail ++ '#' :: more)) (definition escaped (tail ++ rest)) := by
  induction hn : tail.length using Nat.strong_induction_on generalizing tail escaped with
  | _ n ih =>
    subst hn
    cases tail with
    | nil => exact .inr ⟨definition_mark escaped more, Nat.zero_le _⟩
    | cons c tail =>
      have hstep (escaped : Bool) : Alike (tail.length + 1) (1 + definition escaped (tail ++ '#' :: more)) (1 + definition escaped (tail ++ rest)) := by
        rw [Nat.add_comm tail.length]
        exact (ih tail.length (by simp) tail escaped rfl).add 1
      -- a line break of two characters may lie across the end
      by_cases hnl : c = '\r' ∧ (tail = [] ∨ tail.head? = some '\n')
      · obtain ⟨rfl, rfl | htail⟩ := hnl
        · cases escaped with
          | false => exact .inl ((definition_return false _).trans (definition_return false _).symm)
          | true =>
            refine .inr ⟨?_, definition_return true rest⟩
            rw [cons_append, definition_cons (by simp), if_pos (by decide), if_pos rfl, nil_append]
            have := definition_mark false more
            simp only [length_cons, length_nil]
            omega
        · obtain ⟨tail, rfl⟩ := head?_eq_some_iff.1 htail
          simp only [cons_append, definition]
          cases escaped with
          | false => exact .inl rfl
          | true =>
            have := (ih tail.length (by rw [length_cons, length_cons]; omega) tail false rfl).add 2
            rwa [Nat.add_comm 2] at this
      · have hne (cs : List Char) : ¬(c = '\r' ∧ (tail ++ cs).head? = some '\n') := by
          rintro ⟨hc, hhead⟩
          refine hnl ⟨hc, ?_⟩
          cases tail with
          | nil => exact .inl rfl
          | cons d tail => exact .inr hhead
        rw [cons_append, cons_append, definition_cons (hne _), definition_cons (hne _)]
        split
        · split
          · exact hstep false
          · exact .inl rfl
        · exact hstep _

lemma readWord_alike (hz : tail.getLast? = some z) (hblank : isBlank z) (n : Nat)
    (word : String) (rest : List Char) (hnamed : (readWord n word (tail ++ '#' :: more)).1.isNamed) :
    (readWord n word (tail ++ rest)).1 = (readWord n word (tail ++ '#' :: more)).1 ∧
      Alike (n + tail.length) (readWord n word (tail ++ '#' :: more)).2 (readWord n word (tail ++ rest)).2 := by
  by_cases hshort : (readWord n word (tail ++ rest)).1.isShort
  · obtain ⟨heq, -⟩ := readWord_stable hz hblank n word hshort hnamed
    exact ⟨congrArg Prod.fst heq, .inl (congrArg Prod.snd heq).symm⟩
  · revert hshort
    unfold readWord
    split <;> intro hshort
    · exact absurd rfl hshort
    · exact absurd rfl hshort
    · exact ⟨rfl, (line_alike tail more rest).add n⟩
    · exact ⟨rfl, (line_alike tail more rest).add n⟩
    · exact absurd rfl hshort
    · exact absurd rfl hshort
    · exact ⟨rfl, (definition_alike tail more rest false).add n⟩
    · exact ⟨rfl, (line_alike tail more rest).add n⟩
    · exact ⟨rfl, (line_alike tail more rest).add n⟩

def ReadsAlike (r r' b : List Char) : Prop :=
  (read (b ++ r')).1 = (read (b ++ r)).1 ∧ Alike b.length (read (b ++ r)).2 (read (b ++ r')).2

lemma readsAlike_of_blank (hz : b.getLast? = some z) (hblank : isBlank z) (htabs : ¬Tabs b)
    (rest : List Char) (hnamed : (read (b ++ '#' :: more)).1.isNamed) : ReadsAlike ('#' :: more) rest b := by
  obtain ⟨n, word, tail, hlast, hlen, hread⟩ := exists_readWord hz hblank htabs
  rw [hread] at hnamed
  have := readWord_alike hlast hblank n word rest hnamed
  rw [hlen] at this
  rwa [ReadsAlike, hread, hread]

/-! ## Parts whose directives are settled -/

lemma walk_alike (halike : ∀ p b, as = p ++ ('#', .code) :: b → b ≠ [] ∧ ReadsAlike r r' (b.map (·.1)))
    (hskip : Alike as.length skip skip') (hzero : (walk pos skip r as).2 = 0) (pos' : Nat) :
    (walk pos' skip' r' as).1.map (·.kind) = (walk pos skip r as).1.map (·.kind) ∧ (walk pos' skip' r' as).2 = 0 := by
  induction as generalizing pos pos' skip skip' with
  | nil =>
    have hzero : skip = 0 := hzero
    refine ⟨rfl, ?_⟩
    rcases hskip with rfl | ⟨hlt, -⟩
    · exact hzero
    · simp at hlt
      omega
  | cons p as ih =>
    obtain ⟨c, kind⟩ := p
    have halike' : ∀ p b, as = p ++ ('#', .code) :: b → b ≠ [] ∧ ReadsAlike r r' (b.map (·.1)) := fun p b h =>
      halike ((c, kind) :: p) b (by rw [h, cons_append])
    by_cases hcode : kind = .code
    · subst hcode
      rcases hskip with rfl | ⟨hlt, hle⟩
      · cases skip with
        | succ skip =>
          rw [walk_skip] at hzero ⊢
          rw [walk_skip]
          exact ih halike' (.inl rfl) hzero _
        | zero =>
          have hhead (hc : c = '#') : (as.map (·.1) ++ r').head? = (as.map (·.1) ++ r).head? := by
            have hne := (halike [] as (by rw [hc, nil_append])).1
            rw [head?_append_of_ne_nil _ (by simpa using hne), head?_append_of_ne_nil _ (by simpa using hne)]
          by_cases hc : c = '#' ∧ (as.map (·.1) ++ r).head? ≠ some '#'
          · obtain ⟨rfl, hc⟩ := hc
            obtain ⟨-, hkind, hreach⟩ := halike [] as rfl
            rw [length_map] at hreach
            rw [walk_mark _ _ _ hc] at hzero ⊢
            rw [walk_mark _ _ _ (by rwa [hhead rfl])]
            obtain ⟨hkinds, hzero'⟩ := ih halike' hreach hzero (pos' + 1)
            exact ⟨by rw [map_cons, map_cons, hkinds, hkind], hzero'⟩
          · have hc (x : Option Char) (hx : c = '#' → x = (as.map (·.1) ++ r).head?) : c ≠ '#' ∨ x = some '#' := by
              by_cases h : c = '#'
              · exact .inr ((hx h).trans (not_not.1 fun hne => hc ⟨h, hne⟩))
              · exact .inl h
            rw [walk_other _ _ _ _ (hc _ fun _ => rfl)] at hzero ⊢
            rw [walk_other _ _ _ _ (hc _ hhead)]
            exact ih halike' (.inl rfl) hzero _
      · rw [length_cons] at hlt hle
        obtain ⟨skip, rfl⟩ : ∃ n, skip = n + 1 := ⟨skip - 1, by omega⟩
        obtain ⟨skip', rfl⟩ : ∃ n, skip' = n + 1 := ⟨skip' - 1, by omega⟩
        rw [walk_skip] at hzero ⊢
        rw [walk_skip]
        exact ih halike' (.inr ⟨by omega, by omega⟩) hzero _
    · rw [walk_literal _ _ _ _ _ hcode] at hzero ⊢
      rw [walk_literal _ _ _ _ _ hcode]
      exact ih halike' (.inl rfl) hzero _

lemma map_kind_found (pos pos' skip : Nat) (ms : List (Char × Segment.Kind)) :
    (found pos skip ms).map (·.kind) = (found pos' skip ms).map (·.kind) := by
  induction ms generalizing pos pos' skip with
  | nil => rw [found_nil, found_nil]
  | cons p ms ih =>
    obtain ⟨c, kind⟩ := p
    rcases walk_cases c kind skip (ms.map (·.1)).head? with hcode | ⟨rfl, hskip | ⟨rfl, hc⟩ | ⟨rfl, rfl, hc⟩⟩
    · rw [found_literal _ _ _ _ hcode, found_literal _ _ _ _ hcode]
      exact ih _ _ _
    · obtain ⟨skip, rfl⟩ := Nat.exists_eq_add_of_lt hskip
      rw [Nat.zero_add, found_skip, found_skip]
      exact ih _ _ _
    · rw [found_other _ _ _ hc, found_other _ _ _ hc]
      exact ih _ _ _
    · rw [found_mark _ _ hc, found_mark _ _ hc, map_cons, map_cons, ih (pos + 1) (pos' + 1)]

def kinds (cs : List Char) : List Kind :=
  (ofChars cs).map (·.kind)

lemma kinds_eq (cs : List Char) (pos : Nat) : kinds cs = (found pos 0 (marked cs)).map (·.kind) := by
  rw [kinds, ofChars_eq]
  exact map_kind_found _ _ _ _

def Sealed (cs : List Char) (ks : List Kind) : Prop :=
  ∀ rest, kinds (cs ++ rest) = ks ++ kinds rest

lemma sealed_of_walk (hrests : Token.Rests cs) (hends : ¬EndsMarked (marked cs))
    (htidy : Tidy (cs ++ '#' :: more)) (hwalk : walk pos 0 ('#' :: more) (marked cs) = (ds, 0)) :
    Sealed cs (ds.map (·.kind)) := by
  intro rest
  have halike : ∀ p b, marked cs = p ++ ('#', .code) :: b → b ≠ [] ∧ ReadsAlike ('#' :: more) rest (b.map (·.1)) := by
    intro p b hcs
    have hchars : cs = p.map (·.1) ++ '#' :: b.map (·.1) := by rw [← map_fst_marked cs, hcs, map_append, map_cons]
    have hcode : (marked cs)[(p.map (·.1)).length]? = some ('#', .code) := by
      rw [hcs, length_map, getElem?_append_right (Nat.le_refl _), Nat.sub_self, getElem?_cons_zero]
    have hlast := hrests.getLast?
    have hne : b ≠ [] := by
      rintro rfl
      exact absurd (hlast '#' (by simp [hchars])) (by decide)
    have hne' : b.map (·.1) ≠ [] := by simpa using hne
    have htabs : ¬Tabs (b.map (·.1)) := by
      intro htabs
      rw [hchars] at hcode hends
      exact hends (endsMarked_of_tabs hcode htabs hne')
    have hnamed : (read (b.map (·.1) ++ '#' :: more)).1.isNamed := by
      by_cases hshort : (read (b.map (·.1) ++ '#' :: more)).1.isShort
      · refine (htidy (p.map (·.1)) _ ⟨?_, ?_⟩ hshort).named
        · rw [hchars, append_assoc, cons_append]
        · rw [hrests.marked_append, getElem?_append_left (by rw [hcs]; simp), hcode]
      · cases hk : (read (b.map (·.1) ++ '#' :: more)).1 <;> simp_all [Kind.isShort, Kind.isNamed]
    obtain ⟨z, hz⟩ := Option.isSome_iff_exists.1 (getLast?_isSome.2 hne')
    refine ⟨hne, readsAlike_of_blank hz (hlast z ?_) htabs rest hnamed⟩
    rw [hchars, getLast?_append_of_ne_nil _ (cons_ne_nil _ _), getLast?_cons, hz]
    rfl
  obtain ⟨hkinds, hzero⟩ := walk_alike halike (.inl rfl) (congrArg Prod.snd hwalk) 0
  rw [kinds_eq _ 0, hrests.marked_append, found_append, map_fst_marked rest, hzero, map_append, hkinds, hwalk, ← kinds_eq]

structure Split (cs : List Char) (pos : Nat) (before : List Directive) (d : Directive) (after : List Directive)
    (gap post : List Char) : Prop where
  mark : MarkAt cs gap post
  next : post.head? ≠ some '#'
  kind_eq : d.kind = (read post).1
  start_eq : d.start = pos + byteLength gap
  stop_eq : d.stop = d.start + byteLength ('#' :: post.take (read post).2)
  after_eq : after = found (d.start + 1) (read post).2 (marked post)
  settled : EndsBlank gap → Token.Rests gap ∧ Sealed gap (before.map (·.kind))

lemma not_endsMarked_of_start (hms : marked cs = as ++ bs)
    (hd : d ∈ found pos 0 (marked cs)) (hstart : d.start = pos + byteLength (as.map (·.1))) : ¬EndsMarked as := by
  have hcovered : Covered 0 [] (marked cs) := by
    intro as tabs tabs' ms' hnil
    simp at hnil
  obtain ⟨as', bs', hms', hends, -, hstart', -⟩ := exists_of_mem_found (reaches_zero _) hcovered hd
  have hbytes : byteLength (as'.map (·.1)) = byteLength (as.map (·.1)) := by omega
  have hchars : as'.map (·.1) ++ (('#', Segment.Kind.code) :: bs').map (·.1) = as.map (·.1) ++ bs.map (·.1) := by
    rw [← map_append, ← map_append, ← hms', hms]
  obtain ⟨gap, hgap⟩ := exists_append_of_byteLength_le hchars (Nat.le_of_eq hbytes)
  have hnil : gap = [] := by
    by_contra hne
    have := byteLength_pos hne
    rw [hgap, byteLength_append] at hbytes
    omega
  have hlen : as'.length = as.length := by
    have := congrArg length hgap
    simpa [hnil] using this.symm
  rw [(append_inj (hms'.symm.trans hms) hlen).1] at hends
  exact hends

lemma exists_split (htidy : Tidy cs) (h : found pos 0 (marked cs) = before ++ d :: after) :
    ∃ gap post, Split cs pos before d after gap post := by
  obtain ⟨as, bs, hms, hhead, hwalk, hkind, hstart, hstop, hafter⟩ := found_split h
  have hcs : cs = as.map (·.1) ++ '#' :: bs.map (·.1) := by rw [← map_fst_marked cs, hms, map_append, map_cons]
  have hmark : MarkAt cs (as.map (·.1)) (bs.map (·.1)) := by
    refine ⟨hcs, ?_⟩
    rw [hms, length_map, getElem?_append_right (Nat.le_refl _), Nat.sub_self, getElem?_cons_zero]
  have hbs : bs = marked (bs.map (·.1)) := by
    have hcode := hmark.2
    rw [hcs] at hcode
    obtain ⟨ms, hms', hlen⟩ := marked_of_code hcode
    rw [← hcs, hms] at hms'
    exact (cons.inj (append_inj hms' (by rw [hlen, length_map])).2).2
  have hafter' : after = found (d.start + 1) (read (bs.map (·.1))).2 (marked (bs.map (·.1))) := by
    rw [← hbs]
    exact hafter
  refine ⟨as.map (·.1), bs.map (·.1), ?_⟩
  refine ⟨hmark, hhead, hkind, hstart, hstop, hafter', fun hblank => ?_⟩
  have hrests := hmark.rests hblank
  have has : as = marked (as.map (·.1)) := by
    have := hrests.marked_append ('#' :: bs.map (·.1))
    rw [← hcs, hms] at this
    exact (append_inj this (by simp)).1
  have hends : ¬EndsMarked (marked (as.map (·.1))) := by
    rw [← has]
    exact not_endsMarked_of_start hms (by rw [h]; simp) hstart
  have hwalk' : walk pos 0 ('#' :: bs.map (·.1)) (marked (as.map (·.1))) = (before, 0) := by
    rw [← has]
    exact hwalk
  rw [hcs] at htidy
  exact ⟨hrests, sealed_of_walk hrests hends htidy hwalk'⟩

end DeviceForge.Directive
