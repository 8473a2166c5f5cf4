import DeviceForge.Proofs.Segment.Bytes
/-!
# Matching brackets by tokens

`closing` counts brackets of one kind character by character in the segments of code behind an opening one.
-/

namespace DeviceForge.Segment

open Token List Text String Option

variable {b : Bracket} {t : Located} {low high level close close' n : Nat}
  {done ts as bs : List Located} {c d : Char} {rest ds cs pre post : List Char} {tail s : String}

/-- The token is the opening bracket of this kind. -/
def isOpener (b : Bracket) (t : Located) : Bool :=
  t.token.kind = .punct && t.token.text = b.opening.toString

def isCloser (b : Bracket) (t : Located) : Bool :=
  t.token.kind = .punct && t.token.text = b.closing.toString

def Exceeds (b : Bracket) (ts : List Located) : Prop :=
  ts.countP (isOpener b) < ts.countP (isCloser b)

instance (b : Bracket) (ts : List Located) : Decidable (Exceeds b ts) :=
  inferInstanceAs (Decidable (_ < _))

/-- Behind the tokens `done`, the first closing bracket among `ts` with which more are closed than opened
starts at the offset `close`. -/
def Closes (b : Bracket) (done ts : List Located) (close : Nat) : Prop :=
  ∃ before t after, ts = before ++ t :: after ∧ t.start = close ∧ isCloser b t = true ∧
    Exceeds b (done ++ before ++ [t]) ∧
    ∀ pre u post, before = pre ++ u :: post → isCloser b u = true → ¬Exceeds b (done ++ pre ++ [u])

/-! ## Counting among tokens -/

def closeAt (b : Bracket) : Nat → List Located → Option Nat
  | _, [] => none
  | level, t :: ts =>
    if isCloser b t then if level = 1 then some t.start else closeAt b (level - 1) ts
    else if isOpener b t then closeAt b (level + 1) ts
    else closeAt b level ts

lemma not_opener_of_closer (h : isCloser b t) : isOpener b t = false := by
  simp only [isCloser, isOpener, Bool.and_eq_true, decide_eq_true_eq, Bool.and_eq_false_iff,
    decide_eq_false_iff_not] at h ⊢
  rw [h.2]
  exact .inr (by cases b <;> decide)

def levelAfter (b : Bracket) (level : Nat) (t : Located) : Nat :=
  if isCloser b t then level - 1 else if isOpener b t then level + 1 else level

lemma closeAt_cons (b : Bracket) (level : Nat) (t : Located) (ts : List Located) : closeAt b level (t :: ts) =
      if isCloser b t ∧ level = 1 then some t.start else closeAt b (levelAfter b level t) ts := by
  rw [closeAt, levelAfter]
  by_cases hc : isCloser b t
  · by_cases hone : level = 1 <;> simp [hc, hone]
  · by_cases ho : isOpener b t = true <;> simp [hc, ho]

lemma levelAfter_lt (hlow : 0 < low) (hlt : low < high) (t : Located) : levelAfter b low t < levelAfter b high t := by
  unfold levelAfter
  split
  · omega
  · split <;> omega

lemma levelAfter_pos (hpos : 0 < level) (h : ¬(isCloser b t ∧ level = 1)) : 0 < levelAfter b level t := by
  unfold levelAfter
  split
  · rename_i hc
    have hone : level ≠ 1 := fun h1 => h ⟨hc, h1⟩
    omega
  · split <;> omega

lemma closes_cons (b : Bracket) (done : List Located) (t : Located) (ts : List Located) (close : Nat) :
    Closes b done (t :: ts) close ↔
      if isCloser b t ∧ Exceeds b (done ++ [t]) then t.start = close else Closes b (done ++ [t]) ts close := by
  split_ifs with h
  · constructor
    · rintro ⟨before, u, after, heq, hstart, -, -, hfirst⟩
      cases before with
      | nil =>
        obtain ⟨rfl, -⟩ := cons.inj heq
        exact hstart
      | cons v before =>
        obtain ⟨rfl, -⟩ := cons.inj heq
        exact absurd (by simpa using h.2) (hfirst [] t before rfl h.1)
    · intro hstart
      refine ⟨[], t, ts, rfl, hstart, h.1, by simpa using h.2, ?_⟩
      intro pre u post hnil
      exact absurd hnil.symm (by simp)
  · constructor
    · rintro ⟨before, u, after, heq, hstart, hu, hexceeds, hfirst⟩
      cases before with
      | nil =>
        obtain ⟨rfl, -⟩ := cons.inj heq
        exact absurd ⟨hu, by simpa using hexceeds⟩ h
      | cons v before =>
        obtain ⟨rfl, rfl⟩ := cons.inj heq
        refine ⟨before, u, after, rfl, hstart, hu, by simpa using hexceeds, ?_⟩
        rintro pre w post rfl hw
        simpa using hfirst (t :: pre) w post rfl hw
    · rintro ⟨before, u, after, rfl, hstart, hu, hexceeds, hfirst⟩
      refine ⟨t :: before, u, after, rfl, hstart, hu, by simpa using hexceeds, ?_⟩
      rintro pre w post heq hw
      cases pre with
      | nil =>
        obtain ⟨rfl, -⟩ := cons.inj heq
        exact fun hexceeds => h ⟨hw, by simpa using hexceeds⟩
      | cons v pre =>
        obtain ⟨rfl, rfl⟩ := cons.inj heq
        simpa using hfirst pre w post rfl hw

lemma levelAfter_add_countP (hpos : 0 < level)
    (hlevel : level + done.countP (isCloser b) = 1 + done.countP (isOpener b)) (t : Located) :
    levelAfter b level t + (done ++ [t]).countP (isCloser b) = 1 + (done ++ [t]).countP (isOpener b) := by
  rw [countP_append, countP_append, countP_singleton, countP_singleton, levelAfter]
  by_cases hc : isCloser b t
  · simp only [hc, not_opener_of_closer hc, if_true, Bool.false_eq_true, if_false]
    omega
  · by_cases ho : isOpener b t
    · simp only [hc, ho, if_true, Bool.false_eq_true, if_false]
      omega
    · simp only [hc, ho, Bool.false_eq_true, if_false]
      omega

lemma closeAt_eq_some_iff (hpos : 0 < level)
    (hlevel : level + done.countP (isCloser b) = 1 + done.countP (isOpener b)) :
    closeAt b level ts = some close ↔ Closes b done ts close := by
  induction ts generalizing level done with
  | nil => simp [closeAt, Closes]
  | cons t ts ih =>
    have hlevel' := levelAfter_add_countP hpos hlevel t
    -- a closing bracket exceeds the opened ones exactly if it closes the last open one
    have hlast (hc : isCloser b t) : Exceeds b (done ++ [t]) ↔ level = 1 := by
      rw [levelAfter, if_pos hc] at hlevel'
      unfold Exceeds
      omega
    have hclose := and_congr_right hlast
    rw [closes_cons, closeAt_cons]
    by_cases h : isCloser b t ∧ level = 1
    · rw [if_pos h, if_pos (hclose.2 h), some.injEq]
    · rw [if_neg h, if_neg (mt hclose.1 h)]
      exact ih (levelAfter_pos hpos h) hlevel'

lemma closeAt_one_iff : closeAt b 1 ts = some close ↔ Closes b [] ts close :=
  closeAt_eq_some_iff Nat.one_pos rfl

lemma mem_of_closeAt (h : closeAt b level ts = some close) : ∃ t ∈ ts, t.start = close := by
  induction ts generalizing level with
  | nil => simp [closeAt] at h
  | cons t ts ih =>
    rw [closeAt_cons] at h
    split at h
    · exact ⟨t, mem_cons_self, some.inj h⟩
    · obtain ⟨u, hu, hstart⟩ := ih h
      exact ⟨u, mem_cons_of_mem _ hu, hstart⟩

lemma closeAt_lt (hsorted : ts.Pairwise fun t u => t.start < u.start) (hlow : 0 < low) (hlt : low < high)
    (h : closeAt b high ts = some close) : ∃ close', closeAt b low ts = some close' ∧ close' < close := by
  induction ts generalizing low high with
  | nil => simp [closeAt] at h
  | cons t ts ih =>
    obtain ⟨hfirst, hsorted⟩ := pairwise_cons.1 hsorted
    rw [closeAt_cons, if_neg (by omega)] at h
    rw [closeAt_cons]
    by_cases hclose : isCloser b t ∧ low = 1
    · obtain ⟨u, hu, rfl⟩ := mem_of_closeAt h
      exact ⟨t.start, if_pos hclose, hfirst u hu⟩
    · rw [if_neg hclose]
      exact ih hsorted (levelAfter_pos hlow hclose) (levelAfter_lt hlow hlt t) h

lemma closeAt_append (hpos : 0 < level) (h : closeAt b level (as ++ bs) = some close) :
    closeAt b level as = some close ∨ ∃ level', 0 < level' ∧ closeAt b level' bs = some close := by
  induction as generalizing level with
  | nil => exact .inr ⟨level, hpos, h⟩
  | cons t as ih =>
    rw [cons_append, closeAt_cons] at h
    rw [closeAt_cons]
    by_cases hclose : isCloser b t ∧ level = 1
    · rw [if_pos hclose] at h ⊢
      exact .inl h
    · rw [if_neg hclose] at h ⊢
      exact ih (levelAfter_pos hpos hclose) h

lemma closeAt_nested (hsorted : (as ++ t :: bs).Pairwise fun t u => t.start < u.start)
    (ht : isOpener b t) (h : closeAt b 1 (as ++ t :: bs) = some close)
    (h' : closeAt b 1 bs = some close') : close < t.start ∨ close' < close := by
  obtain ⟨-, hbs, hcross⟩ := pairwise_append.1 hsorted
  rcases closeAt_append (by omega) h with h | ⟨level, hpos, h⟩
  · obtain ⟨u, hu, rfl⟩ := mem_of_closeAt h
    exact .inl (hcross u hu t mem_cons_self)
  · have hc : ¬isCloser b t := fun hc => by
      simp [not_opener_of_closer hc] at ht
    rw [closeAt, if_neg hc, if_pos ht] at h
    obtain ⟨close'', h'', hlt⟩ := closeAt_lt (pairwise_cons.1 hbs).2 Nat.one_pos (by omega) h
    rw [h'] at h''
    exact .inr (some.inj h'' ▸ hlt)

/-! ## Counting among characters -/

lemma isBracket_opening (b : Bracket) : isBracket b.opening := by cases b <;> decide

lemma isBracket_closing (b : Bracket) : isBracket b.closing := by cases b <;> decide

lemma ne_bracket_of_blank (hd : isBracket d) (h : isBlank c) : c ≠ d := by
  rintro rfl
  simp only [isBlank, Bool.or_eq_true, decide_eq_true_eq] at h
  rcases h with (((rfl | rfl) | rfl) | rfl) | rfl <;> revert hd <;> decide

lemma ne_bracket_of_inner (hd : isBracket d) (h : isInner c) : c ≠ d := by
  rintro rfl
  simp only [isBracket, mem_cons, not_mem_nil, or_false, decide_eq_true_eq] at hd
  rcases hd with rfl | rfl | rfl | rfl | rfl | rfl <;> revert h <;> decide

lemma bracket_iff {t : Token} (hext : Token.extent c rest = (t.kind, n))
    (htext : t.text.toList = c :: rest.take n) (hd : isBracket d) : t.kind = .punct ∧ t.text = d.toString ↔ c = d := by
  constructor
  · rintro ⟨-, hd⟩
    rw [hd, Char.toString, toList_singleton] at htext
    exact (cons.inj htext).1.symm
  · rintro rfl
    rw [extent_bracket hd] at hext
    obtain ⟨hkind, rfl⟩ := Prod.mk.inj hext
    refine ⟨hkind.symm, toList_injective ?_⟩
    rw [htext, Char.toString, toList_singleton, take_zero]

lemma closingIn_skip {xs : List (Char × Kind)}
    (h : ∀ x ∈ xs, x.2 = .code → x.1 ≠ b.closing ∧ x.1 ≠ b.opening) (ys : List (Char × Kind)) :
    closingIn b level (xs ++ ys) = (closingIn b level ys).map (· + xs.length) := by
  induction xs with
  | nil => simp
  | cons x xs ih =>
    obtain ⟨c, kind⟩ := x
    have hx := h (c, kind) mem_cons_self
    rw [cons_append, closingIn, if_neg fun hc => (hx hc.1).1 hc.2, if_neg fun hc => (hx hc.1).2 hc.2,
      ih fun x hx => h x (mem_cons_of_mem _ hx), Option.map_map]
    rfl

def closeOffset (b : Bracket) (level pos : Nat) (cs : List Char) : Option Nat :=
  (closingIn b level (marked cs)).map fun n => pos + byteLength (cs.take n)

lemma closeOffset_skip {k : Kind} (hm : marked (ds ++ cs) = ds.map (·, k) ++ marked cs)
    (hd : k = .code → ∀ d ∈ ds, d ≠ b.closing ∧ d ≠ b.opening) (level pos : Nat) :
    closeOffset b level pos (ds ++ cs) = closeOffset b level (pos + byteLength ds) cs := by
  have hskip : ∀ x ∈ ds.map (·, k), x.2 = .code → x.1 ≠ b.closing ∧ x.1 ≠ b.opening := by
    intro x hx hk
    obtain ⟨d, hd', rfl⟩ := List.mem_map.1 hx
    exact hd hk d hd'
  rw [closeOffset, hm, closingIn_skip hskip, Option.map_map, closeOffset, List.length_map]
  congr 1
  funext n
  rw [Function.comp_apply, Nat.add_comm n, take_length_add_append, byteLength_append, Nat.add_assoc]

lemma closeOffset_code (h : (extent c cs).1 = .code) (b : Bracket) (level pos : Nat) :
    closeOffset b level pos (c :: cs) =
      if c = b.closing then if level = 1 then some pos else closeOffset b (level - 1) (pos + c.utf8Size) cs
      else if c = b.opening then closeOffset b (level + 1) (pos + c.utf8Size) cs
      else closeOffset b level (pos + c.utf8Size) cs := by
  have hstep (x : Option Nat) : (x.map (· + 1)).map (fun n => pos + byteLength ((c :: cs).take n)) =
      x.map fun n => pos + c.utf8Size + byteLength (cs.take n) := by
    rw [Option.map_map]
    congr 1
    funext n
    rw [Function.comp_apply, take_succ_cons, byteLength_cons, Nat.add_assoc]
  simp only [closeOffset, marked_code h, closingIn, true_and]
  split
  · split
    · simp
    · exact hstep _
  · split
    · exact hstep _
    · exact hstep _

lemma closeOffset_eq (b : Bracket) (level pos line : Nat) {ts : List Token} (h : scan cs = (ts, tail)) :
    closeOffset b level pos cs = closeAt b level (locate pos line ts) := by
  have hblank {ds : List Char} (h : ∀ d ∈ ds, isBlank d) :
      ∀ d ∈ ds, d ≠ b.closing ∧ d ≠ b.opening := fun d hd =>
    ⟨ne_bracket_of_blank (isBracket_closing b) (h d hd), ne_bracket_of_blank (isBracket_opening b) (h d hd)⟩
  induction ts generalizing level pos line cs with
  | nil =>
    obtain ⟨-, hcs⟩ := scan_nil h
    have hskip := closeOffset_skip (marked_plain (fun d hd => plain_of_blank (hcs d hd)) []) (fun _ => hblank hcs) level pos
    rw [append_nil] at hskip
    rw [hskip]
    simp [closeOffset, marked, ofChars, closingIn, locate, closeAt]
  | cons t ts ih =>
    obtain ⟨c, rest, n, hext, rfl, htext, hlead, -, hscan⟩ := scan_cons h
    have hsize : byteLength (c :: rest.take n) = t.text.utf8ByteSize := by rw [← htext, byteLength_toList]
    rw [closeOffset_skip (marked_plain (fun d hd => plain_of_blank (hlead d hd)) _) fun _ => hblank hlead,
      byteLength_toList, locate, closeAt]
    rcases extent_cases hext with ⟨hlit, hseg⟩ | ⟨-, hstart, hinner⟩
    · have hpunct : t.kind ≠ .punct := fun hk => hlit (by rw [hk]; rfl)
      have hmarked : marked ((c :: rest.take n) ++ rest.drop n) =
          (c :: rest.take n).map (·, t.kind.segment) ++ marked (rest.drop n) := by
        rw [cons_append, take_append_drop, marked_cons, hseg]
      have hskip := closeOffset_skip (b := b) hmarked (fun h => absurd h hlit) level (pos + t.lead.utf8ByteSize)
      rw [cons_append, take_append_drop] at hskip
      rw [hskip, hsize, if_neg (by simp [isCloser, hpunct]), if_neg (by simp [isOpener, hpunct])]
      exact ih level _ _ hscan
    · -- behind its first character, a token of code holds no bracket
      have hrest (level : Nat) : closeOffset b level (pos + t.lead.utf8ByteSize + c.utf8Size) rest =
          closeAt b level (locate (pos + t.lead.utf8ByteSize + t.text.utf8ByteSize)
            (line + lineFeeds t.lead + lineFeeds t.text) ts) := by
        have hskip := closeOffset_skip (marked_plain (fun d hd => plain_of_inner (hinner d hd)) (rest.drop n))
          (fun _ d hd => ⟨ne_bracket_of_inner (isBracket_closing b) (hinner d hd),
            ne_bracket_of_inner (isBracket_opening b) (hinner d hd)⟩) level (pos + t.lead.utf8ByteSize + c.utf8Size)
        rw [take_append_drop] at hskip
        rw [hskip, Nat.add_assoc _ c.utf8Size, ← byteLength_cons, hsize]
        exact ih level _ _ hscan
      have hcloser := bracket_iff hext htext (isBracket_closing b)
      have hopener := bracket_iff hext htext (isBracket_opening b)
      rw [closeOffset_code hstart, hrest, hrest, hrest]
      simp only [isCloser, isOpener, Bool.and_eq_true, decide_eq_true_eq, hcloser, hopener]

/-! ## The text between two brackets -/

lemma utf8Size_bracket (h : isBracket c) : c.utf8Size = 1 := by
  simp only [isBracket, mem_cons, not_mem_nil, or_false, decide_eq_true_eq] at h
  rcases h with rfl | rfl | rfl | rfl | rfl | rfl <;> rfl

lemma split_at_opener (h : located s = as ++ t :: bs) (ht : isOpener b t) :
    ∃ pre post, s.toList = pre ++ b.opening :: post ∧ t.start = byteLength pre ∧
      closeOffset b 1 (t.start + 1) post = closeAt b 1 bs := by
  obtain ⟨pre, post, hs, hstart, hstop, -, hbs, -⟩ := located_append h
  simp only [isOpener, Bool.and_eq_true, decide_eq_true_eq] at ht
  have htext : t.token.text.toList = [b.opening] := by rw [ht.2, Char.toString, toList_singleton]
  rw [htext] at hs hstop
  refine ⟨pre, post, ?_, hstart, ?_⟩
  · rw [hs, List.append_assoc, singleton_append]
  · have hone : t.stop = t.start + 1 := by
      rw [hstop, hstart, byteLength_append, byteLength_cons, utf8Size_bracket (isBracket_opening b), byteLength_nil]
    rw [hbs, hone]
    exact closeOffset_eq b 1 _ _ (Prod.eta (scan post)).symm

lemma enclosed_eq (hs : s.toList = pre ++ b.opening :: post) : enclosed s (byteLength pre) =
      match closingIn b 1 (marked post) with
      | none => .error (.unbalanced b (byteLength pre))
      | some n => .ok (post.take n) := by
  have hascii : b.opening.toNat < 128 := by cases b <;> decide
  have hbyte : byteAt? (byteLength pre) s.toList = some b.opening.toUInt8 := by
    rw [byteAt?_eq, hs, bytes_append, ← length_bytes, getElem?_append_right (Nat.le_refl _),
      Nat.sub_self, bytes_cons, utf8EncodeChar_ascii hascii]
    rfl
  have hchar : Char.ofNat b.opening.toUInt8.toNat = b.opening := by rw [toNat_toUInt8 hascii, Char.ofNat_toNat]
  have hafter : Text.after (byteLength pre + 1) s.toList = (0, post) := by
    have := after_append (pre ++ [b.opening]) post
    rwa [byteLength_append, byteLength_cons, utf8Size_bracket (isBracket_opening b), byteLength_nil,
      List.append_assoc, singleton_append, ← hs] at this
  rw [enclosed, hbyte]
  simp only [hchar, Bracket.ofOpening?_opening, hafter, enclosed?]
  cases closingIn b 1 (marked post) <;> rfl

lemma closing_eq (h : located s = as ++ t :: bs) (ht : isOpener b t) : (closing s t.start = match closeAt b 1 bs with
      | none => .error (.unbalanced b t.start)
      | some close => .ok close) ∧
    ∀ close, closing s t.start = .ok close → ∃ inside, enclosed s t.start = .ok inside ∧
      (ofList inside).toUTF8.data.toList = (s.toUTF8.data.toList.take close).drop (t.start + 1) := by
  obtain ⟨pre, post, hs, hstart, hclose⟩ := split_at_opener h ht
  have henclosed := enclosed_eq hs
  rw [← hstart] at henclosed
  rw [closing, henclosed, ← hclose, closeOffset]
  cases closingIn b 1 (marked post) with
  | none =>
    refine ⟨rfl, fun close hclose => ?_⟩
    cases hclose
  | some n =>
    refine ⟨rfl, fun close hclose => ⟨post.take n, rfl, ?_⟩⟩
    obtain rfl : t.start + 1 + byteLength (post.take n) = close := by simpa [Except.map] using hclose
    have hbetween := bytes_between (pre ++ [b.opening]) (post.take n) (post.drop n)
    rw [List.append_assoc, take_append_drop, List.append_assoc, singleton_append, ← hs, byteLength_append,
      byteLength_cons, utf8Size_bracket (isBracket_opening b), byteLength_nil, ← hstart] at hbetween
    rw [toList_toUTF8, toList_toUTF8, toList_ofList]
    exact hbetween.symm

lemma filter_later (h : located s = as ++ t :: bs) : (located s).filter (t.start < ·.start) = bs := by
  have hsorted := pairwise_located s
  rw [h] at hsorted ⊢
  obtain ⟨-, hbs, hcross⟩ := pairwise_append.1 hsorted
  have has : as.filter (t.start < ·.start) = [] := by
    simp only [filter_eq_nil_iff, decide_eq_true_eq]
    intro a ha
    have := (hcross a ha t mem_cons_self).1
    omega
  rw [filter_append, has, nil_append, filter_cons_of_neg (by simp), filter_eq_self]
  intro u hu
  simpa using ((pairwise_cons.1 hbs).1 u hu).1

/-- Brackets are matched by tokens. An opening bracket is closed by the first closing one of its kind behind
it with which more are closed than opened, and by none if there is no such token; it encloses the bytes
between the two. Of two brackets of one kind, one lies inside the other or they lie side by side. -/
theorem closing_matches (s : String) (b : Bracket) (offset : Nat)
    (h : ∃ t ∈ located s, isOpener b t = true ∧ t.start = offset) :
    (∀ close, closing s offset = .ok close ↔ Closes b [] ((located s).filter (offset < ·.start)) close) ∧
    ((¬∃ close, Closes b [] ((located s).filter (offset < ·.start)) close) →
      closing s offset = .error (.unbalanced b offset)) ∧
    (∀ close, closing s offset = .ok close → ∃ inside, enclosed s offset = .ok inside ∧
      (ofList inside).toUTF8.data.toList = (s.toUTF8.data.toList.take close).drop (offset + 1)) ∧
    ∀ offset' close close', (∃ t ∈ located s, isOpener b t = true ∧ t.start = offset') → offset < offset' →
      closing s offset = .ok close → closing s offset' = .ok close' → close < offset' ∨ close' < close := by
  obtain ⟨t, ht, hopen, rfl⟩ := h
  obtain ⟨as, bs, hsplit⟩ := append_of_mem ht
  obtain ⟨hclosing, hinside⟩ := closing_eq hsplit hopen
  have hok (close : Nat) : closing s t.start = .ok close ↔ closeAt b 1 bs = some close := by
    rw [hclosing]
    cases closeAt b 1 bs <;> simp
  rw [filter_later hsplit]
  refine ⟨fun close => (hok close).trans closeAt_one_iff, ?_, hinside, ?_⟩
  · intro hnone
    rw [hclosing, Option.eq_none_iff_forall_ne_some.2 fun close h => hnone ⟨close, closeAt_one_iff.1 h⟩]
  · rintro _ close close' ⟨u, hu, hopen', rfl⟩ hlt hclose hclose'
    have hmem : u ∈ bs := by
      rw [← filter_later hsplit]
      exact mem_filter.2 ⟨hu, by simpa using hlt⟩
    obtain ⟨mid, rest, rfl⟩ := append_of_mem hmem
    have hsplit' : located s = (as ++ t :: mid) ++ u :: rest := by
      rw [hsplit, List.append_assoc, cons_append]
    have hsorted := pairwise_located s
    rw [hsplit] at hsorted
    have hlater := (pairwise_cons.1 (pairwise_append.1 hsorted).2.1).2
    obtain ⟨hclosing', -⟩ := closing_eq hsplit' hopen'
    have hok' : closeAt b 1 rest = some close' := by
      rw [hclosing'] at hclose'
      revert hclose'
      cases closeAt b 1 rest <;> simp
    exact closeAt_nested (hlater.imp fun h => h.1) hopen' ((hok close).1 hclose) hok'

/-- The brace of a literal, the one of a comment and the other kinds of brackets do not count. -/
theorem closing_matches_braces :
    (∃ t ∈ located "\x7b(\"\x7d\"/*\x7d*/\x7b\x7d\x7d", isOpener .curly t = true ∧ t.start = 0) ∧
    closing "\x7b(\"\x7d\"/*\x7d*/\x7b\x7d\x7d" 0 = .ok 12 := by
  have h : ∃ t ∈ located "\x7b(\"\x7d\"/*\x7d*/\x7b\x7d\x7d", isOpener .curly t = true ∧ t.start = 0 := by
    decide +kernel
  exact ⟨h, ((closing_matches _ .curly 0 h).1 12).2 (closeAt_one_iff.1 (by decide +kernel))⟩

end DeviceForge.Segment
