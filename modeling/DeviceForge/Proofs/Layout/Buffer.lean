import DeviceForge.Proofs.Layout.Brace
/-!
# Braces in a buffer of bytes

The writer of braces takes the bytes of a text one by one.
-/

namespace DeviceForge.Layout

open Text List Segment String

variable {f : Char → List Char}

/-! ## Characters of several bytes -/

structure Widens (f : Char → List Char) : Prop where
  ascii : ∀ c : Char, c.toNat < 128 → f c = [c]
  wide : ∀ c : Char, 128 ≤ c.toNat → ∃ d ds, f c = d :: ds ∧ ∀ e ∈ d :: ds, 128 ≤ e.toNat

def IsAscii (p : Char → Bool) : Prop :=
  ∀ c, p c = true → c.toNat < 128

lemma IsAscii.of_wide {p : Char → Bool} (hp : IsAscii p) {c : Char} (h : 128 ≤ c.toNat) : p c = false := by
  by_contra hc
  have := hp c (by simpa using hc)
  omega

lemma isAscii_isBlank : IsAscii isBlank := by
  intro c h
  simp only [isBlank, Bool.or_eq_true, decide_eq_true_eq] at h
  rcases h with (((rfl | rfl) | rfl) | rfl) | rfl <;> decide

lemma isAscii_isTab : IsAscii isTab := by
  intro c h
  simp only [isTab, Bool.or_eq_true, decide_eq_true_eq] at h
  rcases h with rfl | rfl <;> decide

lemma isAscii_isWordChar : IsAscii isWordChar := by
  intro c h
  simp only [isWordChar, Char.isAlphanum, Bool.or_eq_true, decide_eq_true_eq] at h
  rcases h with (h | h) | rfl
  · have := Token.isAlpha_iff.1 h
    omega
  · simp only [Char.isDigit, Bool.and_eq_true, decide_eq_true_eq, ge_iff_le, UInt32.le_iff_toNat_le] at h
    exact Nat.lt_of_le_of_lt h.2 (by decide)
  · decide

section
variable {f : Char → List Char} (hf : Widens f) {p : Char → Bool} (hp : IsAscii p)
include hf

lemma Widens.isEmpty_flatMap (cs : List Char) : (cs.flatMap f).isEmpty = cs.isEmpty := by
  cases cs with
  | nil => rfl
  | cons c cs =>
    by_cases hc : c.toNat < 128
    · simp [hf.ascii c hc]
    · obtain ⟨d, ds, hd, -⟩ := hf.wide c (Nat.not_lt.1 hc)
      simp [hd]

lemma Widens.takeWhile_flatMap {q : Char → Bool} (hq : ∀ c : Char, 128 ≤ c.toNat → q c) (cs : List Char) :
    (cs.flatMap f).takeWhile q = (cs.takeWhile q).flatMap f := by
  induction cs with
  | nil => rfl
  | cons c cs ih =>
    rw [flatMap_cons]
    by_cases hc : c.toNat < 128
    · rw [hf.ascii c hc, singleton_append]
      cases h : q c with
      | true => rw [takeWhile_cons_of_pos h, takeWhile_cons_of_pos h, ih, flatMap_cons, hf.ascii c hc, singleton_append]
      | false => rw [takeWhile_cons_of_neg (by simp [h]), takeWhile_cons_of_neg (by simp [h])]; rfl
    · have hwide := Nat.not_lt.1 hc
      obtain ⟨d, ds, hd, hall⟩ := hf.wide c hwide
      rw [takeWhile_cons_of_pos (hq c hwide), flatMap_cons, hd, takeWhile_append_of_pos fun e he => hq e (hall e he), ih]

include hp

lemma Widens.cases (c : Char) : f c = [c] ∨ ∃ d ds, f c = d :: ds ∧ p c = false ∧ p d = false := by
  by_cases hc : c.toNat < 128
  · exact .inl (hf.ascii c hc)
  · obtain ⟨d, ds, hd, hall⟩ := hf.wide c (Nat.not_lt.1 hc)
    exact .inr ⟨d, ds, hd, hp.of_wide (Nat.not_lt.1 hc), hp.of_wide (hall d mem_cons_self)⟩

lemma Widens.takeWhile_ascii (cs : List Char) : (cs.flatMap f).takeWhile p = cs.takeWhile p := by
  induction cs with
  | nil => rfl
  | cons c cs ih =>
    rw [flatMap_cons]
    rcases hf.cases hp c with hsame | ⟨d, ds, hwide, hc, hd⟩
    · rw [hsame, singleton_append, takeWhile_cons, takeWhile_cons, ih]
    · rw [hwide, cons_append, takeWhile_cons_of_neg (by simp [hd]), takeWhile_cons_of_neg (by simp [hc])]

lemma Widens.dropWhile_ascii (cs : List Char) : (cs.flatMap f).dropWhile p = (cs.dropWhile p).flatMap f := by
  induction cs with
  | nil => rfl
  | cons c cs ih =>
    rw [flatMap_cons]
    rcases hf.cases hp c with hsame | ⟨d, ds, hwide, hc, hd⟩
    · rw [hsame, singleton_append, dropWhile_cons, dropWhile_cons]
      split
      · exact ih
      · rw [flatMap_cons, hsame, singleton_append]
    · rw [dropWhile_cons_of_neg (by simp [hc]), flatMap_cons, hwide, cons_append, dropWhile_cons_of_neg (by simp [hd])]

lemma Widens.all_ascii (cs : List Char) : (cs.flatMap f).all p = cs.all p := by
  rw [all_flatMap]
  congr 1
  funext c
  rcases hf.cases hp c with hsame | ⟨d, ds, hwide, hc, hd⟩
  · simp [hsame]
  · simp [hwide, hc, hd]

lemma Widens.any_head (cs : List Char) : (cs.flatMap f).head?.any p = cs.head?.any p := by
  cases cs with
  | nil => rfl
  | cons c cs =>
    rcases hf.cases hp c with hsame | ⟨d, ds, hwide, hc, hd⟩
    · simp [hsame]
    · simp [hwide, hc, hd]

end

lemma Widens.prefix_iff (hf : Widens f) {word : List Char} (hword : ∀ c ∈ word, c.toNat < 128) (cs rest : List Char) :
    word ++ rest = cs.flatMap f ↔ ∃ rest', cs = word ++ rest' ∧ rest = rest'.flatMap f := by
  induction word generalizing cs with
  | nil => simp
  | cons w word ih =>
    obtain ⟨hw, hword⟩ := forall_mem_cons.1 hword
    cases cs with
    | nil => simp
    | cons c cs =>
      rw [flatMap_cons]
      by_cases hc : c.toNat < 128
      · rw [hf.ascii c hc, singleton_append, cons_append, cons.injEq, ih hword]
        simp only [cons_append, cons.injEq]
        constructor
        · rintro ⟨rfl, rest', rfl, rfl⟩
          exact ⟨rest', ⟨rfl, rfl⟩, rfl⟩
        · rintro ⟨rest', ⟨rfl, rfl⟩, rfl⟩
          exact ⟨rfl, rest', rfl, rfl⟩
      · obtain ⟨d, ds, hd, hall⟩ := hf.wide c (Nat.not_lt.1 hc)
        rw [hd]
        constructor
        · intro h
          have := hall d mem_cons_self
          obtain ⟨rfl, -⟩ : w = d ∧ _ := by simpa using h
          omega
        · rintro ⟨rest', h, -⟩
          obtain ⟨rfl, -⟩ : c = w ∧ _ := by simpa using h
          omega

/-! ## The steps of the writer -/

lemma openBrace_eq (out rest : List Char) : openBrace out rest =
      if (rest.dropWhile isTab).isEmpty || (rest.dropWhile isTab).head?.any (· = '\n') then '\x7b' :: openBase out
      else '\n' :: '\x7b' :: openBase out := by
  unfold openBrace openBase
  cases rest.dropWhile isTab with
  | nil => rfl
  | cons c cs => by_cases h : c = '\n' <;> simp [h]

lemma closeBrace_eq (out rest : List Char) : closeBrace out rest =
      if startsElse (rest.dropWhile isBlank) then '\n' :: '\x7d' :: closeBase out else '\x7d' :: closeBase out := rfl

section
variable {f g : Char → List Char} (hf : Widens f)
include hf

lemma Widens.cons_flatMap {c : Char} (hc : c.toNat < 128) (cs : List Char) : c :: cs.flatMap f = (c :: cs).flatMap f := by
  rw [flatMap_cons, hf.ascii c hc, singleton_append]

lemma Widens.startsElse (cs : List Char) : startsElse (cs.flatMap f) = startsElse cs := by
  have hascii : "else".toList.all (·.toNat < 128) := by decide
  have hword : ∀ c ∈ "else".toList, c.toNat < 128 := fun c hc => by simpa using all_eq_true.1 hascii c hc
  by_cases h : "else".toList <+: cs
  · obtain ⟨rest, rfl⟩ := h
    have hmap := (hf.prefix_iff hword _ _).2 ⟨rest, rfl, rfl⟩
    have hdrop (tail : List Char) : ("else".toList ++ tail).drop 4 = tail := drop_left' (by decide)
    rw [← hmap, Layout.startsElse, Layout.startsElse, isPrefixOf_iff_prefix.2 (prefix_append _ _),
      isPrefixOf_iff_prefix.2 (prefix_append _ _), hdrop, hdrop, hf.any_head isAscii_isWordChar]
  · have hnot : ¬"else".toList <+: cs.flatMap f := by
      rintro ⟨rest, hrest⟩
      obtain ⟨rest', rfl, -⟩ := (hf.prefix_iff hword _ _).1 hrest
      exact h (prefix_append _ _)
    rw [Layout.startsElse, Layout.startsElse, Bool.eq_false_iff.2 (mt isPrefixOf_iff_prefix.1 h),
      Bool.eq_false_iff.2 (mt isPrefixOf_iff_prefix.1 hnot), Bool.false_and, Bool.false_and]

lemma Widens.skippedAfterClose (cs : List Char) : skippedAfterClose (cs.flatMap f) = skippedAfterClose cs := by
  rw [Layout.skippedAfterClose, Layout.skippedAfterClose, hf.dropWhile_ascii isAscii_isBlank, hf.startsElse,
    hf.takeWhile_ascii isAscii_isBlank]

lemma Widens.openBase (out : List Char) : openBase (out.flatMap f) = (openBase out).flatMap f := by
  rw [Layout.openBase, hf.dropWhile_ascii isAscii_isBlank, hf.isEmpty_flatMap, Layout.openBase]
  split
  · rfl
  · exact hf.cons_flatMap (by decide) _

lemma Widens.closeBase (out : List Char) : closeBase (out.flatMap f) = (closeBase out).flatMap f := by
  have hwide (c : Char) (hc : 128 ≤ c.toNat) : decide (c ≠ '\n') := by
    refine decide_eq_true fun heq => ?_
    subst heq
    exact absurd hc (by decide)
  rw [Layout.closeBase, hf.takeWhile_flatMap hwide, hf.all_ascii isAscii_isBlank, hf.dropWhile_ascii isAscii_isTab, Layout.closeBase]
  split
  · rfl
  · exact hf.cons_flatMap (by decide) _

variable (hg : Widens g)
include hg

lemma Widens.openBrace (out rest : List Char) : openBrace (out.flatMap g) (rest.flatMap f) = (openBrace out rest).flatMap g := by
  have hfeed : IsAscii (fun c => decide (c = '\n')) := by
    intro c h
    obtain rfl := of_decide_eq_true h
    decide
  rw [openBrace_eq, hf.dropWhile_ascii isAscii_isTab, hf.isEmpty_flatMap, hf.any_head hfeed, hg.openBase, openBrace_eq,
    hg.cons_flatMap (by decide), hg.cons_flatMap (by decide)]
  split <;> rfl

lemma Widens.closeBrace (out rest : List Char) : closeBrace (out.flatMap g) (rest.flatMap f) = (closeBrace out rest).flatMap g := by
  rw [closeBrace_eq, hf.dropWhile_ascii isAscii_isBlank, hf.startsElse, hg.closeBase, closeBrace_eq, hg.cons_flatMap (by decide),
    hg.cons_flatMap (by decide)]
  split <;> rfl

end

lemma writeBraces_wide {ds : List Char} (h : ∀ d ∈ ds, 128 ≤ d.toNat) (kind : Segment.Kind) (out cs : List Char) (kinds : List Segment.Kind) :
    writeBraces 0 out (ds ++ cs) (replicate ds.length kind ++ kinds) = writeBraces 0 (ds.reverse ++ out) cs kinds := by
  induction ds generalizing out with
  | nil => rfl
  | cons d ds ih =>
    obtain ⟨hd, hds⟩ := forall_mem_cons.1 h
    have hne {c : Char} (hc : c.toNat < 128) : d ≠ c := by
      rintro rfl
      omega
    rw [cons_append, length_cons, replicate_succ, cons_append, writeBraces,
      if_neg fun h => hne (by decide) h.2, if_neg fun h => hne (by decide) h.2, ih hds, reverse_cons, List.append_assoc]
    rfl

lemma skippedAfterClose_le (rest : List Char) : skippedAfterClose rest ≤ (rest.takeWhile isBlank).length := by
  rw [skippedAfterClose]
  split
  · exact Nat.le_refl _
  · exact Nat.zero_le _

lemma ascii_of_take {p : Char → Bool} (hp : IsAscii p) {cs : List Char} {n : Nat} (hn : n ≤ (cs.takeWhile p).length) :
    ∀ d ∈ cs.take n, d.toNat < 128 := by
  intro d hd
  have hmem : d ∈ cs.takeWhile p := by
    rw [← takeWhile_append_dropWhile (p := p) (l := cs), take_append_of_le_length hn] at hd
    exact mem_of_mem_take hd
  exact hp d (mem_takeWhile_imp hmem)

lemma writeBraces_flatMap {g : Char → List Char} (hf : Widens f) (hg : Widens g) (hrev : ∀ c, g c = (f c).reverse)
    (xs : List (Char × Segment.Kind)) (skip : Nat) (hskip : ∀ c ∈ (xs.map Prod.fst).take skip, c.toNat < 128) (out : List Char) :
    writeBraces skip (out.flatMap g) ((xs.map Prod.fst).flatMap f) (xs.flatMap fun x => replicate (f x.1).length x.2) =
      (writeBraces skip out (xs.map Prod.fst) (xs.map Prod.snd)).flatMap g := by
  induction xs generalizing skip out with
  | nil => cases skip <;> rfl
  | cons x xs ih =>
    obtain ⟨c, kind⟩ := x
    rw [map_cons] at hskip
    rw [map_cons, map_cons, flatMap_cons, flatMap_cons]
    dsimp only at hskip ⊢
    cases skip with
    | succ skip =>
      rw [take_succ_cons, forall_mem_cons] at hskip
      rw [hf.ascii c hskip.1, writeBraces]
      exact ih skip hskip.2 out
    | zero =>
      by_cases hc : c.toNat < 128
      · rw [hf.ascii c hc, singleton_append, List.length_singleton, replicate_one, singleton_append, writeBraces, writeBraces]
        split
        · rw [hf.openBrace hg, hf.takeWhile_ascii isAscii_isTab]
          exact ih _ (ascii_of_take isAscii_isTab (Nat.le_refl _)) _
        split
        · rw [hf.closeBrace hg, hf.skippedAfterClose]
          exact ih _ (ascii_of_take isAscii_isBlank (skippedAfterClose_le _)) _
        · rw [hg.cons_flatMap hc]
          exact ih 0 (by simp) _
      · have hne {d : Char} (hd : d.toNat < 128) : c ≠ d := by
          rintro rfl
          exact hc hd
        obtain ⟨d, ds, hd, hall⟩ := hf.wide c (Nat.not_lt.1 hc)
        rw [writeBraces_wide (by rwa [hd]), writeBraces, if_neg fun h => hne (by decide) h.2, if_neg fun h => hne (by decide) h.2,
          ← ih 0 (by simp), flatMap_cons, hrev]

lemma toNat_ofByte (b : UInt8) : (ofByte b).toNat = b.toNat := by
  have := b.toNat_lt
  have hvalid : b.toNat.isValidChar := .inl (by omega)
  rw [ofByte, Char.ofNat, dif_pos hvalid]
  rfl

lemma toUInt8_ofByte (b : UInt8) : (ofByte b).toUInt8 = b := by
  have hlt := b.toNat_lt
  have hval : (ofByte b).val.toNat = b.toNat := toNat_ofByte b
  rw [← UInt8.toNat_inj, Char.toUInt8, UInt32.toNat_toUInt8, hval, Nat.mod_eq_of_lt hlt]

lemma widens_bytes : Widens fun c => (utf8EncodeChar c).map ofByte where
  ascii c hc := by
    have hnat : (ofByte c.toUInt8).toNat = c.toNat := by rw [toNat_ofByte, toNat_toUInt8 hc]
    rw [utf8EncodeChar_ascii hc, map_singleton, Char.toNat_inj.1 hnat]
  wide c hc := by
    obtain ⟨b, bs, hb⟩ := exists_cons_of_ne_nil (utf8EncodeChar_ne_nil (c := c))
    refine ⟨ofByte b, bs.map ofByte, by rw [hb, map_cons], ?_⟩
    rw [← map_cons, ← hb, forall_mem_map]
    intro e he
    rw [toNat_ofByte]
    exact utf8EncodeChar_wide hc e he

lemma Widens.reverse (hf : Widens f) : Widens fun c => (f c).reverse where
  ascii c hc := by rw [hf.ascii c hc, reverse_singleton]
  wide c hc := by
    obtain ⟨d, ds, hd, hall⟩ := hf.wide c hc
    obtain ⟨e, es, he⟩ := exists_cons_of_ne_nil (show (f c).reverse ≠ [] by simp [hd])
    refine ⟨e, es, he, fun x hx => hall x ?_⟩
    rw [← he, mem_reverse, hd] at hx
    exact hx

lemma braceBuffer_eq (cs : List Char) : braceBuffer cs = (ofList (placeBraces cs)).toUTF8 := by
  have hbytes : (bytes cs).map ofByte = ((marked cs).map Prod.fst).flatMap fun c => (utf8EncodeChar c).map ofByte := by
    rw [map_fst_marked, Text.bytes, map_flatMap]
  have hkinds : byteKinds cs = (marked cs).flatMap fun x => List.replicate ((utf8EncodeChar x.1).map ofByte).length x.2 := by
    simp only [byteKinds, List.length_map, length_utf8EncodeChar]
  have hwrite := writeBraces_flatMap widens_bytes widens_bytes.reverse (fun _ => rfl) (marked cs) 0 (by simp) []
  rw [flatMap_nil, ← hbytes, ← hkinds, map_fst_marked] at hwrite
  have hout : (writeBraces 0 [] ((bytes cs).map ofByte) (byteKinds cs)).reverse = (bytes (placeBraces cs)).map ofByte := by
    rw [hwrite, reverse_flatMap, Text.bytes, map_flatMap, placeBraces, Segment.kinds]
    simp [Function.comp_def]
  have hdata : (braceBuffer cs).data.toList = (ofList (placeBraces cs)).toUTF8.data.toList := by
    rw [toList_toUTF8, toList_ofList, braceBuffer, toList_toUTF8, toList_ofList, hout, List.map_map]
    simp [Function.comp_def, toUInt8_ofByte]
  exact ByteArray.ext (Array.toList_inj.1 hdata)

lemma isValidUTF8_braceBuffer (cs : List Char) : (braceBuffer cs).IsValidUTF8 := by
  rw [braceBuffer_eq]
  exact (ofList (placeBraces cs)).isValidUTF8

lemma fromUTF8?_braceBuffer (cs : List Char) : fromUTF8? (braceBuffer cs) = some (ofList (placeBraces cs)) := by
  rw [fromUTF8?, dif_pos (isValidUTF8_braceBuffer cs)]
  refine congrArg some (toByteArray_inj.1 ?_)
  exact braceBuffer_eq cs

lemma placeInBuffer_eq (cs : List Char) : placeInBuffer cs = placeBraces cs := by
  rw [placeInBuffer, fromUTF8?_braceBuffer, Option.getD_some, toList_ofList]

end DeviceForge.Layout
