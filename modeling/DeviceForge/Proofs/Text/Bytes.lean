import DeviceForge.Text.Offset
import DeviceForge.Text.Blank
import Mathlib.Data.List.Basic
import Mathlib.Data.List.TakeWhile
import Mathlib.Tactic.Lemma
/-!
# The bytes of a text

Offsets count bytes of the UTF-8 form, and scanning compares characters.
-/

namespace DeviceForge.Text

open String List

variable {c a d : Char}

def bytes (cs : List Char) : List UInt8 :=
  cs.flatMap utf8EncodeChar

@[simp] lemma bytes_nil : bytes [] = [] := rfl

@[simp] lemma bytes_cons (c : Char) (cs : List Char) : bytes (c :: cs) = utf8EncodeChar c ++ bytes cs := by
  simp [bytes]

@[simp] lemma bytes_append (as bs : List Char) : bytes (as ++ bs) = bytes as ++ bytes bs := by
  simp [bytes]

@[simp] lemma length_bytes (cs : List Char) : (bytes cs).length = byteLength cs := by
  induction cs with
  | nil => rfl
  | cons c cs ih => simp [ih]

lemma toList_toUTF8 (s : String) : s.toUTF8.data.toList = bytes s.toList := by
  conv_lhs => rw [← ofList_toList (s := s)]
  rw [toUTF8_eq_toByteArray, toByteArray_ofList, utf8Encode, data_toByteArray, toList_toArray, bytes]

lemma byteLength_toList (s : String) : byteLength s.toList = s.utf8ByteSize := by
  rw [← utf8ByteSize_ofList, ofList_toList]

lemma byteLength_pos {cs : List Char} (h : cs ≠ []) : 0 < byteLength cs := by
  cases cs with
  | nil => exact absurd rfl h
  | cons c cs => rw [byteLength_cons]; exact Nat.add_pos_left c.utf8Size_pos _

lemma byteLength_take_one_add (c : Char) (cs : List Char) (n : Nat) :
    byteLength ((c :: cs).take (1 + n)) = c.utf8Size + byteLength (cs.take n) := by
  rw [Nat.add_comm, take_succ_cons, byteLength_cons]

/-! ## Bytes below 128 -/

lemma utf8EncodeChar_ascii (h : c.toNat < 128) : utf8EncodeChar c = [c.toUInt8] := by
  unfold utf8EncodeChar
  rw [if_pos (show c.val.toNat ≤ 0x7f from Nat.le_of_lt_succ h)]
  rfl

lemma utf8EncodeChar_wide (h : 128 ≤ c.toNat) : ∀ b ∈ utf8EncodeChar c, 128 ≤ b.toNat := by
  intro b hb
  unfold utf8EncodeChar at hb
  have hv : ¬c.val.toNat ≤ 0x7f := Nat.not_le.2 h
  simp only [if_neg hv] at hb
  split at hb
  · simp at hb
    rcases hb with rfl | rfl <;> simp <;> omega
  · split at hb
    · simp at hb
      rcases hb with rfl | rfl | rfl <;> simp <;> omega
    · simp at hb
      rcases hb with rfl | rfl | rfl | rfl <;> simp <;> omega

lemma toNat_toUInt8 (h : c.toNat < 128) : c.toUInt8.toNat = c.toNat :=
  UInt8.toNat_ofNat_of_lt' (Nat.lt_trans h (by decide))

lemma toUInt8_inj (ha : a.toNat < 128) (hc : c.toNat < 128) : a.toUInt8 = c.toUInt8 ↔ a = c := by
  refine ⟨fun h => ?_, fun h => h ▸ rfl⟩
  have h := congrArg UInt8.toNat h
  rw [toNat_toUInt8 ha, toNat_toUInt8 hc] at h
  exact Char.toNat_inj.1 h

lemma utf8Size_ascii (h : c.toNat < 128) : c.utf8Size = 1 := by
  rw [← length_utf8EncodeChar, utf8EncodeChar_ascii h, List.length_singleton]

lemma mem_utf8EncodeChar_of_ascii (ha : a.toNat < 128) (c : Char) : a.toUInt8 ∈ utf8EncodeChar c ↔ c = a := by
  constructor
  · intro h
    by_cases hc : c.toNat < 128
    · rw [utf8EncodeChar_ascii hc, mem_singleton] at h
      exact ((toUInt8_inj ha hc).1 h).symm
    · have h := utf8EncodeChar_wide (Nat.not_lt.1 hc) _ h
      rw [toNat_toUInt8 ha] at h
      omega
  · rintro rfl
    rw [utf8EncodeChar_ascii ha, mem_singleton]

lemma count_bytes_of_ascii (ha : a.toNat < 128) (cs : List Char) : (bytes cs).count (a.toUInt8) = cs.count a := by
  induction cs with
  | nil => rfl
  | cons c cs ih =>
    rw [bytes_cons, count_append, ih, count_cons, Nat.add_comm]
    by_cases hc : c = a
    · subst hc
      rw [utf8EncodeChar_ascii ha]
      simp
    · rw [count_eq_zero_of_not_mem (mt (mem_utf8EncodeChar_of_ascii ha c).1 hc)]
      simp [hc]

lemma utf8EncodeChar_eq_cons (c : Char) : ∃ b cont, utf8EncodeChar c = b :: cont ∧ cont.length + 1 = c.utf8Size ∧
      (∀ x ∈ cont, 128 ≤ x.toNat) ∧ ∀ a : Char, a.toNat < 128 → (b = a.toUInt8 ↔ c = a) := by
  obtain ⟨b, cont, h⟩ := exists_cons_of_ne_nil (utf8EncodeChar_ne_nil (c := c))
  have hlen := length_utf8EncodeChar c
  rw [h, length_cons] at hlen
  refine ⟨b, cont, h, hlen, ?_, ?_⟩
  · intro x hx
    by_cases hc : c.toNat < 128
    · have hone := utf8Size_ascii hc
      have hnil : cont = [] := eq_nil_of_length_eq_zero (by omega)
      simp [hnil] at hx
    · exact utf8EncodeChar_wide (Nat.not_lt.1 hc) x (by rw [h]; exact mem_cons_of_mem _ hx)
  · intro a ha
    constructor
    · rintro rfl
      exact (mem_utf8EncodeChar_of_ascii ha c).1 (by rw [h]; exact mem_cons_self)
    · rintro rfl
      rw [utf8EncodeChar_ascii ha] at h
      exact (cons.inj h).1.symm

lemma head?_bytes (ha : a.toNat < 128) (cs : List Char) : (bytes cs).head? = some a.toUInt8 ↔ cs.head? = some a := by
  cases cs with
  | nil => simp
  | cons c cs =>
    obtain ⟨b, cont, h, -, -, hb⟩ := utf8EncodeChar_eq_cons c
    simpa [h] using hb a ha

lemma pair_bytes {b : UInt8} {cont : List UInt8} (h : utf8EncodeChar c = b :: cont)
    (ha : a.toNat < 128) (hd : d.toNat < 128) (cs : List Char) :
    b = a.toUInt8 ∧ (cont ++ bytes cs).head? = some d.toUInt8 ↔ c = a ∧ cs.head? = some d := by
  have hb : b = a.toUInt8 ↔ c = a := by simpa [h] using head?_bytes ha [c]
  rw [hb]
  refine and_congr_right ?_
  rintro rfl
  rw [utf8EncodeChar_ascii ha] at h
  rw [← (cons.inj h).2, nil_append]
  exact head?_bytes hd cs

lemma bytes_between (pre mid post : List Char) :
    ((bytes (pre ++ mid ++ post)).take (byteLength pre + byteLength mid)).drop (byteLength pre) = bytes mid := by
  have hl : (bytes pre ++ bytes mid).length = byteLength pre + byteLength mid := by simp
  rw [bytes_append, bytes_append, ← hl, take_left, ← length_bytes, drop_left]

lemma bytes_before (pre post : List Char) : (bytes (pre ++ post)).take (byteLength pre) = bytes pre := by
  rw [bytes_append, ← length_bytes, take_left]

lemma isValid_byteLength {s : String} {pre post : List Char} (h : s.toList = pre ++ post) :
    (⟨byteLength pre⟩ : Pos.Raw).IsValid s := by
  rw [Pos.Raw.isValid_iff_exists_append]
  refine ⟨ofList pre, ofList post, ?_, ?_⟩
  · rw [← ofList_append, ← h, ofList_toList]
  · rw [← utf8ByteSize_ofList]; rfl

lemma byteAt?_eq (n : Nat) (cs : List Char) : byteAt? n cs = (bytes cs)[n]? := by
  induction cs generalizing n with
  | nil => rfl
  | cons c cs ih =>
    rw [byteAt?, bytes_cons]
    split_ifs with h
    · rw [getElem?_append_left (by rwa [length_utf8EncodeChar])]
    · rw [ih, getElem?_append_right (by rw [length_utf8EncodeChar]; omega), length_utf8EncodeChar]

lemma after_append (pre cs : List Char) : after (byteLength pre) (pre ++ cs) = (0, cs) := by
  induction pre with
  | nil => cases cs <;> rfl
  | cons c pre ih =>
    have hc := c.utf8Size_pos
    rw [byteLength_cons, cons_append, after, if_neg (by omega), if_neg (by omega), Nat.add_sub_cancel_left, ih]

lemma drop_bytes (n : Nat) (cs : List Char) :
    ∃ cont, (bytes cs).drop n = cont ++ bytes (after n cs).2 ∧ cont.length = (after n cs).1 ∧
      ∀ b ∈ cont, 128 ≤ b.toNat := by
  induction cs generalizing n with
  | nil => exact ⟨[], by simp [after]⟩
  | cons c cs ih =>
    rw [after, bytes_cons]
    split
    · rename_i h
      exact ⟨[], by simp [h]⟩
    · split
      · rename_i h0 h
        have hwide : 128 ≤ c.toNat := by
          by_contra hc
          have := utf8Size_ascii (Nat.not_le.1 hc)
          omega
        refine ⟨(utf8EncodeChar c).drop n, ?_, ?_, ?_⟩
        · rw [drop_append_of_le_length (by rw [length_utf8EncodeChar]; omega)]
        · rw [length_drop, length_utf8EncodeChar]
        · exact fun b hb => utf8EncodeChar_wide hwide b (mem_of_mem_drop hb)
      · rename_i h0 h
        obtain ⟨cont, hdrop, hlen, hb⟩ := ih (n - c.utf8Size)
        refine ⟨cont, ?_, hlen, hb⟩
        rw [drop_append, drop_of_length_le (by rw [length_utf8EncodeChar]; omega),
          length_utf8EncodeChar, nil_append, hdrop]

end DeviceForge.Text

/-! # Slices of a text -/

namespace DeviceForge.Text

open List

lemma placed_append (pos : Nat) (as bs : List Char) :
    placed pos (as ++ bs) = placed pos as ++ placed (pos + byteLength as) bs := by
  induction as generalizing pos with
  | nil => rfl
  | cons c as ih => rw [cons_append, placed, ih, placed, cons_append, byteLength_cons, Nat.add_assoc]

lemma mem_placed {pos : Nat} {cs : List Char} : ∀ x ∈ placed pos cs, pos ≤ x.1 ∧ x.1 < pos + byteLength cs := by
  induction cs generalizing pos with
  | nil => simp [placed]
  | cons c cs ih =>
    simp only [placed, mem_cons, forall_eq_or_imp, byteLength_cons]
    refine ⟨⟨Nat.le_refl _, ?_⟩, fun x hx => ?_⟩
    · have := c.utf8Size_pos
      omega
    · have := ih x hx
      omega

section Parts
variable (pre mid post : List Char)

lemma filter_placed (p : Nat × Char → Bool)
    (hp : ∀ x, p x = decide (byteLength pre ≤ x.1 ∧ x.1 < byteLength pre + byteLength mid)) :
    ((placed 0 (pre ++ mid ++ post)).filter p).map (·.2) = mid ∧
    ((placed 0 (pre ++ mid ++ post)).filter (!p ·)).map (·.2) = pre ++ post := by
  have hpre : ∀ x ∈ placed 0 pre, p x = false := by
    intro x hx
    have := mem_placed x hx
    simp only [hp, decide_eq_false_iff_not]
    omega
  have hmid : ∀ x ∈ placed (0 + byteLength pre) mid, p x := by
    intro x hx
    have := mem_placed x hx
    simp only [hp, decide_eq_true_eq]
    omega
  have hpost : ∀ x ∈ placed (0 + byteLength (pre ++ mid)) post, p x = false := by
    intro x hx
    have := mem_placed x hx
    rw [byteLength_append] at this
    simp only [hp, decide_eq_false_iff_not]
    omega
  rw [placed_append, placed_append, filter_append, filter_append, filter_append, filter_append]
  constructor
  · rw [filter_eq_nil_iff.2 (by simpa using hpre), filter_eq_self.2 hmid, filter_eq_nil_iff.2 (by simpa using hpost)]
    simp
  · rw [filter_eq_self.2 (by simpa using hpre), filter_eq_nil_iff.2 (by simpa using hmid),
      filter_eq_self.2 (by simpa using hpost)]
    simp

lemma slice_append : slice (byteLength pre) (byteLength pre + byteLength mid) (pre ++ mid ++ post) = mid :=
  (filter_placed pre mid post _ fun _ => rfl).1

lemma cut_append : cut (byteLength pre) (byteLength pre + byteLength mid) (pre ++ mid ++ post) = pre ++ post := by
  rw [← (filter_placed pre mid post _ fun _ => rfl).2, cut]
  simp only [decide_not]

end Parts

lemma slice_zero (pre post : List Char) : slice 0 (byteLength pre) (pre ++ post) = pre := by
  have := slice_append [] pre post
  rwa [nil_append, byteLength_nil, Nat.zero_add] at this

/-! ## Lines -/

variable {cs ds line w pre post : List Char} {p : Char → Bool} {c : Char}

def OneLine (cs : List Char) : Prop :=
  '\n' ∉ cs

lemma OneLine.append (h : OneLine cs) (h' : OneLine ds) : OneLine (cs ++ ds) := by
  rw [OneLine, mem_append, not_or]
  exact ⟨h, h'⟩

lemma exists_line (h : '\n' ∈ cs) : ∃ line rest, cs = line ++ '\n' :: rest ∧ OneLine line := by
  obtain ⟨line, rest, rfl, hline⟩ := eq_append_cons_of_mem h
  exact ⟨line, rest, rfl, hline⟩

lemma lineInduction {motive : List Char → Prop} (last : ∀ line, OneLine line → motive line)
    (more : ∀ line rest, OneLine line → motive rest → motive (line ++ '\n' :: rest)) (cs : List Char) : motive cs := by
  by_cases h : '\n' ∈ cs
  · obtain ⟨line, rest, heq, hline⟩ := exists_line h
    have hlt : rest.length < cs.length := by
      rw [heq, length_append, length_cons]
      omega
    rw [heq]
    exact more line rest hline (lineInduction last more rest)
  · exact last cs h
termination_by cs.length

lemma splitAtChars_ne_nil (p : Char → Bool) (cs : List Char) : splitAtChars p cs ≠ [] := by
  cases cs with
  | nil => simp [splitAtChars]
  | cons c cs =>
    rw [splitAtChars]
    split
    · simp
    · split <;> simp

lemma splitAtChars_eq_splitOnP (p : Char → Bool) (cs : List Char) : splitAtChars p cs = cs.splitOnP p := by
  induction cs with
  | nil => rfl
  | cons c cs ih =>
    rw [splitAtChars, splitOnP_cons_eq_if_modifyHead, ih]
    split
    · rfl
    · obtain ⟨piece, pieces, hpieces⟩ := exists_cons_of_ne_nil (ih ▸ splitAtChars_ne_nil p cs)
      rw [hpieces]
      rfl

lemma splitAtChars_line (h : OneLine line) : splitAtChars (· == '\n') line = [line] := by
  induction line with
  | nil => rfl
  | cons c line ih =>
    rw [OneLine, mem_cons, not_or] at h
    rw [splitAtChars, if_neg (by simpa using Ne.symm h.1), ih h.2]

lemma splitAtChars_append (h : OneLine line) (rest : List Char) :
    splitAtChars (· == '\n') (line ++ '\n' :: rest) = line :: splitAtChars (· == '\n') rest := by
  induction line with
  | nil => rfl
  | cons c line ih =>
    rw [OneLine, mem_cons, not_or] at h
    rw [cons_append, splitAtChars, if_neg (by simpa using Ne.symm h.1), ih h.2]

lemma intercalate_cons (c : Char) (cs : List Char) (rest : List (List Char)) :
    [c].intercalate (cs :: rest) = cs ++ rest.flatMap (c :: ·) := by
  induction rest generalizing cs with
  | nil => simp
  | cons next rest ih => simp [intercalate_cons_cons, ih]

def joinAfter (lines : List (List Char)) : List Char :=
  lines.flatMap ('\n' :: ·)

lemma intercalate_lines (line : List Char) (lines : List (List Char)) :
    ['\n'].intercalate (line :: lines) = line ++ joinAfter lines :=
  intercalate_cons '\n' line lines

lemma takeWhile_append_cons (cs : List Char) (hc : p c = false) (rest : List Char) :
    (cs ++ c :: rest).takeWhile p = cs.takeWhile p := by
  induction cs with
  | nil => rw [nil_append, takeWhile_cons_of_neg (by simp [hc]), takeWhile_nil]
  | cons d cs ih => rw [cons_append, takeWhile_cons, takeWhile_cons, ih]

lemma dropWhile_append_cons (cs : List Char) (hc : p c = false) (rest : List Char) :
    (cs ++ c :: rest).dropWhile p = cs.dropWhile p ++ c :: rest := by
  induction cs with
  | nil => rw [nil_append, dropWhile_cons_of_neg (by simp [hc]), dropWhile_nil, nil_append]
  | cons d cs ih =>
    rw [cons_append, dropWhile_cons, dropWhile_cons, ih]
    split
    · rfl
    · rfl

lemma dropWhileEnd_append_of_not (cs : List Char) (hc : p c = false) (hw : ∀ d ∈ w, p d) :
    dropWhileEnd p (cs ++ c :: w) = cs ++ [c] := by
  have hdrop : (w.reverse ++ (c :: cs.reverse)).dropWhile p = c :: cs.reverse := by
    rw [dropWhile_append_of_pos (by simpa using hw), dropWhile_cons_of_neg (by simp [hc])]
  rw [dropWhileEnd, reverse_append, reverse_cons, append_assoc, singleton_append, hdrop, reverse_cons, reverse_reverse]

lemma dropWhileEnd_append_cons (cs : List Char) (hc : p c = false) (ds : List Char) :
    dropWhileEnd p (cs ++ c :: ds) = cs ++ c :: dropWhileEnd p ds := by
  rw [dropWhileEnd, reverse_append, reverse_cons, append_assoc, singleton_append,
    dropWhile_append_cons _ hc, reverse_append, reverse_cons, reverse_reverse, append_assoc,
    singleton_append, dropWhileEnd]

lemma dropWhileEnd_cons (hc : p c = false) (cs : List Char) : dropWhileEnd p (c :: cs) = c :: dropWhileEnd p cs :=
  dropWhileEnd_append_cons [] hc cs

lemma dropWhileEnd_append_right (cs : List Char) (hw : ∀ c ∈ w, p c) :
    dropWhileEnd p (cs ++ w) = dropWhileEnd p cs := by
  rw [dropWhileEnd, reverse_append, dropWhile_append_of_pos (by simpa using hw), dropWhileEnd]

lemma dropWhileEnd_eq_nil (h : ∀ c ∈ cs, p c) : dropWhileEnd p cs = [] := by
  rw [dropWhileEnd, dropWhile_eq_nil_iff.2 (by simpa using h), reverse_nil]

lemma dropWhileEnd_prefix (p : Char → Bool) (cs : List Char) : dropWhileEnd p cs <+: cs := by
  rw [dropWhileEnd, ← reverse_suffix, reverse_reverse]
  exact dropWhile_suffix p

lemma dropWhileEnd_eq_self (h : ∀ c ∈ cs.getLast?, p c = false) : dropWhileEnd p cs = cs := by
  rcases eq_nil_or_concat cs with rfl | ⟨ds, c, rfl⟩
  · rfl
  · rw [concat_eq_append] at h ⊢
    have hc := h c (by simp)
    exact dropWhileEnd_append_of_not ds hc (by simp)

lemma getLast?_dropWhileEnd (p : Char → Bool) (cs : List Char) : ∀ c ∈ (dropWhileEnd p cs).getLast?, p c = false := by
  intro c hc
  rw [dropWhileEnd, getLast?_reverse] at hc
  have := head?_dropWhile_not p cs.reverse
  rw [hc] at this
  simpa using this

lemma trim_padded (hpre : ∀ c ∈ pre, isSpace c) (hpost : ∀ c ∈ post, isSpace c)
    (hhead : ∀ c ∈ w.head?, isSpace c = false) (hlast : ∀ c ∈ w.getLast?, isSpace c = false) (hne : w ≠ []) :
    trim (String.ofList (pre ++ (w ++ post))) = String.ofList w := by
  obtain ⟨c, cs, rfl⟩ := exists_cons_of_ne_nil hne
  rw [trim, String.toList_ofList, dropWhile_append_of_pos hpre, cons_append,
    dropWhile_cons_of_neg (by simp [hhead c rfl]), ← cons_append, dropWhileEnd_append_right _ hpost,
    dropWhileEnd_eq_self hlast]

/-! ## Words of a text -/

lemma charWords_nil : charWords [] = [] := by
  rw [charWords]
  rfl

lemma charWords_space {c : Char} (h : isSpace c) (cs : List Char) : charWords (c :: cs) = charWords cs := by
  have hdrop : (c :: cs).dropWhile isSpace = cs.dropWhile isSpace := dropWhile_cons_of_pos h
  rw [charWords, charWords]
  split <;> split <;> simp_all

lemma charWords_word {c : Char} (h : isSpace c = false) (cs : List Char) :
    charWords (c :: cs) = (c :: cs.takeWhile (!isSpace ·)) :: charWords (cs.dropWhile (!isSpace ·)) := by
  have hdrop : (c :: cs).dropWhile isSpace = c :: cs := dropWhile_cons_of_neg (by simp [h])
  rw [charWords]
  split
  · simp_all
  · rename_i d rest heq
    obtain ⟨rfl, rfl⟩ := cons.inj (hdrop.symm.trans heq)
    rfl

lemma charWords_append_space {c : Char} (hc : isSpace c) (as bs : List Char) :
    charWords (as ++ c :: bs) = charWords as ++ charWords bs := by
  -- the words of a text are found one by one, each with the text behind it
  induction hn : as.length using Nat.strongRecOn generalizing as with
  | ind n ih =>
    cases as with
    | nil => rw [nil_append, charWords_space hc, charWords_nil, nil_append]
    | cons a as =>
      rw [cons_append]
      by_cases ha : isSpace a
      · rw [charWords_space ha, charWords_space ha, ih as.length (by simp [← hn]) as rfl]
      · rw [Bool.not_eq_true] at ha
        have htake : (as ++ c :: bs).takeWhile (!isSpace ·) = as.takeWhile (!isSpace ·) := by
          rw [takeWhile_append, takeWhile_cons_of_neg (by simp [hc]), append_nil]
          split
          · rename_i hlen
            exact ((List.takeWhile_prefix _).eq_of_length hlen).symm
          · rfl
        rw [charWords_word ha, charWords_word ha, htake, cons_append, dropWhile_append]
        split
        · rename_i hempty
          rw [isEmpty_iff.1 hempty, dropWhile_cons_of_neg (by simp [hc]), charWords_space hc, charWords_nil, nil_append]
        · have hlt : (as.dropWhile (!isSpace ·)).length < n := by
            have := (dropWhile_suffix (l := as) (!isSpace ·)).length_le
            rw [← hn, length_cons]
            omega
          rw [ih _ hlt _ rfl]

lemma words_space (a b : String) : words (a ++ " " ++ b) = words a ++ words b := by
  simp only [words, String.toList_append, append_assoc, ← map_append]
  exact congrArg _ (charWords_append_space rfl a.toList b.toList)

lemma words_single {s : String} (hne : s ≠ "") (h : ∀ c ∈ s.toList, isSpace c = false) : words s = [s] := by
  obtain ⟨c, cs, hcs⟩ := exists_cons_of_ne_nil fun hnil => hne (String.toList_injective hnil)
  rw [hcs] at h
  have hcs' : ∀ d ∈ cs, (!isSpace d) := fun d hd => by simp [h d (mem_cons_of_mem c hd)]
  have htake : cs.takeWhile (!isSpace ·) = cs := by rw [← append_nil cs, takeWhile_append_of_pos hcs', takeWhile_nil]
  have hdrop : cs.dropWhile (!isSpace ·) = [] := by rw [← append_nil cs, dropWhile_append_of_pos hcs', dropWhile_nil]
  rw [words, hcs, charWords_word (h c mem_cons_self), htake, hdrop, charWords_nil, ← hcs]
  simp

end DeviceForge.Text
