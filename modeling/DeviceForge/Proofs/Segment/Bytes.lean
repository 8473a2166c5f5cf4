import DeviceForge.Segment
import DeviceForge.Proofs.Token.Scan
/-!
# One token, seen by the segments

Tokens and segments cut a text by different rules.
-/

namespace DeviceForge

open Lexeme List

/-- The kind of segment that a token lies in. -/
def Token.Kind.segment : Token.Kind → Segment.Kind
  | .str => .quoted
  | .char => .quoted
  | .comment => .comment
  | .identifier => .code
  | .number => .code
  | .punct => .code

namespace Token

variable {cs rest : List Char} {c : Char}

def isInner (c : Char) : Bool :=
  Text.isWordChar c || c ∈ ['.', '+', '-', '<', '>', '=', '&', '|', '#']

def isBracket (c : Char) : Bool :=
  c ∈ ['(', ')', '[', ']', '\x7b', '\x7d']

lemma tail_take_cons (c : Char) (cs : List Char) (n : Nat) : ((c :: cs).take n).tail = cs.take (n - 1) := by
  cases n <;> simp

lemma inner_of_number {hexadecimal : Bool} : ∀ d ∈ cs.take (number hexadecimal cs), isInner d := by
  fun_induction number hexadecimal cs with
  | case1 => simp
  | case2 c h =>
    simp only [Bool.or_eq_true, decide_eq_true_eq] at h
    simp only [take_succ_cons, take_nil, mem_singleton, forall_eq, isInner]
    rcases h with h | rfl
    · simp [h]
    · decide
  | case3 => simp
  | case4 c d cs h he ih =>
    simp only [Bool.or_eq_true, decide_eq_true_eq, Bool.and_eq_true] at h he
    rw [Nat.add_comm, take_succ_cons, take_succ_cons]
    simp only [mem_cons, forall_eq_or_imp]
    refine ⟨?_, ?_, ih⟩
    · rcases h with h | rfl
      · simp [isInner, h]
      · decide
    · rcases he.2 with rfl | rfl <;> decide
  | case5 c d cs h he ih =>
    simp only [Bool.or_eq_true, decide_eq_true_eq] at h
    rw [Nat.add_comm, take_succ_cons]
    simp only [mem_cons, forall_eq_or_imp] at ih ⊢
    refine ⟨?_, fun d hd => ih d hd⟩
    rcases h with h | rfl
    · simp [isInner, h]
    · decide
  | case6 => simp

lemma inner_of_word : ∀ d ∈ cs.take (word cs), isInner d := by
  intro d hd
  rw [word, ← prefix_iff_eq_take.1 (List.takeWhile_prefix _)] at hd
  simp [isInner, mem_takeWhile_imp hd]

lemma inner_of_operators : ∀ op ∈ operators, ∀ d ∈ op.toList.tail, isInner d := by
  have hall : operators.all (·.toList.tail.all isInner) := by decide
  simpa only [all_eq_true] using hall

lemma inner_of_operator : ∀ d ∈ cs.take (operator (c :: cs) - 1), isInner d := by
  rw [operator]
  split
  · rename_i op hop
    have hpre := find?_some hop
    rw [List.isPrefixOf_iff_prefix] at hpre
    have htake : (c :: cs).take op.length = op.toList := by
      rw [← String.length_toList]
      exact (prefix_iff_eq_take.1 hpre).symm
    intro d hd
    apply inner_of_operators op (mem_of_find?_eq_some hop)
    rwa [← htake, tail_take_cons]
  · simp

lemma extent_cases {kind : Kind} {n : Nat} (h : extent c rest = (kind, n)) :
    (kind.segment ≠ .code ∧ Segment.extent c rest = (kind.segment, n)) ∨
    (kind.segment = .code ∧ (Segment.extent c rest).1 = .code ∧ ∀ d ∈ rest.take n, isInner d) := by
  unfold extent at h
  unfold Segment.extent
  -- the tests for comments and quotes are the same on both sides, in another order
  split_ifs at h with hline hblock hstr hchar hnumber hword <;> obtain ⟨rfl, rfl⟩ := Prod.mk.inj h
  · exact .inl (by simp [hline, Kind.segment])
  · exact .inl (by simp [hblock, Kind.segment])
  · exact .inl (by simp [hstr, Kind.segment])
  · exact .inl (by simp [hchar, Kind.segment])
  all_goals refine .inr ⟨rfl, by simp [hline, hblock, hstr, hchar], ?_⟩
  · intro d hd
    rw [← tail_take_cons c] at hd
    exact inner_of_number d (mem_of_mem_tail hd)
  · exact inner_of_word
  · exact inner_of_operator

lemma extent_bracket (h : isBracket c) (rest : List Char) : extent c rest = (.punct, 0) := by
  simp only [isBracket, mem_cons, not_mem_nil, or_false, decide_eq_true_eq] at h
  rcases h with rfl | rfl | rfl | rfl | rfl | rfl <;> simp [extent, operator, operators]

end Token

namespace Segment

variable {c : Char} {cs ds : List Char}

def isPlain (c : Char) : Bool :=
  !(c = '"' || c = '\'' || c = '/')

lemma extent_plain (h : isPlain c) (cs : List Char) : (extent c cs).1 = .code := by
  simp only [isPlain, Bool.not_eq_true', Bool.or_eq_false_iff, decide_eq_false_iff_not] at h
  simp [extent, h]

lemma plain_of_blank (h : Text.isBlank c) : isPlain c := by
  simp only [Text.isBlank, Bool.or_eq_true, decide_eq_true_eq] at h
  rcases h with (((rfl | rfl) | rfl) | rfl) | rfl <;> decide

lemma plain_of_inner (h : Token.isInner c) : isPlain c := by
  by_cases h1 : c = '"'
  · subst h1; revert h; decide
  by_cases h2 : c = '\''
  · subst h2; revert h; decide
  by_cases h3 : c = '/'
  · subst h3; revert h; decide
  simp [isPlain, h1, h2, h3]

lemma ofChars_cons (c : Char) (cs : List Char) :
    ofChars (c :: cs) = ⟨(extent c cs).1, c :: cs.take (extent c cs).2⟩ :: ofChars (cs.drop (extent c cs).2) := by
  rw [ofChars]

lemma extent_code (h : (extent c cs).1 = .code) : (extent c cs).2 = code cs := by
  unfold extent at h ⊢
  split at h
  · cases h
  split at h
  · cases h
  split at h
  · cases h
  · simp [*]

lemma extent_ne_code_iff (c : Char) (cs : List Char) :
    (extent c cs).1 ≠ .code ↔ (c = '"' ∨ c = '\'') ∨ c = '/' ∧ cs.head? = some '/' ∨ c = '/' ∧ cs.head? = some '*' := by
  unfold extent
  split
  · simp_all
  split
  · simp_all
  split
  · simp_all
  · simp_all

lemma code_cons (c : Char) (cs : List Char) :
    code (c :: cs) = if (extent c cs).1 = .code then 1 + code cs else 0 := by
  by_cases hline : c = '/' ∧ cs.head? = some '/'
  · obtain ⟨rfl, ds, rfl⟩ : c = '/' ∧ ∃ ds, cs = '/' :: ds := by simpa [head?_eq_some_iff] using hline
    simp [code, extent]
  by_cases hblock : c = '/' ∧ cs.head? = some '*'
  · obtain ⟨rfl, ds, rfl⟩ : c = '/' ∧ ∃ ds, cs = '*' :: ds := by simpa [head?_eq_some_iff] using hblock
    simp [code, extent]
  rw [code]
  · by_cases hq : c = '"' ∨ c = '\'' <;> simp [extent, hline, hblock, hq]
  · rintro ds rfl rfl
    exact hline ⟨rfl, rfl⟩
  · rintro ds rfl rfl
    exact hblock ⟨rfl, rfl⟩

def prepend (c : Char) : List Segment → List Segment
  | ⟨.code, text⟩ :: rest => ⟨.code, c :: text⟩ :: rest
  | rest => ⟨.code, [c]⟩ :: rest

lemma ofChars_code (h : (extent c cs).1 = .code) : ofChars (c :: cs) = prepend c (ofChars cs) := by
  rw [ofChars_cons, h, extent_code h]
  cases cs with
  | nil => simp [code, ofChars, prepend]
  | cons d ds =>
    rw [code_cons, ofChars_cons d ds]
    split_ifs with hd
    · rw [hd, extent_code hd, prepend, Nat.add_comm, take_succ_cons, drop_succ_cons]
    · rw [prepend, take_zero, drop_zero, ofChars_cons]
      intro text rest heq
      exact hd (congrArg kind (cons.inj heq).1)

lemma marked_code (h : (extent c cs).1 = .code) : marked (c :: cs) = (c, .code) :: marked cs := by
  rw [marked, ofChars_code h, marked]
  generalize ofChars cs = segments
  unfold prepend
  split <;> simp

lemma marked_cons (c : Char) (cs : List Char) :
    marked (c :: cs) = (c :: cs.take (extent c cs).2).map (·, (extent c cs).1) ++ marked (cs.drop (extent c cs).2) := by
  rw [marked, ofChars_cons, flatMap_cons, marked]

lemma marked_plain (h : ∀ d ∈ ds, isPlain d) (cs : List Char) :
    marked (ds ++ cs) = ds.map (·, .code) ++ marked cs := by
  induction ds with
  | nil => rfl
  | cons d ds ih =>
    rw [cons_append, marked_code (extent_plain (h d mem_cons_self) _),
      ih fun d hd => h d (mem_cons_of_mem _ hd), map_cons, cons_append]

end Segment

end DeviceForge

/-! # Segments of the bytes of a text -/

namespace DeviceForge.Segment

open List Text Lexeme

variable {b : UInt8} {a quote c : Char} {cont : List UInt8}

def quotedBytes (quote : UInt8) : List UInt8 → Nat
  | [] => 0
  | [_] => 1
  | b :: d :: bs =>
    if b = '\\'.toUInt8 then 2 + quotedBytes quote bs
    else if b = quote then 1
    else 1 + quotedBytes quote (d :: bs)

def lineBytes : List UInt8 → Nat
  | [] => 0
  | b :: bs => if b = '\n'.toUInt8 ∨ b = '\r'.toUInt8 then 0 else 1 + lineBytes bs

def blockBytes : List UInt8 → Nat
  | [] => 0
  | b :: bs => if b = '*'.toUInt8 ∧ bs.head? = some '/'.toUInt8 then 2 else 1 + blockBytes bs

def codeBytes : List UInt8 → Nat
  | [] => 0
  | b :: bs =>
    if (b = '"'.toUInt8 ∨ b = '\''.toUInt8) ∨ b = '/'.toUInt8 ∧ bs.head? = some '/'.toUInt8 ∨
        b = '/'.toUInt8 ∧ bs.head? = some '*'.toUInt8 then 0
    else 1 + codeBytes bs

/-- The kind of the segment that starts with the byte `b`, and how many of the bytes after it belong to
it. -/
def extentBytes (b : UInt8) (bs : List UInt8) : Kind × Nat :=
  if b = '"'.toUInt8 ∨ b = '\''.toUInt8 then (.quoted, quotedBytes b bs)
  else if b = '/'.toUInt8 ∧ bs.head? = some '/'.toUInt8 then (.comment, 1 + lineBytes bs.tail)
  else if b = '/'.toUInt8 ∧ bs.head? = some '*'.toUInt8 then (.comment, 1 + blockBytes bs.tail)
  else (.code, codeBytes bs)

/-- The segments of bytes that start in code, at the offset `pos`. -/
def walk (pos : Nat) : List UInt8 → List Span
  | [] => []
  | b :: bs =>
    let (kind, n) := extentBytes b bs
    ⟨kind, pos, pos + (1 + n)⟩ :: walk (pos + (1 + n)) (bs.drop n)
termination_by bs => bs.length
decreasing_by
  simp only [length_drop, length_cons]
  omega

lemma ne_toUInt8 (hb : 128 ≤ b.toNat) (ha : a.toNat < 128) : b ≠ a.toUInt8 := by
  rintro rfl
  rw [toNat_toUInt8 ha] at hb
  omega

lemma quotedBytes_cons {quote : UInt8} (hb : b ≠ '\\'.toUInt8) (hq : b ≠ quote) (bs : List UInt8) :
    quotedBytes quote (b :: bs) = 1 + quotedBytes quote bs := by
  cases bs <;> simp [quotedBytes, hb, hq]

lemma quotedBytes_quote {quote : UInt8} (hq : quote ≠ '\\'.toUInt8) (bs : List UInt8) :
    quotedBytes quote (quote :: bs) = 1 := by
  cases bs <;> simp [quotedBytes, hq]

lemma quotedBytes_wide (hq : quote.toNat < 128) (b : UInt8) (bs : List UInt8) (hb : 128 ≤ b.toNat) :
    quotedBytes quote.toUInt8 (b :: bs) = 1 + quotedBytes quote.toUInt8 bs :=
  quotedBytes_cons (ne_toUInt8 hb (by decide)) (ne_toUInt8 hb hq) bs

section
variable (b : UInt8) (bs : List UInt8) (hb : 128 ≤ b.toNat)

include hb

lemma lineBytes_wide : lineBytes (b :: bs) = 1 + lineBytes bs := by
  rw [lineBytes, if_neg]
  rintro (h | h) <;> exact ne_toUInt8 hb (by decide) h

lemma blockBytes_wide : blockBytes (b :: bs) = 1 + blockBytes bs := by
  rw [blockBytes, if_neg]
  rintro ⟨h, -⟩
  exact ne_toUInt8 hb (by decide) h

lemma codeBytes_wide : codeBytes (b :: bs) = 1 + codeBytes bs := by
  rw [codeBytes, if_neg]
  rintro ((h | h) | ⟨h, -⟩ | ⟨h, -⟩) <;> exact ne_toUInt8 hb (by decide) h

end

lemma skip_wide {f : List UInt8 → Nat} (hf : ∀ b bs, 128 ≤ b.toNat → f (b :: bs) = 1 + f bs)
    (h : ∀ b ∈ cont, 128 ≤ b.toNat) (bs : List UInt8) : f (cont ++ bs) = cont.length + f bs := by
  induction cont with
  | nil => simp
  | cons b cont ih =>
    rw [cons_append, hf b _ (h b mem_cons_self), ih fun x hx => h x (mem_cons_of_mem _ hx), length_cons]
    omega

/-! ## The two walks read the same extents -/

lemma quotedBytes_bytes (hq : quote.toNat < 128) (hne : quote ≠ '\\') (cs : List Char) :
    quotedBytes quote.toUInt8 (bytes cs) = byteLength (cs.take (quoted quote cs)) := by
  have hskip {cont : List UInt8} (h : ∀ b ∈ cont, 128 ≤ b.toNat) (bs : List UInt8) :=
    skip_wide (quotedBytes_wide hq) h bs
  fun_induction quoted quote cs with
  | case1 => rfl
  | case2 d cs ih =>
    -- only the first byte of `d` is protected; the others cannot end the literal either
    obtain ⟨b, cont, h, hlen, hwide, -⟩ := utf8EncodeChar_eq_cons d
    rw [bytes_cons, bytes_cons, utf8EncodeChar_ascii (by decide), h, cons_append, nil_append,
      cons_append, quotedBytes, if_pos rfl, hskip hwide, ih, show 2 + quoted quote cs =
      1 + (1 + quoted quote cs) by omega, byteLength_take_one_add, byteLength_take_one_add,
      utf8Size_ascii (by decide)]
    omega
  | case3 cs _ =>
    rw [bytes_cons, utf8EncodeChar_ascii hq, singleton_append, quotedBytes_quote]
    · rw [← Nat.add_zero 1, byteLength_take_one_add, utf8Size_ascii hq]
      rfl
    · exact fun h => hne ((toUInt8_inj hq (by decide)).1 h)
  | case4 c cs hesc hc ih =>
    obtain ⟨b, cont, h, hlen, hwide, hb⟩ := utf8EncodeChar_eq_cons c
    rw [byteLength_take_one_add, ← ih, bytes_cons, h, cons_append]
    by_cases hback : c = '\\'
    · -- the last character of the text: a backslash with nothing to protect
      have hnil : cs = [] := by
        cases cs with
        | nil => rfl
        | cons d ds => exact absurd rfl (hesc d ds hback)
      subst hnil
      subst hback
      rw [utf8EncodeChar_ascii (by decide)] at h
      obtain ⟨rfl, rfl⟩ := cons.inj h
      rw [utf8Size_ascii (by decide)]
      rfl
    · rw [quotedBytes_cons (mt (hb _ (by decide)).1 hback) (mt (hb _ hq).1 hc), hskip hwide]
      omega

lemma lineBytes_bytes (cs : List Char) : lineBytes (bytes cs) = byteLength (cs.take (line cs)) := by
  rw [line, ← prefix_iff_eq_take.1 (List.takeWhile_prefix _)]
  induction cs with
  | nil => rfl
  | cons c cs ih =>
    obtain ⟨b, cont, h, hlen, hwide, hb⟩ := utf8EncodeChar_eq_cons c
    have hbreak : b = '\n'.toUInt8 ∨ b = '\r'.toUInt8 ↔ c = '\n' ∨ c = '\r' :=
      or_congr (hb _ (by decide)) (hb _ (by decide))
    rw [bytes_cons, h, cons_append, lineBytes]
    by_cases hc : c = '\n' ∨ c = '\r'
    · rw [if_pos (hbreak.2 hc), takeWhile_cons_of_neg (by simpa [isLineBreak, or_iff_not_imp_left] using hc)]
      rfl
    · rw [if_neg (mt hbreak.1 hc), skip_wide lineBytes_wide hwide, ih,
        takeWhile_cons_of_pos (by simpa [isLineBreak] using hc), byteLength_cons]
      omega

lemma blockBytes_bytes (cs : List Char) : blockBytes (bytes cs) = byteLength (cs.take (block cs)) := by
  fun_induction block cs with
  | case1 => rfl
  | case2 cs =>
    rw [bytes_cons, bytes_cons, utf8EncodeChar_ascii (by decide), utf8EncodeChar_ascii (by decide)]
    rfl
  | case3 c cs hend ih =>
    obtain ⟨b, cont, h, hlen, hwide, hb⟩ := utf8EncodeChar_eq_cons c
    rw [bytes_cons, h, cons_append, blockBytes, if_neg, skip_wide blockBytes_wide hwide, ih, byteLength_take_one_add]
    · omega
    · rw [pair_bytes h (by decide) (by decide)]
      rintro ⟨rfl, hslash⟩
      obtain ⟨ds, rfl⟩ := head?_eq_some_iff.1 hslash
      exact hend ds rfl rfl

lemma opens_bytes (h : String.utf8EncodeChar c = b :: cont) (cs : List Char) :
    (b = '"'.toUInt8 ∨ b = '\''.toUInt8 ↔ c = '"' ∨ c = '\'') ∧
    (b = '/'.toUInt8 ∧ (cont ++ bytes cs).head? = some '/'.toUInt8 ↔ c = '/' ∧ cs.head? = some '/') ∧
    (b = '/'.toUInt8 ∧ (cont ++ bytes cs).head? = some '*'.toUInt8 ↔ c = '/' ∧ cs.head? = some '*') := by
  have hb {a : Char} (ha : a.toNat < 128) : b = a.toUInt8 ↔ c = a := by simpa [h] using head?_bytes ha [c]
  exact ⟨or_congr (hb (by decide)) (hb (by decide)), pair_bytes h (by decide) (by decide) cs,
    pair_bytes h (by decide) (by decide) cs⟩

lemma codeBytes_bytes (cs : List Char) : codeBytes (bytes cs) = byteLength (cs.take (code cs)) := by
  induction cs with
  | nil => rfl
  | cons c cs ih =>
    obtain ⟨b, cont, h, hlen, hwide, -⟩ := utf8EncodeChar_eq_cons c
    obtain ⟨hquote, hline, hblock⟩ := opens_bytes h cs
    have hopen := or_congr hquote (or_congr hline hblock)
    rw [bytes_cons, h, cons_append, codeBytes, code_cons]
    by_cases hcode : (extent c cs).1 = .code
    · rw [if_neg (fun hne => (extent_ne_code_iff c cs).2 (hopen.1 hne) hcode), if_pos hcode,
        skip_wide codeBytes_wide hwide, ih, byteLength_take_one_add]
      omega
    · rw [if_pos (hopen.2 ((extent_ne_code_iff c cs).1 hcode)), if_neg hcode]
      rfl

lemma extentBytes_bytes (h : String.utf8EncodeChar c = b :: cont) (hwide : ∀ x ∈ cont, 128 ≤ x.toNat)
    (cs : List Char) : extentBytes b (cont ++ bytes cs) =
      ((extent c cs).1, cont.length + byteLength (cs.take (extent c cs).2)) := by
  obtain ⟨hquote, hline, hblock⟩ := opens_bytes h cs
  -- a character of ASCII leaves no bytes behind its first
  have hascii (hc : c.toNat < 128) : b = c.toUInt8 ∧ cont = [] := by
    rw [utf8EncodeChar_ascii hc] at h
    exact ⟨(cons.inj h).1.symm, (cons.inj h).2.symm⟩
  unfold extentBytes extent
  by_cases hq : c = '"' ∨ c = '\''
  · have hc : c.toNat < 128 ∧ c ≠ '\\' := by rcases hq with rfl | rfl <;> decide
    obtain ⟨rfl, rfl⟩ := hascii hc.1
    rw [if_pos (hquote.2 hq), if_pos (by simpa using hq), nil_append, quotedBytes_bytes hc.1 hc.2]
    simp
  have hq' : ¬(c = '"' || c = '\'') := by simpa using hq
  rw [if_neg (mt hquote.1 hq), if_neg hq']
  by_cases hl : c = '/' ∧ cs.head? = some '/'
  · rw [if_pos (hline.2 hl), if_pos hl]
    obtain ⟨rfl, hhead⟩ := hl
    obtain ⟨ds, rfl⟩ := head?_eq_some_iff.1 hhead
    obtain ⟨-, rfl⟩ := hascii (by decide)
    have hrest : line ('/' :: ds) = 1 + line ds := by simp [line, isLineBreak, Nat.add_comm]
    rw [hrest, byteLength_take_one_add, ← lineBytes_bytes, bytes_cons, utf8EncodeChar_ascii (by decide),
      utf8Size_ascii (by decide)]
    simp
  rw [if_neg (mt hline.1 hl), if_neg hl]
  by_cases hb : c = '/' ∧ cs.head? = some '*'
  · rw [if_pos (hblock.2 hb), if_pos hb]
    obtain ⟨rfl, hhead⟩ := hb
    obtain ⟨ds, rfl⟩ := head?_eq_some_iff.1 hhead
    obtain ⟨-, rfl⟩ := hascii (by decide)
    rw [tail_cons, byteLength_take_one_add, ← blockBytes_bytes, bytes_cons,
      utf8EncodeChar_ascii (by decide), utf8Size_ascii (by decide)]
    simp
  rw [if_neg (mt hblock.1 hb), if_neg hb, skip_wide codeBytes_wide hwide, codeBytes_bytes]

lemma drop_bytes_append (cont : List UInt8) (cs : List Char) (n : Nat) :
    (cont ++ bytes cs).drop (cont.length + byteLength (cs.take n)) = bytes (cs.drop n) := by
  conv_lhs => rw [← take_append_drop n cs]
  rw [bytes_append, ← length_bytes, take_append_drop, ← append_assoc, ← length_append, drop_left]

lemma walk_bytes (pos : Nat) (cs : List Char) : walk pos (bytes cs) = place pos (ofChars cs) := by
  fun_induction ofChars cs generalizing pos with
  | case1 => simp [walk, place]
  | case2 c cs kind n he ih =>
    obtain ⟨b, cont, h, hlen, hwide, -⟩ := utf8EncodeChar_eq_cons c
    have hext := extentBytes_bytes h hwide cs
    rw [he] at hext
    have hsize : 1 + (cont.length + byteLength (cs.take n)) = byteLength (c :: cs.take n) := by
      rw [byteLength_cons]
      omega
    rw [bytes_cons, h, cons_append, walk, place, hext, ← ih]
    simp only [hsize, drop_bytes_append]

lemma spans_eq_walk (s : String) (start : Nat) : spans s start = walk start (s.toUTF8.data.toList.drop start) := by
  obtain ⟨cont, hdrop, hlen, hwide⟩ := drop_bytes start s.toList
  rw [toList_toUTF8, hdrop]
  unfold spans
  split
  · rename_i cs hafter
    rw [hafter] at hlen ⊢
    rw [eq_nil_of_length_eq_zero hlen, nil_append, walk_bytes]
  · rename_i left cs hleft hafter
    rw [hafter] at hlen ⊢
    cases cont with
    | nil => exact absurd hlen.symm hleft
    | cons b cont =>
      have hb := hwide b mem_cons_self
      have hcode : extentBytes b (cont ++ bytes cs) = (.code, codeBytes (cont ++ bytes cs)) := by
        rw [extentBytes, if_neg, if_neg, if_neg]
        · exact fun h => ne_toUInt8 hb (by decide) h.1
        · exact fun h => ne_toUInt8 hb (by decide) h.1
        · rintro (h | h) <;> exact ne_toUInt8 hb (by decide) h
      rw [skip_wide codeBytes_wide (fun x hx => hwide x (mem_cons_of_mem _ hx)), codeBytes_bytes] at hcode
      have hsize : start + (1 + (cont.length + byteLength (cs.take (code cs)))) =
          start + left + byteLength (cs.take (code cs)) := by
        rw [length_cons] at hlen
        dsimp only at hlen
        omega
      rw [cons_append, walk, hcode]
      simp only [hsize, drop_bytes_append, walk_bytes]

end DeviceForge.Segment

/-! # Segments and tokens agree -/

namespace DeviceForge.Segment

open Text List Token

def literals (pos : Nat) (cs : List Char) : List Span :=
  (place pos (ofChars cs)).filter (·.kind ≠ .code)

lemma literals_cons (pos : Nat) (c : Char) (cs : List Char) (h : (extent c cs).1 ≠ .code) : literals pos (c :: cs) =
      ⟨(extent c cs).1, pos, pos + byteLength (c :: cs.take (extent c cs).2)⟩ ::
        literals (pos + byteLength (c :: cs.take (extent c cs).2)) (cs.drop (extent c cs).2) := by
  rw [literals, ofChars_cons, place, filter_cons_of_pos (by simpa using h), literals]

lemma literals_code (pos : Nat) {c : Char} {cs : List Char} (h : (extent c cs).1 = .code) :
    literals pos (c :: cs) = literals (pos + c.utf8Size) cs := by
  rw [literals, ofChars_code h, literals]
  generalize ofChars cs = segments
  unfold prepend
  split
  · simp [place, Nat.add_assoc]
  · simp [place]

lemma literals_plain (pos : Nat) {ds : List Char} (h : ∀ d ∈ ds, isPlain d) (cs : List Char) :
    literals pos (ds ++ cs) = literals (pos + byteLength ds) cs := by
  induction ds generalizing pos with
  | nil => rfl
  | cons d ds ih =>
    rw [cons_append, literals_code pos (extent_plain (h d mem_cons_self) _),
      ih _ fun d hd => h d (mem_cons_of_mem _ hd), byteLength_cons, Nat.add_assoc]

/-- The span of a token that is a literal or a comment. -/
def ofLocated? (t : Located) : Option Span :=
  if t.token.kind.segment = .code then none else some ⟨t.token.kind.segment, t.start, t.stop⟩

lemma literals_eq (pos line : Nat) {cs : List Char} {ts : List Token} {tail : String}
    (h : scan cs = (ts, tail)) : literals pos cs = (locate pos line ts).filterMap ofLocated? := by
  induction ts generalizing pos line cs with
  | nil =>
    obtain ⟨-, hblank⟩ := scan_nil h
    have hplain := literals_plain pos (fun d hd => plain_of_blank (hblank d hd)) []
    rw [append_nil] at hplain
    rw [hplain]
    simp [literals, ofChars, place, locate]
  | cons t ts ih =>
    obtain ⟨c, rest, n, hext, rfl, htext, hlead, -, hscan⟩ := scan_cons h
    have hsize : byteLength (c :: rest.take n) = t.text.utf8ByteSize := by rw [← htext, byteLength_toList]
    rw [literals_plain pos fun d hd => plain_of_blank (hlead d hd), byteLength_toList, locate,
      filterMap_cons, ofLocated?, ← ih _ _ hscan]
    rcases extent_cases hext with ⟨hlit, hseg⟩ | ⟨hcode, hstart, hinner⟩
    · rw [if_neg hlit, literals_cons _ _ _ (by rwa [hseg]), hseg, hsize]
    · rw [if_pos hcode, literals_code _ hstart]
      conv_lhs => rw [← take_append_drop n rest]
      rw [literals_plain _ fun d hd => plain_of_inner (hinner d hd), ← hsize, byteLength_cons, Nat.add_assoc _ c.utf8Size]

/-- Spans that are not empty and follow each other without a gap from `start` to `stop`. -/
def Tile (start stop : Nat) : List Span → Prop
  | [] => start = stop
  | g :: gs => g.start = start ∧ g.start < g.stop ∧ Tile g.stop stop gs

lemma tile_place (pos : Nat) (cs : List Char) : Tile pos (pos + byteLength cs) (place pos (ofChars cs)) := by
  fun_induction ofChars cs generalizing pos with
  | case1 => rfl
  | case2 c cs kind n he ih =>
    have hpos := byteLength_pos (cons_ne_nil c (cs.take n))
    have hsum : byteLength (c :: cs) = byteLength (c :: cs.take n) + byteLength (cs.drop n) := by
      rw [← byteLength_append, cons_append, take_append_drop]
    refine ⟨rfl, by dsimp only; omega, ?_⟩
    rw [hsum, ← Nat.add_assoc]
    exact ih _

/-- From the start of a text, or from the end of one of its tokens on, the segments cover the rest of the
text. Their literals and comments are the tokens that are literals and comments, byte for byte; and they
are the segments that a walk over the bytes finds. -/
theorem spans_agree (s : String) (offset : Nat) (h : offset = 0 ∨ ∃ t ∈ located s, t.stop = offset) :
    Tile offset s.utf8ByteSize (spans s offset) ∧
    (spans s offset).filter (·.kind ≠ .code) =
      ((located s).filter (offset ≤ ·.start)).filterMap ofLocated? ∧
    spans s offset = walk offset (s.toUTF8.data.toList.drop offset) := by
  obtain ⟨rest, line, hafter, hsize, htokens⟩ := located_from h
  have hspans : spans s offset = place offset (ofChars rest) := by
    rw [spans, hafter]
    rfl
  refine ⟨?_, ?_, spans_eq_walk s offset⟩
  · rw [hspans, ← hsize]
    exact tile_place offset rest
  · rw [hspans, htokens]
    exact literals_eq offset line (Prod.eta (Token.scan rest)).symm

/-- Behind the word `a`, a comment opener inside a literal and a quote inside a comment open nothing. -/
theorem spans_agree_behind_word :
    (∃ t ∈ located "a\"/*\"/*\"*/", t.stop = 1) ∧
    (spans "a\"/*\"/*\"*/" 1).filter (·.kind ≠ .code) = [⟨.quoted, 1, 5⟩, ⟨.comment, 5, 10⟩] := by
  have h : ∃ t ∈ located "a\"/*\"/*\"*/", t.stop = 1 := by decide +kernel
  refine ⟨h, (spans_agree _ 1 (.inr h)).2.1.trans ?_⟩
  decide +kernel

end DeviceForge.Segment
