import DeviceForge.Proofs.Layout.EmptyLines
/-!
# Assignments among tokens

`joinAssignments` works on lines, each scanned by itself, and on flags that come from the segments of the whole text.
-/

namespace DeviceForge.Layout

open Token List Text String Option

variable {ms cur ns line' : List (Char × Bool)} {done done' : List (String × Bool)}
  {cs rest tail m w e line lead tail' : List Char} {t first : Token} {ts us : List Token} {r : Row}
  {rows : List Row} {n : Nat} {x : Stream} {p : Option Token}

def startsLine (t : Token) : Bool :=
  t.lead.toList.contains '\n'

def keeps (t : Token) : Bool :=
  keepsLines ⟨t.kind.segment, t.text.toList⟩

structure Row where
  first : Token
  more : List Token
  line : ∀ t ∈ more, startsLine t = false

namespace Row

def tokens (r : Row) : List Token :=
  r.first :: r.more

def text (r : Row) : List Char :=
  r.first.text.toList ++ Token.chars r.more

def withLead (r : Row) (lead : List Char) : Row :=
  ⟨r.first.withLead lead, r.more, r.line⟩

def isKept (r : Row) : Bool :=
  r.tokens.any keeps

def isStructured (r : Row) : Bool :=
  r.tokens.any fun t => hasStructure t.text

def isEnd (r : Row) : Bool :=
  endsStatement (r.more.getLastD r.first).text

def begins (r : Row) : Bool :=
  !r.isKept && !r.isEnd && !r.isStructured &&
    ((r.first.isIdentifier || r.first.text = "*") && !statementWords.contains r.first.text && hasAssignment r.tokens)

def goesOn (r : Row) : Bool :=
  !r.isKept && r.first.lead.toList.count '\n' = 1 && !r.isStructured && !hasAssignment r.tokens

end Row

def span? : List Row → Option Nat
  | [] => none
  | r :: rows => if !r.goesOn then none else if r.isEnd then some 1 else (span? rows).map (· + 1)

def joined? (r : Row) (rows : List Row) : Option Nat :=
  if r.begins then span? rows else none

def joinRows (tail : List Char) : Option Nat → List Row → Stream
  | none, [] => ⟨[], tail⟩
  | some _, [] => ⟨[], tail.dropWhile (· ≠ '\n')⟩
  | none, r :: rows => (joinRows tail (joined? r rows) rows).prepend r.tokens
  | some 0, r :: rows =>
    (joinRows tail (joined? r rows) rows).prepend (r.withLead (r.first.lead.toList.dropWhile (· ≠ '\n'))).tokens
  | some (n + 1), r :: rows => (joinRows tail (some n) rows).prepend (r.withLead [' ']).tokens

def rowsOf : List Token → List Row
  | [] => []
  | t :: ts =>
    match rowsOf ts with
    | [] => [⟨t, [], by simp⟩]
    | r :: rows =>
      if h : startsLine r.first = true then ⟨t, [], by simp⟩ :: r :: rows
      else ⟨t, r.tokens, forall_mem_cons.2 ⟨by simpa using h, r.line⟩⟩ :: rows

def joinStream (x : Stream) : Stream :=
  joinRows x.tail none (rowsOf x.tokens)

lemma flatMap_rowsOf (ts : List Token) : (rowsOf ts).flatMap Row.tokens = ts := by
  induction ts with
  | nil => rfl
  | cons t ts ih =>
    rw [rowsOf]
    cases hrows : rowsOf ts with
    | nil =>
      rw [hrows] at ih
      rw [← ih]
      rfl
    | cons r rows =>
      rw [hrows] at ih
      rw [← ih]
      dsimp only
      split <;> rfl

lemma startsLine_rowsOf (ts : List Token) : ∀ r ∈ (rowsOf ts).tail, startsLine r.first := by
  induction ts with
  | nil => simp [rowsOf]
  | cons t ts ih =>
    rw [rowsOf]
    cases hrows : rowsOf ts with
    | nil => simp
    | cons r rows =>
      rw [hrows] at ih
      dsimp only
      split_ifs with h
      · exact forall_mem_cons.2 ⟨h, ih⟩
      · exact ih

/-! ## Lines with flags -/

def linesOf (ms : List (Char × Bool)) : List (String × Bool) :=
  ((splitAtChars (· == '\n') (ms.map (·.1))).map ofList).zip (lineFlags false ms)

lemma lineFlags_line (h : OneLine (ms.map (·.1))) (kept : Bool) : lineFlags kept ms = [!(kept || ms.any (·.2))] := by
  induction ms generalizing kept with
  | nil => simp [lineFlags]
  | cons m ms ih =>
    obtain ⟨c, k⟩ := m
    rw [OneLine, map_cons, mem_cons, not_or] at h
    rw [lineFlags, if_neg (Ne.symm h.1), ih h.2, any_cons, Bool.or_assoc]

lemma lineFlags_append (h : OneLine (ms.map (·.1))) (kept k : Bool) (rest : List (Char × Bool)) :
    lineFlags kept (ms ++ ('\n', k) :: rest) = (!(kept || ms.any (·.2) || k)) :: lineFlags false rest := by
  induction ms generalizing kept with
  | nil => simp [lineFlags]
  | cons m ms ih =>
    obtain ⟨c, l⟩ := m
    rw [OneLine, map_cons, mem_cons, not_or] at h
    rw [cons_append, lineFlags, if_neg (Ne.symm h.1), ih h.2, any_cons, Bool.or_assoc kept]

lemma linesOf_line (h : OneLine (ms.map (·.1))) : linesOf ms = [(ofList (ms.map (·.1)), !ms.any (·.2))] := by
  rw [linesOf, splitAtChars_line h, lineFlags_line h, Bool.false_or]
  rfl

lemma linesOf_append (h : OneLine (ms.map (·.1))) (k : Bool) (rest : List (Char × Bool)) :
    linesOf (ms ++ ('\n', k) :: rest) = (ofList (ms.map (·.1)), !(ms.any (·.2) || k)) :: linesOf rest := by
  rw [linesOf, map_append, map_cons, splitAtChars_append h, lineFlags_append h, Bool.false_or]
  rfl

structure Finishes (cur ms : List (Char × Bool)) (done : List (String × Bool)) (line : List (Char × Bool)) : Prop where
  lines : ∀ rest, linesOf (cur ++ (ms ++ rest)) = done ++ linesOf (line ++ rest)
  kept : ∀ l ∈ done, l.2 = false
  oneLine : OneLine (line.map (·.1))
  chars : done.flatMap (fun l => l.1.toList ++ ['\n']) ++ line.map (·.1) = (cur ++ ms).map (·.1)
  flag : line.any (·.2) = (cur ++ ms).any (·.2)
  any : done ≠ [] → ms.any (·.2) = true

lemma Finishes.of_oneLine (h : OneLine ((cur ++ ms).map (·.1))) : Finishes cur ms [] (cur ++ ms) :=
  ⟨fun rest => by rw [List.append_assoc, nil_append], by simp, h, rfl, rfl, fun h => absurd rfl h⟩

lemma Finishes.append {line : List (Char × Bool)} (h : Finishes cur ms done line)
    (h' : Finishes line ns done' line') : Finishes cur (ms ++ ns) (done ++ done') line' := by
  refine ⟨fun rest => ?_, ?_, h'.oneLine, ?_, ?_, fun hne => ?_⟩
  · rw [List.append_assoc ms, h.lines, h'.lines, List.append_assoc]
  · exact forall_mem_append.2 ⟨h.kept, h'.kept⟩
  · rw [flatMap_append, List.append_assoc, h'.chars, map_append, ← List.append_assoc, h.chars, ← map_append,
      List.append_assoc]
  · rw [h'.flag, any_append, h.flag, ← any_append, List.append_assoc]
  · rw [any_append, Bool.or_eq_true]
    by_cases hdone : done = []
    · exact .inr (h'.any (by simpa [hdone] using hne))
    · exact .inl (h.any hdone)

lemma map_fst_flag (flag : Bool) (cs : List Char) : (cs.map (·, flag)).map (·.1) = cs := by
  rw [List.map_map]
  exact List.map_id cs

lemma oneLine_append (hcur : OneLine (cur.map (·.1))) (hcs : OneLine cs) (flag : Bool) :
    OneLine ((cur ++ cs.map (·, flag)).map (·.1)) := by
  rw [map_append, map_fst_flag]
  exact hcur.append hcs

lemma exists_finishes (hcur : OneLine (cur.map (·.1))) {d : Char} (hd : cs.getLast? = some d)
    (hfeed : d ≠ '\n') : ∃ done line, Finishes cur (cs.map (·, true)) done line := by
  have hfst := map_fst_flag true
  induction cs using lineInduction generalizing cur with
  | last cs h =>
    exact ⟨[], _, .of_oneLine (oneLine_append hcur h true)⟩
  | more cs rest h ih =>
    have hrest : rest.getLast? = some d := by
      cases rest with
      | nil =>
        rw [getLast?_concat] at hd
        exact absurd (some.inj hd).symm hfeed
      | cons c rest => rwa [getLast?_append_of_ne_nil _ (cons_ne_nil _ _), getLast?_cons_cons] at hd
    obtain ⟨done, line, hfin⟩ := ih (show OneLine (([] : List (Char × Bool)).map (·.1)) by simp [OneLine]) hrest
    have hone := oneLine_append hcur h true
    have hany : ((rest.map (·, true)).any (·.2)) := by
      cases rest with
      | nil => cases hrest
      | cons c rest => simp
    refine ⟨(ofList ((cur ++ cs.map (·, true)).map (·.1)), false) :: done, line, ?_⟩
    refine ⟨fun more => ?_, forall_mem_cons.2 ⟨rfl, hfin.kept⟩, hfin.oneLine, ?_, ?_, fun _ => by simp⟩
    · have hfirst := linesOf_append hone true (rest.map (·, true) ++ more)
      have hlines := hfin.lines more
      rw [nil_append] at hlines
      rw [Bool.or_true, Bool.not_true, hlines] at hfirst
      rw [map_append, map_cons, List.append_assoc, cons_append, ← List.append_assoc, hfirst, cons_append]
    · have hchars := hfin.chars
      rw [nil_append, hfst] at hchars
      rw [flatMap_cons, List.append_assoc, hchars, toList_ofList, map_append, hfst, map_append, hfst]
      simp
    · rw [hfin.flag, nil_append, hany]
      simp

/-! ## Tokens on lines -/

def marks (t : Token) : List (Char × Bool) :=
  Segment.labelledToken keepsLines false t

lemma marks_eq (t : Token) : marks t = t.lead.toList.map (·, false) ++ t.text.toList.map (·, keeps t) := rfl

lemma map_fst_marks (ts : List Token) : (ts.flatMap marks).map (·.1) = chars ts := by
  induction ts with
  | nil => rfl
  | cons t ts ih => rw [flatMap_cons, map_append, ih, marks_eq, map_append, map_fst_flag, map_fst_flag, chars_cons]

lemma any_flag_text (h : Token.Reads t rest) : (t.text.toList.map (·, keeps t)).any (·.2) = keeps t := by
  obtain ⟨c, cs, htext, -⟩ := h
  rw [htext]
  cases keeps t <;> simp

lemma any_marks (h : Legible ts tail) : (ts.flatMap marks).any (·.2) = ts.any keeps := by
  have hlead (cs : List Char) : (cs.map (·, false)).any (·.2) = false := by simp
  induction ts with
  | nil => rfl
  | cons t ts ih =>
    rw [flatMap_cons, any_append, ih h.2.2, marks_eq, any_append, any_flag_text h.2.1, hlead, Bool.false_or, any_cons]

lemma not_isLineComment_of_keeps (h : keeps t = false) : t.isLineComment = false := by
  refine not_isLineComment fun hkind => ?_
  simp [keeps, keepsLines, hkind, Token.Kind.segment] at h

lemma keeps_of_mem (hreads : Token.Reads t rest) (hs : t.Solid) (hfeed : '\n' ∈ t.text.toList) : keeps t := by
  rw [keeps, keepsLines, Bool.or_eq_true, Bool.and_eq_true, decide_eq_true_eq, decide_eq_true_eq]
  cases hseg : t.kind.segment with
  | code => exact absurd (hs.spaceless hseg _ hfeed) (by decide)
  | comment => exact .inl rfl
  | quoted =>
    have hline : t.isLineComment = false := by
      refine not_isLineComment fun hkind => ?_
      rw [hkind] at hseg
      cases hseg
    obtain ⟨cs, d, htext, hd⟩ := last_of_reads hreads hs hline
    refine .inr ⟨rfl, ?_⟩
    rw [htext, mem_append, mem_singleton] at hfeed
    rw [htext, dropLast_concat, contains_iff_mem]
    refine hfeed.resolve_right ?_
    rintro rfl
    cases hd

lemma exists_finishes_token (hcur : OneLine (cur.map (·.1))) (hlead : startsLine t = false)
    (hreads : Token.Reads t rest) (hs : t.Solid) : ∃ done line, Finishes cur (marks t) done line := by
  have hone := oneLine_append hcur (by simpa [startsLine, OneLine] using hlead : OneLine t.lead.toList) false
  by_cases hfeed : '\n' ∈ t.text.toList
  · have hline : t.isLineComment = false := by
      by_contra hline
      exact (hs.oneLine (by simpa using hline)).not_mem hfeed
    obtain ⟨cs, d, htext, hd⟩ := last_of_reads hreads hs hline
    have hne : d ≠ '\n' := by
      rintro rfl
      cases hd
    have hlast : t.text.toList.getLast? = some d := by rw [htext, getLast?_concat]
    obtain ⟨done, line, hfin⟩ := exists_finishes hone hlast hne
    rw [marks_eq, keeps_of_mem hreads hs hfeed]
    exact ⟨_, _, (Finishes.of_oneLine hone).append hfin⟩
  · refine ⟨_, _, .of_oneLine ?_⟩
    rw [marks_eq, ← List.append_assoc]
    exact oneLine_append hone hfeed _

lemma exists_finishes_tokens (hcur : OneLine (cur.map (·.1)))
    (hline : ∀ t ∈ ts, startsLine t = false) (hlegible : Legible ts tail) (hsolid : ∀ t ∈ ts, t.Solid) :
    ∃ done line, Finishes cur (ts.flatMap marks) done line := by
  induction ts generalizing cur with
  | nil => exact ⟨_, _, .of_oneLine (by simpa using hcur)⟩
  | cons t ts ih =>
    obtain ⟨ht, hts⟩ := forall_mem_cons.1 hline
    obtain ⟨hst, hsts⟩ := forall_mem_cons.1 hsolid
    obtain ⟨-, hreads, hlegible⟩ := hlegible
    obtain ⟨done, line, hfin⟩ := exists_finishes_token hcur ht hreads hst
    obtain ⟨done', line', hfin'⟩ := ih hfin.oneLine hts hlegible hsts
    exact ⟨_, _, hfin.append hfin'⟩

/-! ## The line of a row -/

lemma trimEnd_line (he : Spaces e) (hlast : ∀ c ∈ w.getLast?, Text.isSpace c = false) (hne : w ≠ []) :
    trimEnd (ofList (m ++ (w ++ e))) = ofList (m ++ w) := by
  rw [trimEnd, toList_ofList, ← List.append_assoc, dropWhileEnd_append_right _ he, dropWhileEnd_eq_self]
  rwa [getLast?_append_of_ne_nil _ hne]

lemma any_chars {p : Char → Bool} (hp : ∀ c, isBlank c → p c = false) (hblank : ∀ t ∈ ts, Token.Blank t.lead.toList) :
    (chars ts).any p = ts.any fun t => t.text.toList.any p := by
  induction ts with
  | nil => rfl
  | cons t ts ih =>
    obtain ⟨ht, hts⟩ := forall_mem_cons.1 hblank
    have hlead : t.lead.toList.any p = false := any_eq_false.2 fun c hc => by simp [hp c (ht c hc)]
    rw [chars_cons, any_append, any_append, hlead, Bool.false_or, ih hts, any_cons]

namespace Row

variable {r : Row}

lemma chars_tokens (r : Row) : Token.chars r.tokens = r.first.lead.toList ++ r.text := by
  rw [tokens, chars_cons, text, List.append_assoc]

lemma chars_withLead (r : Row) (lead : List Char) : chars (r.withLead lead).tokens = lead ++ r.text := by
  rw [chars_tokens, withLead, lead_withLead]
  rfl

lemma withLead_tokens (r : Row) (lead : List Char) : (r.withLead lead).tokens = r.first.withLead lead :: r.more := rfl

lemma withLead_self (r : Row) : r.withLead r.first.lead.toList = r := by
  obtain ⟨first, more, line⟩ := r
  rw [withLead]
  congr 1
  rw [Token.withLead, ofList_toList]

lemma hasAssignment_withLead (r : Row) (lead : List Char) : hasAssignment (r.withLead lead).tokens = hasAssignment r.tokens := rfl

lemma last_mem (r : Row) : r.more.getLastD r.first ∈ r.tokens := by
  rw [tokens, getLastD_eq_getLast?]
  cases hlast : r.more.getLast? with
  | none => exact mem_cons_self
  | some u => exact mem_cons_of_mem _ (mem_of_getLast? hlast)

section
variable (hlegible : Legible r.tokens []) (hsolid : ∀ t ∈ r.tokens, t.Solid)

include hlegible

lemma getLast?_text : r.text.getLast? = (r.more.getLastD r.first).text.toList.getLast? := by
  rcases eq_nil_or_concat r.more with hnil | ⟨ts, u, hu⟩
  · rw [text, hnil, chars_nil, append_nil]
    rfl
  · rw [concat_eq_append] at hu
    obtain ⟨rest, c, cs, hcs, -⟩ := hlegible.reads u (by simp [tokens, hu])
    have hne : u.text.toList ≠ [] := by simp [hcs]
    rw [text, hu, chars_append, chars_cons, chars_nil, append_nil, ← List.append_assoc, ← List.append_assoc,
      getLast?_append_of_ne_nil _ hne, getLastD_concat]

lemma ofString_text : ofString (ofList r.text) = (r.withLead []).tokens := by
  have hscan := scan_of_legible (hlegible.withLead (show Token.Blank [] by simp [Token.Blank]))
  rw [append_nil, ← withLead_tokens, chars_withLead, nil_append] at hscan
  rw [ofString, toList_ofList, hscan]

lemma hasStructure_text : hasStructure (ofList r.text) = r.isStructured := by
  have hmore : ∀ t ∈ r.more, Token.Blank t.lead.toList := hlegible.2.2.blank
  rw [hasStructure, toList_ofList, text, any_append, any_chars (fun c hc => ?_) hmore]
  · rfl
  · rw [Bool.or_eq_false_iff, Bool.or_eq_false_iff, decide_eq_false_iff_not, decide_eq_false_iff_not, decide_eq_false_iff_not]
    refine ⟨⟨?_, ?_⟩, ?_⟩ <;> rintro rfl <;> cases hc

lemma endsStatement_text : endsStatement (ofList r.text) = r.isEnd := by
  rw [endsStatement, toList_ofList, getLast?_text hlegible, isEnd, endsStatement]

include hsolid

lemma head?_text : r.text ≠ [] ∧ ∀ c ∈ r.text.head?, isSpace c = false := by
  obtain ⟨c, cs, htext, hc⟩ := head_of_reads hlegible.2.1 (hsolid _ mem_cons_self)
  rw [text, htext]
  exact ⟨cons_ne_nil _ _, by simpa using hc⟩

lemma isEmpty_text : (ofList r.text).isEmpty = false := by
  rw [Bool.eq_false_iff, ne_eq, String.isEmpty_iff, ← toList_inj, toList_ofList]
  exact (head?_text hlegible hsolid).1

lemma not_isSpace_getLast? (hkept : r.isKept = false) : ∀ c ∈ r.text.getLast?, isSpace c = false := by
  have hmem := r.last_mem
  obtain ⟨rest, hreads⟩ := hlegible.reads _ hmem
  have hlast : keeps (r.more.getLastD r.first) = false := by simpa using any_eq_false.1 hkept _ hmem
  obtain ⟨cs, d, htext, hd⟩ := last_of_reads hreads (hsolid _ hmem) (not_isLineComment_of_keeps hlast)
  rw [getLast?_text hlegible, htext, getLast?_concat]
  simpa using hd

variable (hkept : r.isKept = false) {m e : List Char} (hm : Token.Blank m) (he : Token.Blank e)

include hkept he

lemma trimEnd_text : trimEnd (ofList (m ++ (r.text ++ e))) = ofList (m ++ r.text) :=
  trimEnd_line he.spaces (not_isSpace_getLast? hlegible hsolid hkept) (head?_text hlegible hsolid).1

include hm

lemma trim_text : Text.trim (ofList (m ++ (r.text ++ e))) = ofList r.text := by
  obtain ⟨hne, hhead⟩ := head?_text hlegible hsolid
  exact trim_padded hm.spaces he.spaces hhead (not_isSpace_getLast? hlegible hsolid hkept) hne

lemma startsAssignment_text : startsAssignment (ofList (m ++ (r.text ++ e))) = r.begins := by
  simp only [startsAssignment, trim_text hlegible hsolid hkept hm he, endsStatement_text hlegible, hasStructure_text hlegible,
    ofString_text hlegible, begins, hkept, isEmpty_text hlegible hsolid, hasAssignment_withLead]
  cases r.isEnd <;> cases r.isStructured <;> rfl

lemma continuation?_text (rest : List (String × Bool)) : continuation? ((ofList (m ++ (r.text ++ e)), true) :: rest) =
      if r.isStructured || hasAssignment r.tokens then none else if r.isEnd then some [ofList r.text]
      else (continuation? rest).map (ofList r.text :: ·) := by
  simp only [continuation?, trim_text hlegible hsolid hkept hm he, endsStatement_text hlegible, hasStructure_text hlegible,
    ofString_text hlegible, isEmpty_text hlegible hsolid, hasAssignment_withLead, Bool.not_true, Bool.false_or]

end

end Row

/-! ## Joining the lines of rows -/

def joinedText (skip : Nat) (lines : List (String × Bool)) : List Char :=
  (joinLines skip lines).flatMap fun line => '\n' :: line.toList

lemma joinedText_single {line : String} {flag : Bool} {rest : List (String × Bool)}
    (h : (if flag && startsAssignment line then continuation? rest else none) = none) :
    joinedText 0 ((line, flag) :: rest) = '\n' :: line.toList ++ joinedText 0 rest := by
  rw [joinedText, joinLines, h, flatMap_cons, joinedText]

lemma joinedText_kept (h : ∀ l ∈ done, l.2 = false) (rest : List (String × Bool)) :
    joinedText 0 (done ++ rest) = done.flatMap (fun l => '\n' :: l.1.toList) ++ joinedText 0 rest := by
  induction done with
  | nil => rfl
  | cons l done ih =>
    obtain ⟨line, flag⟩ := l
    obtain ⟨hl, hdone⟩ := forall_mem_cons.1 h
    obtain rfl : flag = false := hl
    rw [cons_append, joinedText_single (by simp), ih hdone, flatMap_cons, List.append_assoc]

lemma feeds_before (done : List (String × Bool)) (line : List Char) :
    done.flatMap (fun l => '\n' :: l.1.toList) ++ '\n' :: line = '\n' :: (done.flatMap (fun l => l.1.toList ++ ['\n']) ++ line) := by
  induction done with
  | nil => rfl
  | cons l done ih => rw [flatMap_cons, List.append_assoc, ih, flatMap_cons]; simp

lemma trim_blank (h : Token.Blank w) : Text.trim (ofList w) = "" := by
  rw [Text.trim, toList_ofList, dropWhile_eq_nil_iff.2 h.spaces]
  rfl

lemma not_startsAssignment_blank (h : Token.Blank w) : startsAssignment (ofList w) = false := by
  rw [startsAssignment, trim_blank h]
  rfl

lemma joinedText_blank (hw : Token.Blank w)
    (h : ∀ m, Token.Blank m → OneLine m → joinedText 0 (linesOf (m.map (·, false) ++ ms)) = '\n' :: (m ++ cs)) :
    joinedText 0 (linesOf (w.map (·, false) ++ ms)) = '\n' :: (w ++ cs) := by
  induction w using lineInduction with
  | last line hline => exact h line hw hline
  | more line rest hline ih =>
    obtain ⟨hblank, hrest⟩ := forall_mem_append.1 hw
    have hone : OneLine ((line.map (·, false)).map (·.1)) := by rwa [map_fst_flag]
    have hfirst := linesOf_append hone false (rest.map (·, false) ++ ms)
    rw [map_fst_flag] at hfirst
    rw [map_append, map_cons, List.append_assoc, cons_append, hfirst,
      joinedText_single (by simp [not_startsAssignment_blank hblank]), ih (forall_mem_cons.1 hrest).2]
    simp

def marksOf (rows : List Row) (tail : List Char) : List (Char × Bool) :=
  (rows.flatMap Row.tokens).flatMap marks ++ tail.map (·, false)

structure Joins (rows : List Row) (tail e : List Char) (rest : List (String × Bool)) : Prop where
  blank : Token.Blank e
  lines : ∀ cur, OneLine (cur.map (·.1)) →
    linesOf (cur ++ marksOf rows tail) = (ofList (cur.map (·.1) ++ e), !cur.any (·.2)) :: rest
  parts : continuation? rest = (span? rows).map fun n => (rows.take n).map fun r => ofList r.text
  apart : e ++ joinedText 0 rest = (joinRows tail none rows).chars
  closed : joinedText 0 rest = (joinRows tail (some 0) rows).chars
  inside : ∀ n, span? rows = some (n + 1) →
    (rows.take (n + 1)).flatMap (fun r => ' ' :: r.text) ++ joinedText (n + 1) rest = (joinRows tail (some (n + 1)) rows).chars

lemma span?_of_not (h : r.goesOn = false) (rows : List Row) : span? (r :: rows) = none := by
  rw [span?, h]
  rfl

lemma span?_of_goesOn (h : r.goesOn) (rows : List Row) :
    span? (r :: rows) = if r.isEnd then some 1 else (span? rows).map (· + 1) := by
  rw [span?, h]
  rfl

lemma span?_cons (h : span? (r :: rows) = some n) :
    r.goesOn ∧ (r.isEnd ∧ n = 1 ∨ ∃ k, span? rows = some k ∧ n = k + 1) := by
  cases hgoes : r.goesOn with
  | false =>
    simp [span?_of_not hgoes] at h
  | true =>
  refine ⟨rfl, ?_⟩
  rw [span?_of_goesOn hgoes] at h
  split_ifs at h with hend
  · exact .inl ⟨hend, (some.inj h).symm⟩
  · obtain ⟨k, hk, rfl⟩ := map_eq_some_iff.1 h
    exact .inr ⟨k, hk, rfl⟩

lemma span?_le (h : span? rows = some n) : n ≤ rows.length := by
  induction rows generalizing n with
  | nil => cases h
  | cons r rows ih =>
    rw [length_cons]
    obtain ⟨-, ⟨-, rfl⟩ | ⟨k, hk, rfl⟩⟩ := span?_cons h
    · omega
    · exact Nat.succ_le_succ (ih hk)

lemma span?_pos (h : span? rows = some n) : ∃ k, n = k + 1 := by
  cases rows with
  | nil => cases h
  | cons r rows =>
    obtain ⟨-, ⟨-, rfl⟩ | ⟨k, -, rfl⟩⟩ := span?_cons h
    · exact ⟨0, rfl⟩
    · exact ⟨k, rfl⟩

lemma legible_row (h : Legible (r.tokens ++ ts) tail) (hsolid : ∀ t ∈ r.tokens, t.Solid) : Legible r.tokens [] :=
  h.take hsolid (by simp [Token.Blank]) fun _ => by simp [Lexeme.BreaksOff]

lemma joined?_kept (h : r.isKept) (rows : List Row) : joined? r rows = none := by
  rw [joined?, Row.begins, h]
  rfl

section
variable {r : Row} {rows : List Row} {tail e : List Char} {rest : List (String × Bool)}
  (h : Joins rows tail e rest) (hlegible : Legible r.tokens []) (hsolid : ∀ t ∈ r.tokens, t.Solid)

include h hlegible hsolid

lemma Joins.exists_lines (hm : OneLine m) :
    ∃ done line, linesOf (m.map (·, false) ++ ((r.withLead []).tokens.flatMap marks ++ marksOf rows tail)) =
        done ++ (ofList (line ++ e), !r.isKept) :: rest ∧
      (∀ l ∈ done, l.2 = false) ∧ done.flatMap (fun l => l.1.toList ++ ['\n']) ++ line = m ++ r.text ∧
      (r.isKept = false → done = []) := by
  have hlegible' : Legible (r.withLead []).tokens [] := hlegible.withLead (by simp [Token.Blank])
  have hany : ((r.withLead []).tokens.flatMap marks).any (·.2) = r.isKept := any_marks hlegible'
  have hlines : ∀ t ∈ (r.withLead []).tokens, startsLine t = false :=
    forall_mem_cons.2 ⟨by simp [Row.withLead, startsLine], r.line⟩
  have hsolid' : ∀ t ∈ (r.withLead []).tokens, t.Solid := by
    obtain ⟨hfirst, hmore⟩ := forall_mem_cons.1 hsolid
    exact forall_mem_cons.2 ⟨hfirst.withLead [], hmore⟩
  obtain ⟨done, line, hfin⟩ := exists_finishes_tokens (show OneLine ((m.map (·, false)).map (·.1)) by rwa [map_fst_flag])
    hlines hlegible' hsolid'
  have hflag := hfin.flag
  have hblank : (m.map (·, false)).any (·.2) = false := by simp
  rw [any_append, hany, hblank, Bool.false_or] at hflag
  have hchars := hfin.chars
  rw [map_append, map_fst_flag, map_fst_marks, Row.chars_withLead, nil_append] at hchars
  refine ⟨done, line.map (·.1), ?_, hfin.kept, hchars, fun hkept => ?_⟩
  · rw [hfin.lines, h.lines line hfin.oneLine, hflag]
  · by_contra hne
    have := hfin.any hne
    simp [hany, hkept] at this

lemma Joins.joinedText_row (hblank : Token.Blank m) (hm : OneLine m) :
    joinedText 0 (linesOf (m.map (·, false) ++ ((r.withLead []).tokens.flatMap marks ++ marksOf rows tail))) =
      '\n' :: (m ++ (r.text ++ (joinRows tail (joined? r rows) rows).chars)) := by
  obtain ⟨done, line, hlines, hdone, hchars, hnil⟩ := h.exists_lines hlegible hsolid hm
  have hplain (hflag : (if !r.isKept && startsAssignment (ofList (line ++ e)) then continuation? rest else none) = none) :
      joinedText 0 (linesOf (m.map (·, false) ++ ((r.withLead []).tokens.flatMap marks ++ marksOf rows tail))) =
        '\n' :: (m ++ (r.text ++ (joinRows tail none rows).chars)) := by
    rw [hlines, joinedText_kept hdone, joinedText_single hflag, toList_ofList, cons_append, feeds_before, List.append_assoc line,
      h.apart, ← List.append_assoc _ line, hchars, List.append_assoc]
  by_cases hkept : r.isKept
  · rw [joined?_kept hkept]
    exact hplain (by simp [hkept])
  rw [Bool.not_eq_true] at hkept
  obtain rfl := hnil hkept
  obtain rfl : line = m ++ r.text := hchars
  have hstarts := Row.startsAssignment_text hlegible hsolid hkept hblank h.blank
  rw [List.append_assoc, hkept, Bool.not_false, Bool.true_and, hstarts] at hplain
  rw [joined?]
  cases hjoined : if r.begins = true then span? rows else none with
  | none =>
    refine hplain ?_
    rw [h.parts]
    by_cases hbegins : r.begins
    · rw [if_pos hbegins] at hjoined ⊢
      rw [hjoined, map_none]
    · rw [if_neg hbegins]
  | some n =>
    obtain ⟨hbegins, hspan⟩ : r.begins = true ∧ span? rows = some n := by simpa using hjoined
    obtain ⟨k, rfl⟩ := span?_pos hspan
    have hparts := h.parts
    rw [hspan, map_some] at hparts
    have hlength : ((rows.take (k + 1)).map fun r => ofList r.text).length = k + 1 := by
      rw [List.length_map, length_take_of_le (span?_le hspan)]
    rw [List.append_assoc] at hlines
    rw [hlines, hkept, nil_append, joinedText, joinLines, Bool.not_false, Bool.true_and, hstarts, if_pos hbegins, hparts]
    simp only [hlength, flatMap_cons, Row.trimEnd_text hlegible hsolid hkept h.blank, toList_intercalate,
      map_cons, toList_ofList, List.map_map]
    have hspace : " ".toList = [' '] := rfl
    rw [hspace, intercalate_cons, ← h.inside k hspan, flatMap_map]
    simp [joinedText]

end

lemma continuation?_kept (line : String) (rest : List (String × Bool)) : continuation? ((line, false) :: rest) = none := rfl

lemma continuation?_blank (h : Token.Blank w) (flag : Bool) (rest : List (String × Bool)) :
    continuation? ((ofList w, flag) :: rest) = none := by
  simp [continuation?, trim_blank h]

lemma linesOf_blank (hcur : OneLine (cur.map (·.1))) (hline : OneLine line) (w : List Char)
    (ms : List (Char × Bool)) : linesOf (cur ++ ((line ++ '\n' :: w).map (·, false) ++ ms)) =
      (ofList (cur.map (·.1) ++ line), !cur.any (·.2)) :: linesOf (w.map (·, false) ++ ms) := by
  have hfirst := linesOf_append (oneLine_append hcur hline false) false (w.map (·, false) ++ ms)
  have hany : (line.map (·, false)).any (·.2) = false := by simp
  rw [map_append, map_fst_flag, any_append, hany, Bool.or_false, Bool.or_false] at hfirst
  rw [map_append, map_cons, List.append_assoc, cons_append, ← List.append_assoc, hfirst]

lemma dropWhile_line (h : OneLine line) (rest : List Char) :
    (line ++ '\n' :: rest).dropWhile (· ≠ '\n') = '\n' :: rest := by
  rw [dropWhile_append_of_pos, dropWhile_cons_of_neg (by simp)]
  intro c hc
  simpa using fun hfeed : c = '\n' => h (hfeed ▸ hc)

lemma linesOf_end (h : OneLine m) : linesOf (m.map (·, false)) = [(ofList m, true)] := by
  rw [linesOf_line (by rwa [map_fst_flag]), map_fst_flag]
  simp

lemma joinedText_tail (hw : Token.Blank w) : joinedText 0 (linesOf (w.map (·, false))) = '\n' :: w := by
  have hlast (m : List Char) (hm : Token.Blank m) (hone : OneLine m) :
      joinedText 0 (linesOf (m.map (·, false) ++ [])) = '\n' :: (m ++ []) := by
    rw [append_nil, linesOf_end hone, joinedText_single (by simp [not_startsAssignment_blank hm]), toList_ofList]
    rfl
  have htext := joinedText_blank hw hlast
  rwa [append_nil, append_nil] at htext

lemma exists_joins_nil (hblank : Token.Blank tail) : ∃ e rest, Joins [] tail e rest := by
  have hmarks : marksOf [] tail = tail.map (·, false) := rfl
  by_cases hfeed : '\n' ∈ tail
  · obtain ⟨line, w, rfl, hline⟩ := exists_line hfeed
    obtain ⟨hb, hw⟩ := forall_mem_append.1 hblank
    have hw : Token.Blank w := (forall_mem_cons.1 hw).2
    have hlines {cur : List (Char × Bool)} (hcur : OneLine (cur.map (·.1))) {line : List Char} (hline : OneLine line)
        (w : List Char) : linesOf (cur ++ (line ++ '\n' :: w).map (·, false)) =
          (ofList (cur.map (·.1) ++ line), !cur.any (·.2)) :: linesOf (w.map (·, false)) := by
      have := linesOf_blank hcur hline w []
      rwa [append_nil, append_nil] at this
    refine ⟨line, linesOf (w.map (·, false)), hb, fun cur hcur => hlines hcur hline w, ?_, ?_, ?_, fun n h => by cases h⟩
    · rw [span?, map_none]
      by_cases hfeed : '\n' ∈ w
      · obtain ⟨l, w', rfl, hl⟩ := exists_line hfeed
        have hfirst := hlines (show OneLine (([] : List (Char × Bool)).map (·.1)) by simp [OneLine]) hl w'
        rw [nil_append] at hfirst
        rw [hfirst]
        exact continuation?_blank (forall_mem_append.1 hw).1 _ _
      · rw [linesOf_end hfeed]
        exact continuation?_blank hw _ _
    · rw [joinedText_tail hw]
      rfl
    · rw [joinedText_tail hw, joinRows, dropWhile_line hline]
      rfl
  · refine ⟨tail, [], hblank, fun cur hcur => ?_, rfl, append_nil _, ?_, fun n h => by cases h⟩
    · rw [hmarks, linesOf_line (oneLine_append hcur hfeed false), map_append, map_fst_flag]
      simp
    · have hdrop : tail.dropWhile (· ≠ '\n') = [] := by
        refine dropWhile_eq_nil_iff.2 fun c hc => ?_
        simpa using fun h : c = '\n' => hfeed (h ▸ hc)
      rw [joinRows, hdrop]
      rfl

lemma marksOf_cons (r : Row) (rows : List Row) (tail : List Char) :
    marksOf (r :: rows) tail = r.first.lead.toList.map (·, false) ++ ((r.withLead []).tokens.flatMap marks ++ marksOf rows tail) := by
  have hfirst : marks (r.first.withLead []) = r.first.text.toList.map (·, keeps r.first) := by
    rw [marks_eq, lead_withLead]
    rfl
  rw [marksOf, marksOf, flatMap_cons, Row.tokens, Row.withLead_tokens, flatMap_append, flatMap_cons, flatMap_cons, hfirst,
    marks_eq]
  simp only [List.append_assoc]

section
variable {r : Row} {rows : List Row} {tail e line w : List Char} {rest : List (String × Bool)}

lemma Row.goesOn_iff (hlead : r.first.lead.toList = line ++ '\n' :: w) (hline : OneLine line) :
    r.goesOn ↔ r.isKept = false ∧ OneLine w ∧ (r.isStructured || hasAssignment r.tokens) = false := by
  have hcount : r.first.lead.toList.count '\n' = 1 ↔ OneLine w := by
    rw [hlead, count_append, count_cons_self, count_eq_zero.2 hline, OneLine, ← count_eq_zero]
    omega
  rw [goesOn, ← hcount]
  simp only [Bool.and_eq_true, Bool.not_eq_true', decide_eq_true_eq, Bool.or_eq_false_iff]
  tauto

variable (h : Joins rows tail e rest) (hlegible : Legible r.tokens []) (hsolid : ∀ t ∈ r.tokens, t.Solid)

include h hlegible hsolid

lemma Joins.linesOf_row (hkept : r.isKept = false) (hw : OneLine w) :
    linesOf (w.map (·, false) ++ ((r.withLead []).tokens.flatMap marks ++ marksOf rows tail)) =
      (ofList (w ++ (r.text ++ e)), true) :: rest := by
  obtain ⟨done, line, hlines, -, hchars, hnil⟩ := h.exists_lines hlegible hsolid hw
  obtain rfl := hnil hkept
  obtain rfl : line = w ++ r.text := hchars
  rw [hlines, hkept, List.append_assoc]
  rfl

lemma Joins.parts_cons (hlead : r.first.lead.toList = line ++ '\n' :: w) (hline : OneLine line) (hblank : Token.Blank w) :
    continuation? (linesOf (w.map (·, false) ++ ((r.withLead []).tokens.flatMap marks ++ marksOf rows tail))) =
      (span? (r :: rows)).map fun n => ((r :: rows).take n).map fun r => ofList r.text := by
  have hgoes := Row.goesOn_iff hlead hline
  have hstops {l : String} {flag : Bool} {lines : List (String × Bool)} (hnone : continuation? ((l, flag) :: lines) = none)
      (hnot : ¬r.goesOn) : continuation? ((l, flag) :: lines) =
        (span? (r :: rows)).map fun n => ((r :: rows).take n).map fun r => ofList r.text := by
    rw [hnone, span?_of_not (Bool.eq_false_iff.2 hnot), map_none]
  by_cases hw : OneLine w
  · by_cases hkept : r.isKept
    · have hnot : ¬r.goesOn := by simp [hgoes, hkept]
      obtain ⟨done, last, hlines, hdone, -⟩ := h.exists_lines hlegible hsolid hw
      rw [hlines, hkept]
      cases done with
      | nil => exact hstops (continuation?_kept _ _) hnot
      | cons l done =>
        obtain ⟨text, flag⟩ := l
        obtain rfl : flag = false := hdone _ mem_cons_self
        exact hstops (continuation?_kept _ _) hnot
    rw [Bool.not_eq_true] at hkept
    have htext := Row.continuation?_text hlegible hsolid hkept hblank h.blank rest
    rw [h.linesOf_row hlegible hsolid hkept hw]
    by_cases hstop : (r.isStructured || hasAssignment r.tokens)
    · rw [if_pos hstop] at htext
      exact hstops htext (by simp [hgoes, hstop])
    · rw [htext, if_neg hstop, span?_of_goesOn (hgoes.2 ⟨hkept, hw, by simpa using hstop⟩), h.parts]
      cases r.isEnd with
      | true => rfl
      | false => cases span? rows <;> rfl
  · obtain ⟨l, w', rfl, hl⟩ := exists_line (by simpa [OneLine] using hw)
    have hlines := linesOf_blank (show OneLine (([] : List (Char × Bool)).map (·.1)) by simp [OneLine]) hl w'
      ((r.withLead []).tokens.flatMap marks ++ marksOf rows tail)
    rw [nil_append] at hlines
    rw [hlines]
    exact hstops (continuation?_blank (forall_mem_append.1 hblank).1 _ _) (by simp [hgoes, hw])

lemma Joins.cons (hlead : r.first.lead.toList = line ++ '\n' :: w) (hline : OneLine line) :
    Joins (r :: rows) tail line (linesOf (w.map (·, false) ++ ((r.withLead []).tokens.flatMap marks ++ marksOf rows tail))) := by
  have hblank := hlegible.1
  rw [hlead] at hblank
  obtain ⟨hb, hw⟩ := forall_mem_append.1 hblank
  have hw : Token.Blank w := (forall_mem_cons.1 hw).2
  have htext := joinedText_blank hw fun m hm hone => h.joinedText_row hlegible hsolid hm hone
  refine ⟨hb, fun cur hcur => ?_, h.parts_cons hlegible hsolid hlead hline hw, ?_, ?_, fun n hspan => ?_⟩
  · rw [marksOf_cons, hlead, linesOf_blank hcur hline]
  · rw [htext, joinRows, Stream.chars_prepend, Row.chars_tokens, hlead]
    simp
  · rw [htext, joinRows, Stream.chars_prepend, Row.chars_withLead, hlead, dropWhile_line hline]
    simp
  · obtain ⟨hgoes, hnext⟩ := span?_cons hspan
    obtain ⟨hkept, hone, -⟩ := (Row.goesOn_iff hlead hline).1 hgoes
    rw [h.linesOf_row hlegible hsolid hkept hone, joinedText, joinLines, ← joinedText, joinRows, Stream.chars_prepend, Row.chars_withLead,
      take_succ_cons, flatMap_cons, List.append_assoc, singleton_append]
    suffices hrest : (rows.take n).flatMap (fun r => ' ' :: r.text) ++ joinedText n rest = (joinRows tail (some n) rows).chars by
      rw [hrest]
    rcases hnext with ⟨-, hn⟩ | ⟨k, hk, hn⟩
    · obtain rfl : n = 0 := by omega
      exact h.closed
    · obtain rfl : n = k := by omega
      obtain ⟨j, rfl⟩ := span?_pos hk
      exact h.inside j hk

end

lemma exists_joins (hstarts : ∀ r ∈ rows, startsLine r.first) (hlegible : Legible (rows.flatMap Row.tokens) tail)
    (hsolid : ∀ t ∈ rows.flatMap Row.tokens, t.Solid) : ∃ e rest, Joins rows tail e rest := by
  induction rows with
  | nil => exact exists_joins_nil hlegible
  | cons r rows ih =>
    obtain ⟨hfirst, hstarts⟩ := forall_mem_cons.1 hstarts
    rw [flatMap_cons] at hlegible hsolid
    obtain ⟨hr, hrows⟩ := forall_mem_append.1 hsolid
    obtain ⟨e, rest, h⟩ := ih hstarts hlegible.drop hrows
    obtain ⟨line, w, hlead, hline⟩ := exists_line (by simpa [startsLine] using hfirst)
    exact ⟨_, _, h.cons (legible_row hlegible hr) hr hlead hline⟩

lemma joinedText_rows (hstarts : ∀ r ∈ rows.tail, startsLine r.first)
    (hlegible : Legible (rows.flatMap Row.tokens) tail) (hsolid : ∀ t ∈ rows.flatMap Row.tokens, t.Solid) :
    joinedText 0 (linesOf (marksOf rows tail)) = '\n' :: (joinRows tail none rows).chars := by
  cases rows with
  | nil => exact joinedText_tail hlegible
  | cons r rows =>
    rw [flatMap_cons] at hlegible hsolid
    obtain ⟨hr, hrows⟩ := forall_mem_append.1 hsolid
    obtain ⟨e, rest, hjoins⟩ := exists_joins (by simpa using hstarts) hlegible.drop hrows
    have hrow := legible_row hlegible hr
    have htext := joinedText_blank hrow.1 fun m hm hone => hjoins.joinedText_row hrow hr hm hone
    rw [marksOf_cons, htext, joinRows, Stream.chars_prepend, Row.chars_tokens, List.append_assoc]

lemma joinAssignments_chars (h : x.Neat) : joinAssignments x.chars = (joinStream x).chars := by
  have hcode (text : List Char) : keepsLines ⟨.code, text⟩ = false := rfl
  have hmarks : Segment.labelled keepsLines x.chars = marksOf (rowsOf x.tokens) x.tail := by
    rw [Segment.labelled_scan hcode h.scan, toList_ofList, marksOf, flatMap_rowsOf]
    rfl
  have hfst : (marksOf (rowsOf x.tokens) x.tail).map (·.1) = x.chars := by
    rw [marksOf, flatMap_rowsOf, map_append, map_fst_marks, map_fst_flag, Stream.chars]
  have hjoin : joinAssignments x.chars =
      ("\n".intercalate (joinLines 0 (linesOf (marksOf (rowsOf x.tokens) x.tail)))).toList := by
    rw [linesOf, hfst, ← hmarks]
    rfl
  have htext := joinedText_rows (startsLine_rowsOf x.tokens) (by rw [flatMap_rowsOf]; exact h.legible)
    (by rw [flatMap_rowsOf]; exact h.solid)
  rw [joinedText, ← joinStream] at htext
  have hfeed : "\n".toList = ['\n'] := rfl
  cases hlines : joinLines 0 (linesOf (marksOf (rowsOf x.tokens) x.tail)) with
  | nil =>
    simp [hlines] at htext
  | cons line lines =>
    rw [hlines, flatMap_cons, cons_append, cons.injEq] at htext
    rw [hjoin, hlines, toList_intercalate, map_cons, hfeed, intercalate_cons, ← htext.2, flatMap_map]

/-! ## Joined rows are the rows with other blanks -/

structure Joinable (t : Token) : Prop where
  line : keeps t = false
  plain : hasStructure t.text = false

lemma Row.joinable (hkept : r.isKept = false) (hplain : r.isStructured = false) : ∀ t ∈ r.tokens, Joinable t :=
  fun t ht => ⟨by simpa using any_eq_false.1 hkept t ht, by simpa using any_eq_false.1 hplain t ht⟩

lemma Row.joinable_of_begins (h : r.begins) : ∀ t ∈ r.tokens, Joinable t := by
  simp only [begins, Bool.and_eq_true, Bool.not_eq_true'] at h
  exact joinable h.1.1.1 h.1.2

lemma Row.joinable_of_goesOn (h : r.goesOn) : ∀ t ∈ r.tokens, Joinable t := by
  simp only [goesOn, Bool.and_eq_true, Bool.not_eq_true'] at h
  exact joinable h.1.1.1 h.1.2

inductive JoinStep : Option Token → Token → Token → Prop
  | same {s : Option Token} {t : Token} : JoinStep s t t
  | close {p t : Token} (hp : Joinable p) (hfeed : '\n' ∈ t.lead.toList) :
      JoinStep (some p) t (t.withLead (t.lead.toList.dropWhile (· ≠ '\n')))
  | join {p t : Token} (hp : Joinable p) (ht : Joinable t) (hfeed : '\n' ∈ t.lead.toList) : JoinStep (some p) t (t.withLead [' '])

def JoinEnd (tail tail' : List Char) (s : Option Token) : Prop :=
  tail' = tail ∨ tail' = tail.dropWhile (· ≠ '\n') ∧ ∃ p, s = some p ∧ Joinable p

structure JoinedWith (p : Option Token) (joined : Option Nat) (rows : List Row) : Prop where
  last : joined ≠ none → ∃ s, p = some s ∧ Joinable s
  span : ∀ n, joined = some (n + 1) → span? rows = some (n + 1)

lemma joinedWith_joined? (r : Row) (rows : List Row) : JoinedWith (some (r.more.getLastD r.first)) (joined? r rows) rows := by
  have hjoined {n : Nat} (h : joined? r rows = some n) : r.begins ∧ span? rows = some n := by simpa [joined?] using h
  refine ⟨fun hne => ?_, fun n h => (hjoined h).2⟩
  obtain ⟨n, hn⟩ := ne_none_iff_exists'.1 hne
  exact ⟨_, rfl, Row.joinable_of_begins (hjoined hn).1 _ r.last_mem⟩

lemma JoinedWith.next (h : JoinedWith p (some (n + 1)) (r :: rows)) :
    JoinedWith (some (r.more.getLastD r.first)) (some n) rows := by
  obtain ⟨hgoes, hspan⟩ := span?_cons (h.span n rfl)
  refine ⟨fun _ => ⟨_, rfl, Row.joinable_of_goesOn hgoes _ r.last_mem⟩, fun k hk => ?_⟩
  obtain rfl : n = k + 1 := some.inj hk
  rcases hspan with ⟨-, hn⟩ | ⟨m, hm, hn⟩
  · omega
  · rw [hm, Nat.succ.inj hn]

lemma along_row {E : Option Token → Prop} (hfirst : JoinStep p r.first first)
    (h : Token.Along JoinStep E (some (r.more.getLastD r.first)) ts us) :
    Token.Along JoinStep E p (r.tokens ++ ts) (first :: r.more ++ us) := by
  refine .cons hfirst ?_
  generalize r.first = s at h
  generalize r.more = more at h
  induction more generalizing s with
  | nil => exact h
  | cons t more ih => exact .cons .same (ih t (by rwa [getLastD_cons] at h))

lemma along_joinRows (tail : List Char) {joined : Option Nat} (hjoined : JoinedWith p joined rows)
    (hstarts : ∀ r ∈ rows.tail, startsLine r.first) (hfirst : joined ≠ none → ∀ r ∈ rows.head?, startsLine r.first) :
    Token.Along JoinStep (JoinEnd tail (joinRows tail joined rows).tail) p (rows.flatMap Row.tokens)
      (joinRows tail joined rows).tokens := by
  induction rows generalizing p joined with
  | nil =>
    cases joined with
    | none => exact .nil (.inl rfl)
    | some n => exact .nil (.inr ⟨rfl, hjoined.last (by simp)⟩)
  | cons r rows ih =>
    have hnext {joined : Option Nat} (h : JoinedWith (some (r.more.getLastD r.first)) joined rows) :=
      ih h (fun u hu => hstarts u (mem_of_mem_tail hu)) (fun _ u hu => hstarts u (mem_of_mem_head? hu))
    have hfeed (hne : joined ≠ none) : '\n' ∈ r.first.lead.toList := by simpa [startsLine] using hfirst hne r rfl
    rw [flatMap_cons]
    match joined with
    | none => exact along_row .same (hnext (joinedWith_joined? r rows))
    | some 0 =>
      obtain ⟨s, rfl, hs⟩ := hjoined.last (by simp)
      exact along_row (.close hs (hfeed (by simp))) (hnext (joinedWith_joined? r rows))
    | some (n + 1) =>
      obtain ⟨s, rfl, hs⟩ := hjoined.last (by simp)
      have hgoes := (span?_cons (hjoined.span n rfl)).1
      exact along_row (.join hs (Row.joinable_of_goesOn hgoes _ mem_cons_self) (hfeed (by simp))) (hnext hjoined.next)

lemma along_joinStream (x : Stream) :
    Token.Along JoinStep (JoinEnd x.tail (joinStream x).tail) none x.tokens (joinStream x).tokens := by
  have hnone : JoinedWith none none (rowsOf x.tokens) := ⟨fun h => absurd rfl h, fun n h => by cases h⟩
  have halong := along_joinRows x.tail hnone (startsLine_rowsOf x.tokens) (fun h => absurd rfl h)
  rwa [flatMap_rowsOf] at halong

lemma gap_of_joinable {s : Token} (h : Joinable s) (hne : lead ≠ []) : s.Gap t (t.withLead lead) :=
  ⟨fun _ hnil => absurd (by rwa [lead_withLead] at hnil) hne, fun hline => by rw [not_isLineComment_of_keeps h.line] at hline; cases hline⟩

lemma relaid_join {s : Option Token} (h : Token.Along JoinStep (JoinEnd tail tail') s ts us)
    (hlegible : Legible ts tail) (hsolid : ∀ t ∈ ts, t.Solid)
    (hended : Token.Ended s (chars ts ++ tail)) : Relaid tail tail' s ts us := by
  have hsubset (cs : List Char) : Reuses cs (cs.dropWhile (· ≠ '\n')) :=
    fun c hc => .inl ((dropWhile_suffix _).subset hc)
  induction h with
  | nil hend =>
    rcases hend with rfl | ⟨rfl, p, rfl, hp⟩
    · exact .nil (Reuses.refl _) hended
    · refine .nil (hsubset tail) fun q hq hline => ?_
      obtain rfl : p = q := by simpa using hq
      simp [not_isLineComment_of_keeps hp.line] at hline
  | cons hstep hsteps ih =>
    rename_i s t u ts us
    obtain ⟨hst, hsts⟩ := forall_mem_cons.1 hsolid
    have hlead := hended.lead hlegible
    obtain ⟨-, hreads, hlegible⟩ := hlegible
    have hrest := ih hlegible hsts (ended_of_reads hreads)
    cases hstep with
    | same => exact .cons hst.kin_refl (Reuses.refl _) (fun q hq => .of_lead id (hlead q hq) id) hrest
    | close hp hfeed =>
      rename_i p
      refine .cons (hst.kin_withLead _) (by rw [lead_withLead]; exact hsubset _) (fun q hq => ?_) hrest
      obtain rfl : p = q := by simpa using hq
      obtain ⟨line, w, hw, hline⟩ := exists_line hfeed
      exact gap_of_joinable hp (by rw [hw, dropWhile_line hline]; exact cons_ne_nil _ _)
    | join hp ht hfeed =>
      rename_i p
      have hspace : Reuses t.lead.toList [' '] := fun c hc => .inr (.inl (by simpa using hc))
      refine .cons (hst.kin_withLead _) (by rwa [lead_withLead]) (fun q hq => ?_) hrest
      obtain rfl : p = q := by simpa using hq
      exact gap_of_joinable hp (cons_ne_nil _ _)

lemma relaid_joinStream (h : x.Neat) : x.Relaid (joinStream x) :=
  relaid_join (along_joinStream x) h.legible h.solid (ended_none _)

end DeviceForge.Layout
