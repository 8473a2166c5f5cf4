import DeviceForge.Proofs.Class.Wrap
import DeviceForge.Proofs.Layout.Rejoined
/-!
# Physical lines

What a writer makes of a line that is too long: pieces that hold the characters of the line, of which no piece is empty and all but the last
are narrower than the writer's column.
-/

namespace DeviceForge.Writer

open List Text

variable {cs pre post separator line head further : List Char} {n k pos skip opened column : Nat} {place : Place} {x : Nat × Nat}

/-! ## Separators that are found -/

lemma exists_occurrence (pos : Nat) (hcs : cs = pre ++ (separator ++ post)) (hskip : skip ≤ pre.length) (hne : separator ≠ []) :
    ∃ m ∈ occurrences separator pos skip cs, m ≤ pos + pre.length ∧ pos + pre.length < m + separator.length := by
  induction cs generalizing pos skip pre with
  | nil => simp [hne] at hcs
  | cons c cs ih =>
    have hlater (skip : Nat) (hpos : 0 < pre.length) (hskip : skip ≤ pre.length - 1) : ∃ m ∈ occurrences separator (pos + 1) skip cs,
        m ≤ pos + pre.length ∧ pos + pre.length < m + separator.length := by
      obtain ⟨d, pre, rfl⟩ := exists_cons_of_length_pos hpos
      obtain ⟨m, hm, hle, hlt⟩ := ih (pos + 1) (cons.inj hcs).2 hskip
      rw [length_cons]
      exact ⟨m, hm, by omega, by omega⟩
    cases skip with
    | succ skip => exact hlater skip (by omega) (by omega)
    | zero =>
      rw [occurrences]
      split
      · by_cases hover : pre.length < separator.length
        · exact ⟨pos, mem_cons_self, by omega, by omega⟩
        · have hpos := length_pos_iff.2 hne
          obtain ⟨m, hm, hbounds⟩ := hlater (separator.length - 1) (by omega) (by omega)
          exact ⟨m, mem_cons_of_mem _ hm, hbounds⟩
      · rename_i hprefix
        refine hlater 0 (length_pos_iff.2 ?_) (Nat.zero_le _)
        rintro rfl
        exact hprefix (List.isPrefixOf_iff_prefix.2 ⟨post, hcs.symm⟩)

lemma quote_of_mem_literals (h : place.Proper) (hx : x ∈ literals place opened pos cs) :
    pos ≤ x.2 ∧ ∃ c, cs[x.2 - pos]? = some c ∧ isQuote c := by
  induction cs generalizing place opened pos with
  | nil => cases hx
  | cons c cs ih =>
    rw [literals_cons, mem_append] at hx
    rcases hx with hx | hx
    · split_ifs at hx with hclosed
      · obtain rfl := mem_singleton.1 hx
        refine ⟨le_rfl, c, by simp, ?_⟩
        cases place with
        | plain => exact absurd rfl hclosed.1
        | literal quote escaped =>
          obtain ⟨-, hnext⟩ := hclosed
          rw [Place.next] at hnext
          split_ifs at hnext with hescaped hslash hquote
          exact hquote ▸ h
      · cases hx
    · obtain ⟨hle, d, hd, hquote⟩ := ih (h.next c) hx
      refine ⟨by omega, d, ?_, hquote⟩
      rw [show x.2 - pos = x.2 - (pos + 1) + 1 by omega, getElem?_cons_succ, hd]

lemma separators_ends (hsep : (separator, k) ∈ separators) :
    k < separator.length ∧ separator.getLast? = some ' ' ∧ (∀ c ∈ separator, isQuote c = false) ∧
      (k = 0 → separator.head? = some ' ') ∧ ∀ i < separator.length, 0 < i → separator[i]? = separator.head? → k = 0 := by
  have hall : separators.all (fun x => decide (x.2 < x.1.length) && x.1.getLast? = some ' ' && x.1.all (!isQuote ·) &&
      (x.2 ≠ 0 || x.1.head? = some ' ') &&
      (range x.1.length).all fun i => i = 0 || x.1[i]? ≠ x.1.head? || x.2 = 0) = true := by decide
  have h := all_eq_true.1 hall _ hsep
  simp only [Bool.and_eq_true, Bool.or_eq_true, decide_eq_true_eq, all_eq_true, Bool.not_eq_true', mem_range] at h
  obtain ⟨⟨⟨⟨hk, hlast⟩, hquotes⟩, hhead⟩, hover⟩ := h
  refine ⟨hk, hlast, hquotes, fun hzero => hhead.resolve_left (by simp [hzero]), fun i hi hpos heq => ?_⟩
  rcases hover i hi with (hzero | hne) | hk
  · omega
  · exact absurd heq hne
  · exact hk

structure Trimmed (line : List Char) : Prop where
  ne_nil : line ≠ []
  head : ∀ c ∈ line.head?, Text.isSpace c = false
  last : ∀ c ∈ line.getLast?, Text.isSpace c = false

lemma inLiteral_of_breaks_nil (hline : Trimmed line) {room : Nat} (h : breaks line room = []) (hsep : (separator, k) ∈ separators)
    (heq : line = pre ++ (separator ++ post)) (hroom : byteLength (line.take (pre.length + k)) < room) :
    inLiteral line (pre.length + k) := by
  obtain ⟨hk, hlast, hquotes, hspace, hover⟩ := separators_ends hsep
  have hne : separator ≠ [] := by rintro rfl; simp at hk
  obtain ⟨m, hm, hle, hlt⟩ := exists_occurrence 0 heq (Nat.zero_le _) hne
  obtain ⟨pre', post', heq', hm'⟩ := exists_of_mem_occurrences hm
  rw [Nat.zero_add] at hle hlt hm'
  subst hm'
  have hlen : pre'.length + separator.length < line.length := by
    have hpost : post' ≠ [] := by
      rintro rfl
      have hbad := hline.last ' ' (by rw [heq', append_nil, getLast?_append, hlast]; rfl)
      cases hbad
    have := length_pos_iff.2 hpost
    rw [heq', length_append, length_append]
    omega
  have hpos : 0 < pre'.length + k := by
    by_contra hzero
    obtain ⟨hnil, rfl⟩ : pre' = [] ∧ k = 0 := by
      rw [← length_eq_zero_iff]
      omega
    obtain ⟨c, cs, hcs⟩ := exists_cons_of_ne_nil hne
    have hbad := hline.head ' ' (by rw [heq', hnil, nil_append, head?_append, hspace rfl]; rfl)
    cases hbad
  have hfits : byteLength (line.take (pre'.length + k)) < room := by
    refine lt_of_le_of_lt ?_ hroom
    have hprefix : line.take (pre'.length + k) <+: line.take (pre.length + k) := take_prefix_take_left (by omega)
    obtain ⟨more, hmore⟩ := hprefix
    rw [← hmore, byteLength_append]
    omega
  by_contra hout
  have hin : inLiteral line (pre'.length + k) := by
    by_contra hnot
    have hmem : pre'.length + k ∈ breaks line room := by
      simp only [breaks, mem_filter, mem_flatMap, mem_map, Bool.and_eq_true, decide_eq_true_eq]
      exact ⟨⟨(separator, k), hsep, _, hm, by simp⟩, ⟨⟨hpos, hfits⟩, by omega⟩, by simpa [inLiteral] using hnot⟩
    simp [h] at hmem
  -- the literal goes on over the whole separator that was found
  rw [inLiteral_iff] at hin
  obtain ⟨x, hx, hfirst, hsecond⟩ := hin
  refine hout ((inLiteral_iff _ _).2 ⟨x, hx, by omega, ?_⟩)
  by_contra hclosed
  obtain ⟨-, c, hc, hquote⟩ := quote_of_mem_literals Place.proper_plain hx
  have hzero : k = 0 := by
    by_cases hsame : pre.length = pre'.length
    · omega
    refine hover (pre.length - pre'.length) (by omega) (by omega) ?_
    have hat : (line)[pre.length]? = separator.head? := by
      rw [heq, getElem?_append_right le_rfl, Nat.sub_self, ← head?_eq_getElem?, head?_append_of_ne_nil _ hne]
    rw [← hat, heq', getElem?_append_right hle, getElem?_append_left (by omega)]
  rw [Nat.sub_zero, heq', getElem?_append_right (by omega), getElem?_append_left (by omega)] at hc
  simp [hquotes c (mem_of_getElem? hc)] at hquote

/-! ## Pieces of a line -/

/-- What the pieces of a line are like. -/
structure Wrapped (column : Nat) (line : List Char) (pieces : List String) : Prop where
  /-- The pieces hold the characters of the line, apart from spaces. -/
  visible : (pieces.flatMap String.toList).filter (!Text.isSpace ·) = line.filter (!Text.isSpace ·)
  solid : ∀ piece ∈ pieces, ∃ c ∈ piece.toList, Text.isSpace c = false
  few : pieces.length ≤ (line.filter (!Text.isSpace ·)).length
  /-- A piece that another one follows stays below the column. -/
  narrow : ∀ piece ∈ pieces.dropLast, byteLength piece.toList < column
  /-- A piece that reaches the column has no separator outside of literals with room for what stands before the break. -/
  tight : ∀ piece ∈ pieces, column ≤ byteLength piece.toList → ∀ indent content, piece.toList = indent ++ content → Spaces indent →
    (∀ c ∈ content.head?, Text.isSpace c = false) → ∀ x ∈ separators, ∀ pre post, content = pre ++ (x.1 ++ post) →
      byteLength (indent ++ content.take (pre.length + x.2)) < column → inLiteral content (pre.length + x.2) = true

lemma filter_spaces {w : List Char} (hw : Spaces w) : w.filter (!Text.isSpace ·) = [] :=
  filter_eq_nil_iff.2 fun c hc => by simp [hw c hc]

lemma indent_inj {indent content : List Char} (h : indent ++ content = head ++ line) (hindent : Spaces indent) (hhead : Spaces head)
    (hcontent : ∀ c ∈ content.head?, Text.isSpace c = false) (hline : ∀ c ∈ line.head?, Text.isSpace c = false) :
    indent = head ∧ content = line := by
  have hdrop {w cs : List Char} (hw : Spaces w) (hcs : ∀ c ∈ cs.head?, Text.isSpace c = false) : (w ++ cs).dropWhile Text.isSpace = cs := by
    rw [dropWhile_append_of_pos hw]
    cases cs with
    | nil => rfl
    | cons c cs => exact dropWhile_cons_of_neg (by simp [hcs c rfl])
  have hrest : content = line := by rw [← hdrop hindent hcontent, h, hdrop hhead hline]
  subst hrest
  exact ⟨append_cancel_right h, rfl⟩

lemma wrapped_whole (hhead : Spaces head) (hline : Trimmed line)
    (h : column ≤ byteLength (head ++ line) → breaks line (column - byteLength head) = []) :
    Wrapped column line [String.ofList (head ++ line)] := by
  obtain ⟨c, hc, hspace⟩ : ∃ c ∈ line, Text.isSpace c = false := by
    obtain ⟨c, cs, rfl⟩ := exists_cons_of_ne_nil hline.ne_nil
    exact ⟨c, mem_cons_self, hline.head c rfl⟩
  refine ⟨by simp [filter_spaces hhead], forall_mem_singleton.2 ⟨c, by simp [hc], hspace⟩, ?_, by simp, ?_⟩
  · exact length_pos_of_mem (mem_filter.2 ⟨hc, by simp [hspace]⟩)
  · refine forall_mem_singleton.2 ?_
    rw [String.toList_ofList]
    intro hwide indent content heq hindent hcontent x hx pre post hsep hfits
    obtain ⟨rfl, rfl⟩ := indent_inj heq.symm hindent hhead hcontent hline.head
    rw [byteLength_append] at hfits
    exact inLiteral_of_breaks_nil hline (h hwide) hx hsep (by omega)

lemma trimmed_break (hline : Trimmed line) {room : Nat} (hn : n ∈ breaks line room) :
    byteLength (line.take n) < room ∧ (∃ c ∈ dropWhileEnd Text.isSpace (line.take n), Text.isSpace c = false) ∧
      Trimmed ((line.drop (n + 1)).dropWhile Text.isSpace) ∧
      line.filter (!Text.isSpace ·) = (dropWhileEnd Text.isSpace (line.take n)).filter (!Text.isSpace ·) ++
        ((line.drop (n + 1)).dropWhile Text.isSpace).filter (!Text.isSpace ·) := by
  obtain ⟨⟨separator, k⟩, hsep, pre, post, heq, rfl, -⟩ := separator_of_mem_breaks hn
  obtain ⟨p, q, rfl, rfl, -⟩ := separators_parts hsep
  simp only [breaks, mem_filter, Bool.and_eq_true, decide_eq_true_eq] at hn
  obtain ⟨-, ⟨⟨hpos, hfits⟩, hlen⟩, -⟩ := hn
  have hcut : line = pre ++ p ++ ' ' :: (q ++ post) := by simp [heq]
  rw [← length_append] at hpos hfits hlen ⊢
  have htake : line.take (pre ++ p).length = pre ++ p := by rw [hcut, take_left]
  have hdrop : line.drop ((pre ++ p).length + 1) = q ++ post := by rw [hcut, ← drop_drop, drop_left]; rfl
  rw [htake] at hfits ⊢
  rw [hdrop]
  obtain ⟨w, hw, hpre⟩ := dropWhileEnd_split (pre ++ p)
  generalize hx : pre ++ p = x at *
  generalize hy : q ++ post = y at *
  have hne : y ≠ [] := by
    rintro rfl
    rw [hcut, length_append, length_singleton] at hlen
    omega
  have hlast : ∀ c ∈ y.getLast?, Text.isSpace c = false := by
    intro c hc
    refine hline.last c ?_
    rw [hcut, getLast?_append, getLast?_cons, Option.mem_def.1 hc]
    rfl
  have hhead : ∀ c ∈ x.head?, Text.isSpace c = false := by
    intro c hc
    refine hline.head c ?_
    rw [hcut, head?_append, Option.mem_def.1 hc]
    rfl
  refine ⟨hfits, ?_, ⟨?_, ?_, ?_⟩, ?_⟩
  · obtain ⟨c, cs, rfl⟩ := exists_cons_of_length_pos hpos
    have hc := hhead c rfl
    exact ⟨c, by rw [dropWhileEnd_cons hc]; exact mem_cons_self, hc⟩
  · obtain ⟨y, d, rfl⟩ := (eq_nil_or_concat' y).resolve_left hne
    rw [Ne, dropWhile_eq_nil_iff]
    intro hall
    have hd := hall d (by simp)
    simp [hlast d (by simp)] at hd
  · intro c hc
    have h := head?_dropWhile_not Text.isSpace y
    rw [Option.mem_def.1 hc] at h
    simpa using h
  · intro c hc
    obtain ⟨v, hv⟩ := dropWhile_suffix (l := y) Text.isSpace
    refine hlast c ?_
    rw [← hv, getLast?_append, Option.mem_def.1 hc]
    rfl
  · have hspaces : (y.takeWhile Text.isSpace).filter (!Text.isSpace ·) = [] := filter_spaces fun c hc => mem_takeWhile_imp hc
    conv_lhs => rw [hcut, hpre, ← takeWhile_append_dropWhile (p := Text.isSpace) (l := y)]
    rw [filter_append, filter_append, filter_spaces hw, filter_cons_of_neg (by decide), filter_append, hspaces, append_nil, nil_append]

lemma wrapped_wrap (hhead : Spaces head) (hfurther : Spaces further) (hline : Trimmed line) (column : Nat) :
    Wrapped column line (wrap column further head line) := by
  induction hlen : line.length using Nat.strong_induction_on generalizing head line with
  | _ l ih =>
    rcases wrap_cases column further head line with ⟨hwrap, hwide⟩ | ⟨n, hn, hwrap⟩
    · rw [hwrap]
      exact wrapped_whole hhead hline hwide
    · obtain ⟨hfits, hsolid, hrest, hvisible⟩ := trimmed_break hline hn
      have hshorter : ((line.drop (n + 1)).dropWhile Text.isSpace).length < l := by
        have hle := (dropWhile_suffix (l := line.drop (n + 1)) Text.isSpace).length_le
        have hpos := length_pos_iff.2 hline.ne_nil
        rw [length_drop] at hle
        omega
      have h := ih _ hshorter hfurther hrest rfl
      have hfirst : byteLength (String.ofList (head ++ dropWhileEnd Text.isSpace (line.take n))).toList < column := by
        obtain ⟨w, -, hw⟩ := dropWhileEnd_split (line.take n)
        have := congrArg byteLength hw
        rw [byteLength_append] at this
        rw [String.toList_ofList, byteLength_append]
        omega
      have hne : wrap column further further ((line.drop (n + 1)).dropWhile Text.isSpace) ≠ [] := by
        intro hnil
        have hnone := h.visible
        rw [hnil] at hnone
        obtain ⟨c, cs, hcs⟩ := exists_cons_of_ne_nil hrest.ne_nil
        rw [hcs] at hnone
        simp [hrest.head c (by rw [hcs]; rfl)] at hnone
      rw [hwrap]
      obtain ⟨c, hc, hspace⟩ := hsolid
      refine ⟨?_, forall_mem_cons.2 ⟨⟨c, by simp [hc], hspace⟩, h.solid⟩, ?_, ?_,
        forall_mem_cons.2 ⟨fun hwide => absurd hfirst (by omega), h.tight⟩⟩
      · rw [flatMap_cons, filter_append, h.visible, hvisible, String.toList_ofList, filter_append, filter_spaces hhead, nil_append]
      · have hpos := length_pos_of_mem (mem_filter (p := (!Text.isSpace ·)).2 ⟨hc, by simp [hspace]⟩)
        have := h.few
        rw [length_cons, hvisible, length_append]
        omega
      · rw [dropLast_cons_of_ne_nil hne]
        exact forall_mem_cons.2 ⟨hfirst, h.narrow⟩

/-! ## Writing a text -/

lemma trimmed_trim {text : String} (h : (Text.trim text).toList ≠ []) : Trimmed (Text.trim text).toList := by
  rw [Text.trim, String.toList_ofList] at h ⊢
  refine ⟨h, fun c hc => ?_, getLast?_dropWhileEnd _ _⟩
  have hhead := head?_dropWhile_not Text.isSpace text.toList
  obtain ⟨w, hw⟩ := dropWhileEnd_prefix Text.isSpace (text.toList.dropWhile Text.isSpace)
  rw [← hw, head?_append, Option.mem_def.1 hc] at hhead
  simpa using hhead

def Written (column : Nat) (line : String) (block : List String) : Prop :=
  if isEmptyLine line then block = [""] else Wrapped column line.toList block

lemma Written.visible {line : String} {block : List String} (h : Written column line block) :
    (block.flatMap String.toList).filter (!Text.isSpace ·) = line.toList.filter (!Text.isSpace ·) := by
  rw [Written] at h
  split_ifs at h with hempty
  · rw [h, filter_spaces (all_eq_true.1 hempty)]
    rfl
  · exact h.visible

lemma written_line (w : Writer) (text : String) :
    ∃ block, (w.line text).lines = w.lines ++ block ∧ (w.line text).column = w.column ∧ Written w.column text block := by
  have hvisible := Layout.visible_trim text
  have hcolumn : (w.line text).column = w.column := by
    rw [line]
    split <;> rfl
  by_cases htrim : (Text.trim text).toList = []
  · refine ⟨[""], line_blank w htrim, hcolumn, ?_⟩
    rw [htrim, eq_comm, filter_nil, filter_eq_nil_iff] at hvisible
    have hempty : isEmptyLine text = true := all_eq_true.2 fun c hc => by simpa using hvisible c hc
    rw [Written, if_pos hempty]
  · obtain ⟨level, hlines⟩ := line_wrap w htrim
    have htrimmed := trimmed_trim htrim
    have h := wrapped_wrap (blank_indent level).spaces (blank_indent (level + 1)).spaces htrimmed w.column
    refine ⟨_, hlines, hcolumn, ?_⟩
    rw [Written, if_neg]
    · exact ⟨hvisible ▸ h.visible, h.solid, hvisible ▸ h.few, h.narrow, h.tight⟩
    · intro hempty
      rw [filter_spaces (all_eq_true.1 hempty)] at hvisible
      obtain ⟨c, cs, hcs⟩ := exists_cons_of_ne_nil htrim
      simp [hcs, htrimmed.head c (by rw [hcs]; rfl)] at hvisible

lemma written_writeLines (w : Writer) (texts : List String) :
    ∃ blocks, (w.writeLines texts).lines = w.lines ++ blocks.flatten ∧ Forall₂ (Written w.column) texts blocks := by
  induction texts generalizing w with
  | nil => exact ⟨[], by simp [writeLines], .nil⟩
  | cons text texts ih =>
    obtain ⟨block, hlines, hcolumn, hblock⟩ := written_line w text
    obtain ⟨blocks, hrest, hblocks⟩ := ih (w.line text)
    rw [hcolumn] at hblocks
    refine ⟨block :: blocks, ?_, .cons hblock hblocks⟩
    rw [flatten_cons, ← append_assoc, ← hlines, writeLines, foldl_cons, ← writeLines, hrest]

lemma visible_endedLines (ls : List (List Char)) :
    (endedLines ls).flatten.filter (!Text.isSpace ·) = ls.flatten.filter (!Text.isSpace ·) := by
  fun_induction endedLines ls with
  | case1 => rfl
  | case2 last hempty => simp [isEmpty_iff.1 hempty]
  | case3 last _ => rfl
  | case4 line rest _ ih =>
    rw [flatten_cons, flatten_cons, filter_append, filter_append, ih]
    congr 1
    split_ifs with hreturn
    · obtain ⟨line, rfl⟩ := getLast?_eq_some_iff.1 hreturn
      rw [dropLast_concat, filter_append]
      simp
      decide
    · rfl

lemma visible_lines (text : String) :
    ((Text.lines text).flatMap String.toList).filter (!Text.isSpace ·) = text.toList.filter (!Text.isSpace ·) := by
  have hflat : (Text.lines text).flatMap String.toList = (endedLines (splitAtChars (· == '\n') text.toList)).flatten := by
    simp [Text.lines, flatMap_def]
  rw [hflat, visible_endedLines]
  generalize text.toList = cs
  induction cs using lineInduction with
  | last line hline => simp [splitAtChars_line hline]
  | more line rest hline ih =>
    rw [splitAtChars_append hline, flatten_cons, filter_append, ih, filter_append, filter_cons_of_neg (by decide)]

/-- Writing a text writes a block of pieces for each of its lines: an empty line for an empty one, and for every other one pieces that are
not empty, stay below the column unless they are the last, and are broken wherever they can be. Nothing but spaces is added or lost. -/
theorem write_wraps (w : Writer) (text : String) :
    ∃ blocks : List (List String), (w.write text).lines = w.lines ++ blocks.flatten ∧
      Forall₂ (fun line block => if isEmptyLine line then block = [""] else Wrapped w.column line.toList block) (Text.lines text) blocks ∧
      (blocks.flatten.flatMap String.toList).filter (!Text.isSpace ·) = text.toList.filter (!Text.isSpace ·) := by
  obtain ⟨blocks, hlines, hblocks⟩ := written_writeLines w (Text.lines text)
  refine ⟨blocks, hlines, hblocks, ?_⟩
  rw [← visible_lines]
  generalize Text.lines text = lines at hblocks
  clear hlines
  induction hblocks with
  | nil => rfl
  | cons hblock _ ih => rw [flatten_cons, flatMap_append, filter_append, ih, flatMap_cons, filter_append, hblock.visible]

end DeviceForge.Writer
