import DeviceForge.Proofs.Layout.EmptyLines
/-!
# Braces among tokens

`placeBraces` writes a text character by character and looks at what it has written.
-/

namespace DeviceForge.Layout

open Segment Text String List Token Lexeme

variable {xs ys : List (Char × Segment.Kind)} {t s : Token} {rest lead tail text : List Char} {c d : Char}
  {ts : List Token} {x : Stream}

def isOpen (t : Token) : Bool :=
  t.text = "\x7b"

def isClose (t : Token) : Bool :=
  t.text = "\x7d"

def openedLead (lead : List Char) : List Char :=
  let rest := lead.dropWhile isTab
  if rest.head? = some '\n' then rest else '\n' :: rest

def afterLead (s t : Token) : List Char :=
  if isOpen s then openedLead t.lead.toList
  else if isClose s && t.text = "else" then ['\n']
  else t.lead.toList

def braceLead (s : Option Token) (t : Token) : List Char :=
  match s with
  | none => if isOpen t then [] else t.lead.toList
  | some s =>
    let lead := afterLead s t
    if isOpen t then ['\n']
    else if isClose t && !lead.contains '\n' then dropWhileEnd isTab lead ++ ['\n']
    else lead

def textBefore (ts : List Token) (t : Token) : List Char :=
  if ts.head?.any isOpen then dropWhileEnd isBlank t.text.toList else t.text.toList

def placeTokens (s : Option Token) : List Token → List Token
  | [] => []
  | t :: ts => ⟨t.kind, ofList (braceLead s t), ofList (textBefore ts t)⟩ :: placeTokens (some t) ts

def placeTail (s : Option Token) (ts : List Token) (tail : List Char) : List Char :=
  if (ts.getLast?.or s).any isOpen then
    match tail.dropWhile isTab with
    | [] => []
    | c :: rest => if c = '\n' then c :: rest else '\n' :: c :: rest
  else tail

lemma placeTail_cons (s : Option Token) (t : Token) (ts : List Token) (tail : List Char) :
    placeTail s (t :: ts) tail = placeTail (some t) ts tail := by
  rw [placeTail, placeTail, getLast?_cons]
  cases ts.getLast? <;> rfl

def placeStream (x : Stream) : Stream :=
  ⟨placeTokens none x.tokens, placeTail none x.tokens x.tail⟩

/-! ## Writing characters -/

def writeMarked (skip : Nat) (out : List Char) (xs : List (Char × Segment.Kind)) : List Char :=
  writeBraces skip out (xs.map (·.1)) (xs.map (·.2))

def isBrace (x : Char × Segment.Kind) : Prop :=
  x.2 = .code ∧ (x.1 = '\x7b' ∨ x.1 = '\x7d')

lemma writeMarked_nil (skip : Nat) (out : List Char) : writeMarked skip out [] = out := by
  simp [writeMarked, writeBraces]

lemma writeMarked_append (h : ∀ x ∈ xs, ¬isBrace x) (out : List Char) (ys : List (Char × Segment.Kind)) :
    writeMarked 0 out (xs ++ ys) = writeMarked 0 ((xs.map (·.1)).reverse ++ out) ys := by
  induction xs generalizing out with
  | nil => rfl
  | cons x xs ih =>
    obtain ⟨c, kind⟩ := x
    obtain ⟨hx, hxs⟩ := forall_mem_cons.1 h
    have hopen : ¬(kind = .code ∧ c = '\x7b') := fun hc => hx ⟨hc.1, .inl hc.2⟩
    have hclose : ¬(kind = .code ∧ c = '\x7d') := fun hc => hx ⟨hc.1, .inr hc.2⟩
    have := ih hxs (c :: out)
    rw [writeMarked] at this
    rw [writeMarked, cons_append, map_cons, map_cons, writeBraces, if_neg hopen, if_neg hclose, this,
      map_cons, reverse_cons, List.append_assoc, singleton_append]

lemma writeMarked_skip (xs : List (Char × Segment.Kind)) (out : List Char) (ys : List (Char × Segment.Kind)) :
    writeMarked xs.length out (xs ++ ys) = writeMarked 0 out ys := by
  induction xs with
  | nil => rfl
  | cons x xs ih =>
    rw [writeMarked] at ih
    rw [writeMarked, length_cons, cons_append, map_cons, map_cons, writeBraces, ih]

def openBase (out : List Char) : List Char :=
  let out := out.dropWhile isBlank
  if out.isEmpty then out else '\n' :: out

def closeBase (out : List Char) : List Char :=
  if (out.takeWhile (· ≠ '\n')).all isBlank then out else '\n' :: out.dropWhile isTab

def baseOf (t : Token) (out : List Char) : List Char :=
  if isOpen t then openBase out else if isClose t then closeBase out else out

def resume (t : Token) (base rest : List Char) : Nat × List Char :=
  if isOpen t then
    ((rest.takeWhile isTab).length, match rest.dropWhile isTab with
      | [] => '\x7b' :: base
      | c :: _ => if c = '\n' then '\x7b' :: base else '\n' :: '\x7b' :: base)
  else if isClose t then
    (skippedAfterClose rest, if startsElse (rest.dropWhile isBlank) then '\n' :: '\x7d' :: base else '\x7d' :: base)
  else (0, t.text.toList.reverse ++ base)

lemma writeMarked_token (hreads : Token.Reads t rest) (out : List Char) (hys : ys.map (·.1) = rest) :
    writeMarked 0 out (t.text.toList.map (·, t.kind.segment) ++ ys) =
      writeMarked (resume t (baseOf t out) rest).1 (resume t (baseOf t out) rest).2 ys := by
  by_cases hopen : isOpen t
  · have htext : t.text = "\x7b" := by simpa [isOpen] using hopen
    have hkind := kind_of_bracket hreads (d := '\x7b') (by decide) htext
    rw [resume, if_pos hopen, baseOf, if_pos hopen, htext, hkind, ← hys]
    simp only [writeMarked, reduceToList, map_cons, map_nil, singleton_append, writeBraces,
      Token.Kind.segment, true_and, if_true]
    rfl
  by_cases hclose : isClose t
  · have htext : t.text = "\x7d" := by simpa [isClose] using hclose
    have hkind := kind_of_bracket hreads (d := '\x7d') (by decide) htext
    rw [resume, if_neg hopen, if_pos hclose, baseOf, if_neg hopen, if_pos hclose, htext, hkind, ← hys]
    simp only [writeMarked, reduceToList, map_cons, map_nil, singleton_append, writeBraces,
      Token.Kind.segment, true_and]
    rfl
  · have hfst : (t.text.toList.map (·, t.kind.segment)).map (·.1) = t.text.toList := by
      rw [List.map_map]
      exact map_id _
    rw [resume, if_neg hopen, if_neg hclose, baseOf, if_neg hopen, if_neg hclose, writeMarked_append, hfst]
    · intro x hx hbrace
      obtain ⟨c, hc, rfl⟩ := mem_map.1 hx
      rcases hbrace with ⟨hcode, rfl | rfl⟩
      · exact hopen (by simpa [isOpen] using text_of_bracket hreads hcode (by decide) hc)
      · exact hclose (by simpa [isClose] using text_of_bracket hreads hcode (by decide) hc)

/-! ## Between two tokens -/

lemma not_tab_of_not_blank (h : isBlank c = false) : isTab c = false := by
  simp only [isBlank, Bool.or_eq_false_iff] at h
  simp [isTab, h.1.1.1.1, h.1.1.1.2]

lemma extent_e (rest : List Char) : Token.extent 'e' rest = (.identifier, Lexeme.word rest) := by
  simp [Token.extent]

lemma word_eq_zero_iff (cs : List Char) : word cs = 0 ↔ cs.head?.any isWordChar = false := by
  cases cs with
  | nil => simp [Lexeme.word]
  | cons c cs => by_cases hc : isWordChar c = true <;> simp [Lexeme.word, hc]

lemma startsElse_iff (h : Token.Reads t rest) :
    startsElse (t.text.toList ++ rest) ↔ t.text = "else" := by
  obtain ⟨c, cs, htext, -, hext⟩ := h
  have hlist : "else".toList = 'e' :: ['l', 's', 'e'] := by simp
  have hword (more : List Char) : Lexeme.word (['l', 's', 'e'] ++ more) = 3 + Lexeme.word more := by
    simp only [Lexeme.word, cons_append, nil_append, takeWhile_cons, isWordChar]
    simp
    omega
  rw [startsElse, hlist]
  constructor
  · intro helse
    rw [Bool.and_eq_true, isPrefixOf_iff_prefix] at helse
    obtain ⟨⟨more, hmore⟩, hnext⟩ := helse
    rw [← hmore] at hnext
    have hmore' : 'e' :: (['l', 's', 'e'] ++ more) = c :: (cs ++ rest) := by
      rw [htext] at hmore
      exact hmore
    obtain ⟨rfl, hcs⟩ := cons.inj hmore'
    have hzero : Lexeme.word more = 0 := by
      rw [word_eq_zero_iff]
      simpa using hnext
    rw [extent_e, ← hcs, hword, hzero] at hext
    have hlen : cs.length = ['l', 's', 'e'].length := (Prod.mk.inj hext).2.symm
    rw [← toList_inj, htext, (append_inj hcs.symm hlen).1, hlist]
  · intro helse
    rw [helse, hlist] at htext
    obtain ⟨rfl, rfl⟩ := cons.inj htext
    rw [extent_e, hword] at hext
    have hzero : Lexeme.word rest = 0 := by
      have := (Prod.mk.inj hext).2
      simpa using this
    rw [word_eq_zero_iff] at hzero
    simp [helse, hzero]

lemma writeMarked_blank (h : Token.Blank lead) (out : List Char) (ys : List (Char × Segment.Kind)) :
    writeMarked 0 out (lead.map (·, .code) ++ ys) = writeMarked 0 (lead.reverse ++ out) ys := by
  have hfst : (lead.map (·, Segment.Kind.code)).map (·.1) = lead := by
    rw [List.map_map]
    exact map_id _
  rw [writeMarked_append, hfst]
  intro x hx hbrace
  obtain ⟨d, hd, rfl⟩ := mem_map.1 hx
  rcases hbrace with ⟨-, rfl | rfl⟩ <;> exact absurd (h _ hd) (by decide)

lemma writeMarked_tabs (h : Token.Blank lead) (out : List Char) (ys : List (Char × Segment.Kind)) :
    writeMarked (lead.takeWhile isTab).length out (lead.map (·, .code) ++ ys) =
      writeMarked 0 ((lead.dropWhile isTab).reverse ++ out) ys := by
  have hskip := writeMarked_skip ((lead.takeWhile isTab).map (·, .code)) out ((lead.dropWhile isTab).map (·, .code) ++ ys)
  rw [← List.append_assoc, ← map_append, List.takeWhile_append_dropWhile, List.length_map] at hskip
  rw [hskip, writeMarked_blank fun d hd => h d ((dropWhile_suffix _).subset hd)]

lemma writeMarked_lead (hblank : Token.Blank t.lead.toList) (hreads : Token.Reads t rest) (base : List Char) :
    writeMarked (resume s base (t.lead.toList ++ (t.text.toList ++ rest))).1
        (resume s base (t.lead.toList ++ (t.text.toList ++ rest))).2 (t.lead.toList.map (·, .code) ++ ys) =
      writeMarked 0 ((afterLead s t).reverse ++ (s.text.toList.reverse ++ base)) ys := by
  obtain ⟨c, cs, htext, hc, -⟩ := id hreads
  by_cases hopen : isOpen s
  · have hs : s.text = "\x7b" := by simpa [isOpen] using hopen
    have htab := not_tab_of_not_blank hc
    rw [resume, if_pos hopen, htext, cons_append, takeWhile_append_cons _ htab, dropWhile_append_cons _ htab,
      writeMarked_tabs hblank, afterLead, if_pos hopen, openedLead, hs]
    cases t.lead.toList.dropWhile isTab with
    | nil =>
      have hfeed : c ≠ '\n' := by
        rintro rfl
        cases hc
      simp [hfeed]
    | cons d lead => by_cases hd : d = '\n' <;> simp [hd]
  by_cases hclose : isClose s
  · have hs : s.text = "\x7d" := by simpa [isClose] using hclose
    have hdrop : (t.lead.toList ++ (t.text.toList ++ rest)).dropWhile isBlank = t.text.toList ++ rest := by
      rw [htext]
      exact (takeWhile_blank hblank hc _).2
    have htake : (t.lead.toList ++ (t.text.toList ++ rest)).takeWhile isBlank = t.lead.toList := by
      rw [htext]
      exact (takeWhile_blank hblank hc _).1
    have helse := startsElse_iff hreads
    rw [resume, if_neg hopen, if_pos hclose, skippedAfterClose, hdrop, htake, afterLead, if_neg hopen, hclose, hs]
    by_cases hword : t.text = "else"
    · rw [if_pos (helse.2 hword), if_pos (helse.2 hword)]
      have := writeMarked_skip (t.lead.toList.map (·, .code)) ('\n' :: '\x7d' :: base) ys
      rw [List.length_map] at this
      simp [hword, this]
    · rw [if_neg fun h => hword (helse.1 h), if_neg fun h => hword (helse.1 h), writeMarked_blank hblank]
      simp [hword]
  · rw [resume, if_neg hopen, if_neg hclose, afterLead, if_neg hopen, writeMarked_blank hblank]
    simp [hclose]

lemma writeMarked_tail (hblank : Token.Blank tail) (base : List Char) :
    writeMarked (resume s base tail).1 (resume s base tail).2 (tail.map (·, .code)) =
      (chars (placeTokens (some s) []) ++ placeTail (some s) [] tail).reverse ++ ((textBefore [] s).reverse ++ base) := by
  have hnil (n : Nat) (out : List Char) : writeMarked n out (tail.map (·, .code)) = writeMarked n out (tail.map (·, .code) ++ []) := by
    rw [append_nil]
  rw [hnil, placeTokens, chars_nil, nil_append]
  by_cases hopen : isOpen s
  · have hs : s.text = "\x7b" := by simpa [isOpen] using hopen
    rw [resume, if_pos hopen, writeMarked_tabs hblank, writeMarked_nil]
    simp only [placeTail, textBefore, getLast?_nil, Option.none_or, Option.any_some, hopen, if_true, hs]
    cases tail.dropWhile isTab with
    | nil => simp
    | cons c rest => by_cases hc : c = '\n' <;> simp [hc]
  · have hdrop : tail.dropWhile isBlank = [] := dropWhile_eq_nil_iff.2 hblank
    have helse : startsElse [] = false := by decide
    have hresume : resume s base tail = (0, s.text.toList.reverse ++ base) := by
      rw [resume, if_neg hopen, skippedAfterClose, hdrop, helse]
      split
      · rename_i hclose
        have hs : s.text = "\x7d" := by simpa [isClose] using hclose
        simp [hs]
      · rfl
    rw [hresume, writeMarked_blank hblank, writeMarked_nil]
    simp [placeTail, textBefore, hopen]

lemma reuses_afterLead (s t : Token) : Reuses t.lead.toList (afterLead s t) := by
  have hsuffix : t.lead.toList.dropWhile isTab ⊆ t.lead.toList := (dropWhile_suffix _).subset
  unfold afterLead openedLead
  split
  · dsimp only
    split
    · exact fun c hc => .inl (hsuffix hc)
    · intro c hc
      rcases mem_cons.1 hc with rfl | hc
      · exact .inr (.inr rfl)
      · exact .inl (hsuffix hc)
  split
  · intro c hc
    exact .inr (.inr (by simpa using hc))
  · exact Reuses.refl _

lemma not_isOpen_of_isLineComment (h : s.isLineComment) : isOpen s = false := by
  obtain ⟨cs, hcs⟩ := lineComment_text h
  simp only [isOpen, decide_eq_false_iff_not, ← toList_inj, hcs]
  simp

lemma afterLead_comment (h : s.isLineComment) (t : Token) : afterLead s t = t.lead.toList := by
  obtain ⟨cs, hcs⟩ := lineComment_text h
  have hclose : isClose s = false := by
    simp only [isClose, decide_eq_false_iff_not, ← toList_inj, hcs]
    simp
  simp [afterLead, not_isOpen_of_isLineComment h, hclose]

lemma reverse_text (hreads : Token.Reads s rest) (hs : s.Solid) (hline : s.isLineComment = false) :
    ∃ d ds, s.text.toList.reverse = d :: ds ∧ isBlank d = false := by
  obtain ⟨c, cs, htext, -, -⟩ := id hreads
  obtain ⟨d, ds, hds⟩ := exists_cons_of_ne_nil (l := s.text.toList.reverse) (by simp [htext])
  refine ⟨d, ds, hds, ?_⟩
  have hlast : s.text.toList.getLast? = some d := by
    rw [← head?_reverse, hds]
    rfl
  rcases getLast?_of_isClosed hreads hs.closed hlast hline with ⟨-, h⟩ | rfl | rfl | rfl
  · exact h
  all_goals decide

lemma closeBase_of_mem (hlead : Token.Blank lead) (hfeed : '\n' ∈ lead) (out : List Char) :
    closeBase (lead.reverse ++ out) = lead.reverse ++ out := by
  obtain ⟨line, rest, heq, -⟩ := exists_line (mem_reverse.2 hfeed)
  refine if_pos (List.all_eq_true.2 fun c hc => hlead c ?_)
  rw [heq, List.append_assoc, cons_append, takeWhile_append_cons _ (by decide)] at hc
  have hmem : c ∈ lead.reverse := heq ▸ mem_append_left _ ((List.takeWhile_prefix _).subset hc)
  exact mem_reverse.1 hmem

lemma closeBase_of_not_mem (hfeed : '\n' ∉ lead) (hd : isBlank d = false) (out : List Char) :
    closeBase (lead.reverse ++ d :: out) = '\n' :: ((dropWhileEnd isTab lead).reverse ++ d :: out) := by
  have hne : d ≠ '\n' := by
    rintro rfl
    cases hd
  have hmem : d ∈ (lead.reverse ++ d :: out).takeWhile (· ≠ '\n') := by
    rw [takeWhile_append_of_pos, takeWhile_cons_of_pos (by simpa using hne)]
    · exact mem_append_right _ mem_cons_self
    · intro c hc
      have hc' : c ≠ '\n' := by
        rintro rfl
        exact hfeed (mem_reverse.1 hc)
      simpa using hc'
  rw [closeBase, if_neg, dropWhile_append_cons _ (not_tab_of_not_blank hd), dropWhileEnd, reverse_reverse]
  intro hall
  simp [all_eq_true.1 hall d hmem] at hd

lemma openBase_append (hlead : Token.Blank lead) (hc : c ∈ text) (hblank : isBlank c = false) (out : List Char) :
    openBase (lead.reverse ++ (text.reverse ++ out)) = '\n' :: ((dropWhileEnd isBlank text).reverse ++ out) := by
  have hdrop : (text.reverse ++ out).dropWhile isBlank = text.reverse.dropWhile isBlank ++ out := by
    rw [dropWhile_append, if_neg]
    intro hnil
    rw [List.isEmpty_iff, dropWhile_eq_nil_iff] at hnil
    simp [hnil c (mem_reverse.2 hc)] at hblank
  rw [openBase, dropWhile_append_of_pos fun d hd => hlead d (mem_reverse.1 hd), hdrop, dropWhileEnd,
    reverse_reverse, if_neg]
  rw [List.isEmpty_iff, append_eq_nil_iff, dropWhile_eq_nil_iff]
  rintro ⟨hnil, -⟩
  simp [hnil c (mem_reverse.2 hc)] at hblank

lemma baseOf_some (hreads : Token.Reads s rest) (hs : s.Solid) (hblank : Token.Blank t.lead.toList)
    (hline : s.isLineComment → '\n' ∈ afterLead s t) (ts : List Token) (base : List Char) :
    baseOf t ((afterLead s t).reverse ++ (s.text.toList.reverse ++ base)) =
      (braceLead (some s) t).reverse ++ ((textBefore (t :: ts) s).reverse ++ base) := by
  have hlead : Token.Blank (afterLead s t) := hblank.reuses (reuses_afterLead s t)
  by_cases hopen : isOpen t
  · obtain ⟨c, cs, hcs, hc, -⟩ := id hreads
    rw [baseOf, if_pos hopen, openBase_append hlead (hcs ▸ mem_cons_self) hc]
    simp [braceLead, textBefore, hopen]
  have htext : textBefore (t :: ts) s = s.text.toList := by simp [textBefore, hopen]
  by_cases hclose : isClose t
  · rw [baseOf, if_neg hopen, if_pos hclose, braceLead, htext]
    by_cases hfeed : '\n' ∈ afterLead s t
    · rw [closeBase_of_mem hlead hfeed]
      simp [hfeed, hopen]
    · have hcomment : s.isLineComment = false := by simpa using fun h => hfeed (hline h)
      obtain ⟨d, ds, hds, hd⟩ := reverse_text hreads hs hcomment
      rw [hds, cons_append, closeBase_of_not_mem hfeed hd]
      simp [hfeed, hopen, hclose]
  · simp [baseOf, hopen, hclose, htext, braceLead]

lemma baseOf_none (hblank : Token.Blank t.lead.toList) :
    baseOf t t.lead.toList.reverse = (braceLead none t).reverse := by
  unfold baseOf braceLead
  by_cases hopen : isOpen t
  · have hdrop : t.lead.toList.reverse.dropWhile isBlank = [] :=
      dropWhile_eq_nil_iff.2 fun c hc => hblank c (mem_reverse.1 hc)
    simp [hopen, openBase, hdrop]
  · have hall : (t.lead.toList.reverse.takeWhile (· ≠ '\n')).all isBlank :=
      all_eq_true.2 fun c hc => hblank c (mem_reverse.1 ((List.takeWhile_prefix _).subset hc))
    rw [if_neg hopen, closeBase, if_pos hall]
    simp [hopen]

lemma map_fst_labelled (ts : List Token) (tail : List Char) :
    (ts.flatMap (labelledToken kind .code) ++ tail.map (·, Segment.Kind.code)).map (·.1) = chars ts ++ tail := by
  induction ts with
  | nil => simp [Function.comp_def]
  | cons t ts ih =>
    rw [flatMap_cons, List.append_assoc, map_append, ih, chars_cons, List.append_assoc]
    simp [labelledToken, Function.comp_def]

lemma writeMarked_tokens (hlegible : Legible ts tail) (hsolid : ∀ t ∈ ts, t.Solid)
    (hreads : Token.Reads s (Token.chars ts ++ tail)) (hs : s.Solid)
    (hreturn : '\r' ∉ Token.chars ts ++ tail) (base : List Char) :
    writeMarked (resume s base (Token.chars ts ++ tail)).1 (resume s base (Token.chars ts ++ tail)).2
        (ts.flatMap (labelledToken kind .code) ++ tail.map (·, .code)) =
      (Token.chars (placeTokens (some s) ts) ++ placeTail (some s) ts tail).reverse ++ ((textBefore ts s).reverse ++ base) := by
  induction ts generalizing s base with
  | nil =>
    rw [chars_nil, nil_append, flatMap_nil, nil_append]
    exact writeMarked_tail hlegible base
  | cons t ts ih =>
    obtain ⟨hst, hsts⟩ := forall_mem_cons.1 hsolid
    have hended := (ended_of_reads hreads).lead hlegible s rfl
    obtain ⟨hblank, hreads', hlegible⟩ := hlegible
    rw [chars_cons, List.append_assoc, mem_append, not_or, mem_append, not_or] at hreturn
    obtain ⟨⟨hreturn, -⟩, hreturns⟩ := hreturn
    have hfeed : s.isLineComment → '\n' ∈ afterLead s t := by
      intro hline
      rw [afterLead_comment hline]
      exact mem_lead_of_breaksOff (hended hline) hreturn
    rw [chars_cons, List.append_assoc, List.append_assoc, flatMap_cons, labelledToken, List.append_assoc,
      List.append_assoc, writeMarked_lead hblank hreads', writeMarked_token hreads' _ (map_fst_labelled ts tail),
      ih hlegible hsts hreads' hst hreturns, baseOf_some hreads hs hblank hfeed ts, placeTail_cons, placeTokens, chars_cons]
    simp only [toList_ofList, reverse_append, List.append_assoc]

lemma placeBraces_chars (h : x.Neat) (hreturn : '\r' ∉ x.chars) : placeBraces x.chars = (placeStream x).chars := by
  have hmarked := marked_scan h.scan
  rw [toList_ofList] at hmarked
  have hwrite : writeBraces 0 [] x.chars (kinds x.chars) = writeMarked 0 [] (marked x.chars) := by
    rw [writeMarked, map_fst_marked, kinds]
  rw [placeBraces, hwrite, hmarked, placeStream, Stream.chars]
  obtain ⟨tokens, tail⟩ := x
  obtain ⟨hlegible, hsolid⟩ := h
  dsimp only [Stream.chars] at *
  cases tokens with
  | nil =>
    have := writeMarked_blank hlegible [] []
    rw [append_nil] at this
    rw [flatMap_nil, nil_append, this, writeMarked_nil]
    simp [placeTokens, placeTail]
  | cons t ts =>
    obtain ⟨hst, hsts⟩ := forall_mem_cons.1 hsolid
    obtain ⟨hblank, hreads, hlegible⟩ := hlegible
    rw [chars_cons, List.append_assoc, mem_append, not_or] at hreturn
    rw [flatMap_cons, labelledToken, List.append_assoc, List.append_assoc, writeMarked_blank hblank, append_nil,
      writeMarked_token hreads _ (map_fst_labelled ts tail), writeMarked_tokens hlegible hsts hreads hst hreturn.2,
      baseOf_none hblank, placeTail_cons, placeTokens, chars_cons]
    simp only [toList_ofList, reverse_append, reverse_reverse, List.append_assoc]

/-! ## The blanks that change -/

lemma dropWhileEnd_text (hreads : Token.Reads t rest) (hs : t.Solid) (hline : t.isLineComment = false) :
    dropWhileEnd isBlank t.text.toList = t.text.toList := by
  obtain ⟨d, ds, hds, hd⟩ := reverse_text hreads hs hline
  rw [dropWhileEnd, hds, dropWhile_cons_of_neg (by simp [hd]), ← hds, reverse_reverse]

lemma kin_place (hreads : Token.Reads t rest) (hs : t.Solid) (lead : List Char) (ts : List Token) :
    t.Kin ⟨t.kind, ofList lead, ofList (textBefore ts t)⟩ := by
  unfold textBefore
  split
  · exact hs.kin_trim (by decide) (dropWhileEnd_text hreads hs) lead
  · rw [ofList_toList]
    exact hs.kin_withLead lead

lemma reuses_braceLead (s : Option Token) (t : Token) : Reuses t.lead.toList (braceLead s t) := by
  cases s with
  | none =>
    rw [braceLead]
    split
    · intro c hc
      cases hc
    · exact Reuses.refl _
  | some s =>
    have hlead := reuses_afterLead s t
    rw [braceLead]
    split
    · intro c hc
      exact .inr (.inr (by simpa using hc))
    split
    · intro c hc
      rcases mem_append.1 hc with hc | hc
      · exact hlead c ((Text.dropWhileEnd_prefix _ _).subset hc)
      · exact .inr (.inr (by simpa using hc))
    · exact hlead

lemma openedLead_ne_nil (lead : List Char) : openedLead lead ≠ [] := by
  unfold openedLead
  dsimp only
  split_ifs with hhead
  · intro hnil
    simp [hnil] at hhead
  · exact cons_ne_nil _ _

lemma lead_of_afterLead (h : afterLead s t = []) : t.lead.toList = [] := by
  unfold afterLead at h
  split at h
  · exact absurd h (openedLead_ne_nil _)
  split at h
  · cases h
  · exact h

lemma lead_of_braceLead (h : braceLead (some s) t = []) : t.lead.toList = [] := by
  rw [braceLead] at h
  split at h
  · cases h
  split at h
  · exact absurd h (by simp)
  · exact lead_of_afterLead h

lemma breaksOff_braceLead (hline : s.isLineComment)
    (h : t.lead.toList ≠ [] ∧ BreaksOff t.lead.toList) (hreturn : '\r' ∉ t.lead.toList) :
    BreaksOff (braceLead (some s) t) := by
  have hfeed := mem_lead_of_breaksOff h hreturn
  rw [braceLead, afterLead_comment hline]
  split
  · simp [BreaksOff, isLineBreak]
  · simpa [hfeed] using h.2

lemma reuses_placeTail (s : Option Token) (ts : List Token) (tail : List Char) : Reuses tail (placeTail s ts tail) := by
  have hsuffix : tail.dropWhile isTab ⊆ tail := (dropWhile_suffix _).subset
  unfold placeTail
  split
  · split
    · intro c hc
      cases hc
    · rename_i d rest hrest
      rw [hrest] at hsuffix
      split
      · exact fun c hc => .inl (hsuffix hc)
      · intro c hc
        rcases mem_cons.1 hc with rfl | hc
        · exact .inr (.inr rfl)
        · exact .inl (hsuffix hc)
  · exact Reuses.refl _

lemma relaid_place {p : Option Token} (hlegible : Legible ts tail) (hsolid : ∀ t ∈ ts, t.Solid)
    (hended : Token.Ended p (chars ts ++ tail)) (hreturn : '\r' ∉ chars ts ++ tail) :
    Relaid tail (placeTail p ts tail) p ts (placeTokens p ts) := by
  induction ts generalizing p with
  | nil =>
    refine .nil (reuses_placeTail p [] tail) fun s hs hline => ?_
    obtain rfl : p = some s := hs
    have htail : placeTail (some s) [] tail = tail := by simp [placeTail, not_isOpen_of_isLineComment hline]
    rw [htail]
    simpa using hended s rfl hline
  | cons t ts ih =>
    obtain ⟨hst, hsts⟩ := forall_mem_cons.1 hsolid
    have hlead := hended.lead hlegible
    obtain ⟨-, hreads, hlegible⟩ := hlegible
    rw [chars_cons, List.append_assoc, mem_append, not_or, mem_append, not_or] at hreturn
    obtain ⟨⟨hreturn, -⟩, hreturns⟩ := hreturn
    rw [placeTail_cons]
    refine .cons (kin_place hreads hst _ ts) ?_ (fun s hs => ?_) (ih hlegible hsts (ended_of_reads hreads) hreturns)
    · rw [toList_ofList]
      exact reuses_braceLead p t
    · obtain rfl : p = some s := hs
      refine ⟨fun _ hnil => .inl (lead_of_braceLead (by simpa using hnil)), fun hline => ?_⟩
      rw [toList_ofList]
      exact ⟨fun hnil => (hlead s rfl hline).1 (lead_of_braceLead hnil), breaksOff_braceLead hline (hlead s rfl hline) hreturn⟩

lemma relaid_placeStream (h : x.Neat) (hreturn : '\r' ∉ x.chars) : x.Relaid (placeStream x) :=
  relaid_place h.legible h.solid (ended_none _) hreturn

end DeviceForge.Layout
