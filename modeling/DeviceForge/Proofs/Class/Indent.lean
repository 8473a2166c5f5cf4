import DeviceForge.Proofs.Class.Pieces
import DeviceForge.Proofs.Code.Nesting
/-!
# Indentation

A writer counts the braces of each line by itself.
-/

namespace DeviceForge.Writer

open List Text Token Place

variable {cs w before rest line tail : List Char} {c quote : Char} {pos row : Nat} {place : Place} {stopped : Bool} {t : Token} {ts : List Token}

def isBrace (c : Char) : Bool :=
  c = '\x7b' || c = '\x7d'

def sights (pos : Nat) (stopped : Bool) (place : Place) : List Char → List (Nat × Char)
  | [] => []
  | c :: cs =>
    let next := pos + c.utf8Size
    if c = '\n' then sights next false .plain cs
    else if stopped || (place = .plain && c = '/' && cs.head? = some '/') then sights next true place cs
    else if place = .plain && isBrace c then (pos, c) :: sights next false .plain cs
    else sights next false (place.next c) cs

def seen (cs : List Char) : List Char :=
  (sights 0 false .plain cs).map Prod.snd

lemma sights_feed (pos : Nat) (stopped : Bool) (place : Place) (cs : List Char) :
    sights pos stopped place ('\n' :: cs) = sights (pos + 1) false .plain cs := by
  rw [sights, if_pos rfl]
  rfl

lemma sights_stopped (h : OneLine line) (pos : Nat) (place : Place) (cs : List Char) :
    sights pos true place (line ++ cs) = sights (pos + byteLength line) true place cs := by
  induction line generalizing pos with
  | nil => rfl
  | cons c line ih =>
    rw [OneLine, mem_cons, not_or] at h
    rw [cons_append, sights, if_neg (Ne.symm h.1), Bool.true_or, if_pos rfl, ih h.2, byteLength_cons, Nat.add_assoc]

lemma sights_brace (h : isBrace c) (pos : Nat) (cs : List Char) :
    sights pos false .plain (c :: cs) = (pos, c) :: sights (pos + c.utf8Size) false .plain cs := by
  have hne : c ≠ '\n' ∧ c ≠ '/' := by
    simp only [isBrace, Bool.or_eq_true, decide_eq_true_eq] at h
    rcases h with rfl | rfl <;> decide
  simp [sights, hne, h]

/-- A character that opens no literal and no comment and is no brace. -/
lemma sights_plain (hbrace : isBrace c = false) (hquote : isQuote c = false) (hslash : c = '/' → cs.head? ≠ some '/') (pos : Nat) :
    sights pos false .plain (c :: cs) = sights (pos + c.utf8Size) false .plain cs := by
  have hnext : plain.next c = .plain := after_unquoted (show ∀ d ∈ [c], isQuote d = false by simpa using hquote)
  have hopen : ¬(c = '/' ∧ cs.head? = some '/') := fun h => hslash h.1 h.2
  by_cases hfeed : c = '\n'
  · rw [sights, if_pos hfeed]
  · simp [sights, hfeed, hbrace, hnext, hopen]

lemma sights_blank (hw : Blank w) (pos : Nat) (cs : List Char) :
    sights pos false .plain (w ++ cs) = sights (pos + byteLength w) false .plain cs := by
  induction w generalizing pos with
  | nil => rfl
  | cons c w ih =>
    obtain ⟨hc, hw⟩ := forall_mem_cons.1 hw
    have hquote := not_isQuote_of_isSpace (isSpace_of_isBlank hc)
    have hbrace : isBrace c = false := by
      by_contra h
      simp only [isBrace, Bool.not_eq_false, Bool.or_eq_true, decide_eq_true_eq] at h
      rcases h with rfl | rfl <;> cases hc
    rw [cons_append, sights_plain hbrace hquote (by rintro rfl; cases hc), ih hw, byteLength_cons, Nat.add_assoc]

/-- Behind a line feed a writer looks at the text again. -/
lemma sights_resumed (hw : Blank w) (hfeed : '\n' ∈ w) (pos : Nat) (place : Place) (cs : List Char) :
    sights pos true place (w ++ cs) = sights (pos + byteLength w) false .plain cs := by
  obtain ⟨line, rest, rfl, hline⟩ := exists_line hfeed
  have hrest : Blank rest := fun c hc => hw c (by simp [hc])
  rw [append_assoc, sights_stopped hline, cons_append, sights_feed, sights_blank hrest, byteLength_append, byteLength_cons]
  congr 1
  simp only [show '\n'.utf8Size = 1 from rfl]
  omega

/-! ## Tokens -/

lemma sights_quoted (h : Lexeme.endsQuoted quote cs) (hquote : quote ≠ '\\') (hline : OneLine cs) (pos : Nat) (rest : List Char) :
    sights pos false (.literal quote false) (cs ++ rest) = sights (pos + byteLength cs) false .plain rest := by
  have hstep {c : Char} (hc : '\n' ≠ c) (escaped : Bool) (pos : Nat) (cs : List Char) :
      sights pos false (.literal quote escaped) (c :: cs) = sights (pos + c.utf8Size) false ((literal quote escaped).next c) cs := by
    simp [sights, hc.symm]
  fun_induction Lexeme.endsQuoted quote cs generalizing pos with
  | case1 => cases h
  | case2 d cs ih =>
    simp only [OneLine, mem_cons, not_or] at hline
    rw [cons_append, cons_append, hstep hline.1, show (literal quote false).next '\\' = .literal quote true by simp [Place.next],
      hstep hline.2.1, show (literal quote true).next d = .literal quote false by simp [Place.next], ih h hline.2.2]
    simp [Nat.add_assoc]
  | case3 cs hne =>
    rw [isEmpty_iff.1 h] at hline ⊢
    rw [cons_append, hstep (by simpa [OneLine] using hline), show (literal quote false).next quote = .plain by simp [Place.next, hquote]]
    simp
  | case4 c cs hne hc ih =>
    obtain ⟨d, ds, rfl⟩ : ∃ d ds, cs = d :: ds := exists_cons_of_ne_nil (by rintro rfl; cases h)
    simp only [OneLine, mem_cons, not_or] at hline
    have hslash : c ≠ '\\' := fun hslash => hne d ds hslash rfl
    rw [cons_append, hstep hline.1, show (literal quote false).next c = .literal quote false by simp [Place.next, hslash, hc],
      ih h (by simpa [OneLine] using hline.2)]
    simp [Nat.add_assoc]

/-- A text without braces and quotes in which no two slashes meet. -/
lemma sights_skip (h : ∀ c ∈ cs, isBrace c = false ∧ isQuote c = false)
    (hslash : ∀ as bs, cs ++ rest = as ++ '/' :: '/' :: bs → cs.length ≤ as.length) (pos : Nat) :
    sights pos false .plain (cs ++ rest) = sights (pos + byteLength cs) false .plain rest := by
  induction cs generalizing pos with
  | nil => rfl
  | cons c cs ih =>
    obtain ⟨hc, hcs⟩ := forall_mem_cons.1 h
    rw [cons_append, sights_plain hc.1 hc.2, ih hcs fun as bs heq => ?_, byteLength_cons, Nat.add_assoc]
    · have := hslash (c :: as) bs (by rw [cons_append, heq]; rfl)
      simpa using this
    · rintro rfl hhead
      obtain ⟨bs, hbs⟩ := head?_eq_some_iff.1 hhead
      simpa using hslash [] bs (by rw [cons_append, hbs]; rfl)

def brace? (t : Token) : Option Char :=
  ['\x7b', '\x7d'].find? fun c => t.text = c.toString

def bracesIn (ls : List Located) : List (Nat × Char) :=
  ls.filterMap fun l => (brace? l.token).map (l.start, ·)

lemma brace?_eq_some_iff : brace? t = some c ↔ isBrace c ∧ t.text = c.toString := by
  simp only [brace?, isBrace, Bool.or_eq_true, decide_eq_true_eq]
  constructor
  · intro h
    obtain ⟨hmem, htext⟩ := And.intro (mem_of_find?_eq_some h) (find?_some h)
    exact ⟨by simpa using hmem, by simpa using htext⟩
  · rintro ⟨rfl | rfl, htext⟩ <;> simp [htext]

lemma isBracket_of_isBrace (h : isBrace c) : isBracket c := by
  simp only [isBrace, Bool.or_eq_true, decide_eq_true_eq] at h
  rcases h with rfl | rfl <;> decide

lemma brace?_eq_none (h : t.kind.segment ≠ .code) (hreads : Reads t rest) : brace? t = none := by
  refine Option.eq_none_iff_forall_ne_some.2 fun c hc => h ?_
  obtain ⟨hbrace, htext⟩ := brace?_eq_some_iff.1 hc
  rw [kind_of_bracket hreads (isBracket_of_isBrace hbrace) htext]
  rfl

lemma sights_code (hreads : Reads t rest) (hcode : t.kind.segment = .code) (pos : Nat) :
    sights pos false .plain (t.text.toList ++ rest) =
      ((brace? t).map (pos, ·)).toList ++ sights (pos + byteLength t.text.toList) false .plain rest := by
  cases hbrace : brace? t with
  | some c =>
    obtain ⟨hc, htext⟩ := brace?_eq_some_iff.1 hbrace
    rw [htext, Char.toString, String.toList_singleton, cons_append, sights_brace hc]
    simp
  | none =>
    have hquotes := not_isQuote_of_code hreads hcode
    have hbraces : ∀ c ∈ t.text.toList, isBrace c = false := by
      intro c hc
      by_contra h
      rw [Bool.not_eq_false] at h
      have htext := text_of_bracket hreads hcode (isBracket_of_isBrace h) hc
      simp [brace?_eq_some_iff.2 ⟨h, htext⟩] at hbrace
    refine sights_skip (fun c hc => ⟨hbraces c hc, hquotes c hc⟩) (fun as bs heq => ?_) pos
    obtain ⟨c, cs, htext, -, hext⟩ := hreads
    rcases extent_cases hext with ⟨hne, -⟩ | ⟨-, hstart, hinner⟩
    · exact absurd hcode hne
    rw [htext] at heq ⊢
    rw [take_left] at hinner
    cases as with
    | nil =>
      -- two slashes at the start would be a comment
      rw [nil_append, cons_append, cons.injEq] at heq
      exact absurd hstart ((Segment.extent_ne_code_iff c (cs ++ rest)).2 (.inr (.inl ⟨heq.1, by rw [heq.2]; rfl⟩)))
    | cons a as =>
      rw [cons_append, cons_append, cons.injEq] at heq
      rw [length_cons, length_cons, Nat.add_le_add_iff_right]
      by_contra hlt
      have hslash : cs[as.length]? = some '/' := by
        have := congrArg (·[as.length]?) heq.2
        rwa [getElem?_append_left (by omega), getElem?_append_right le_rfl, Nat.sub_self] at this
      have := hinner '/' (mem_of_getElem? hslash)
      revert this
      decide

/-- A writer sees what the token is, where the token `next` follows it. -/
def shows (t : Token) (next : Option Token) : Bool :=
  if t.isLineComment then next.all fun u => u.lead.toList.contains '\n'
  else if t.kind = .comment then
    (t.text.toList.all fun c => !isBrace c && !isQuote c) && !(t.text.toList.zip t.text.toList.tail).contains ('/', '/') &&
      next.all fun u => !u.lead.isEmpty || u.text.toList.head? ≠ some '/'
  else !t.text.toList.contains '\n'

/-- A writer sees what each token is. -/
def shown : List Token → Bool
  | [] => true
  | t :: ts => shows t ts.head? && shown ts

lemma not_slashes (h : (cs.zip cs.tail).contains ('/', '/') = false) (hnext : rest.head? ≠ some '/') (as bs : List Char)
    (heq : cs ++ rest = as ++ '/' :: '/' :: bs) : cs.length ≤ as.length := by
  induction cs generalizing as with
  | nil => exact Nat.zero_le _
  | cons c cs ih =>
    have hrest : (cs.zip cs.tail).contains ('/', '/') = false := by
      cases cs with
      | nil => rfl
      | cons d cs =>
        rw [tail_cons, zip_cons_cons, contains_cons, Bool.or_eq_false_iff] at h
        exact h.2
    cases as with
    | cons a as => exact Nat.succ_le_succ (ih hrest as (cons.inj heq).2)
    | nil =>
      exfalso
      cases cs with
      | nil =>
        obtain rfl : rest = '/' :: bs := (cons.inj heq).2
        exact hnext rfl
      | cons d cs =>
        obtain ⟨hc, hd⟩ : c = '/' ∧ d = '/' := by simpa using And.intro (cons.inj heq).1 (cons.inj (cons.inj heq).2).1
        simp [hc, hd] at h

lemma sights_literal (hquoted : IsQuoted t quote) (hclosed : t.isClosed) (htext : t.text.toList = quote :: cs)
    (hline : OneLine t.text.toList) (pos : Nat) (rest : List Char) :
    sights pos false .plain (t.text.toList ++ rest) = sights (pos + byteLength t.text.toList) false .plain rest := by
  rw [hquoted.isClosed_iff, htext, tail_cons] at hclosed
  rw [htext, OneLine, mem_cons, not_or] at hline
  have hopen : sights pos false .plain (quote :: (cs ++ rest)) = sights (pos + quote.utf8Size) false (.literal quote false) (cs ++ rest) := by
    rcases hquoted with ⟨-, rfl⟩ | ⟨-, rfl⟩ <;> simp [sights, isBrace, Place.next]
  rw [htext, cons_append, hopen, sights_quoted hclosed hquoted.ne_backslash hline.2, byteLength_cons, Nat.add_assoc]

/-- A writer sees a token that is no line comment for what it is. -/
lemma sights_token (hreads : Reads t rest) (hclosed : t.isClosed) (hone : t.kind ≠ .comment → OneLine t.text.toList)
    (hcomment : t.kind = .comment → (∀ c ∈ t.text.toList, isBrace c = false ∧ isQuote c = false) ∧
      ∀ as bs, t.text.toList ++ rest = as ++ '/' :: '/' :: bs → t.text.toList.length ≤ as.length) (pos : Nat) :
    sights pos false .plain (t.text.toList ++ rest) =
      ((brace? t).map (pos, ·)).toList ++ sights (pos + byteLength t.text.toList) false .plain rest := by
  have hskip (hkind : t.kind.segment ≠ .code)
      (h : sights pos false .plain (t.text.toList ++ rest) = sights (pos + byteLength t.text.toList) false .plain rest) : _ = _ :=
    h.trans (congrArg (fun b => (Option.map (pos, ·) b).toList ++ _) (brace?_eq_none hkind hreads)).symm
  rcases reads_cases hreads with hcode | ⟨quote, cs, hquoted, htext, -⟩ | ⟨cs, hkind, -⟩ | ⟨cs, hkind, -⟩
  · exact sights_code hreads hcode pos
  · have hkind : t.kind ≠ .comment ∧ t.kind.segment ≠ .code := by rcases hquoted with ⟨hk, -⟩ | ⟨hk, -⟩ <;> simp [hk, Kind.segment]
    exact hskip hkind.2 (sights_literal hquoted hclosed htext (hone hkind.1) pos rest)
  all_goals exact hskip (by simp [hkind, Kind.segment]) (sights_skip (hcomment hkind).1 (hcomment hkind).2 pos)

lemma sights_lineComment (hreads : Reads t rest) (hline : t.isLineComment) (pos : Nat) :
    sights pos false .plain (t.text.toList ++ rest) = sights (pos + byteLength t.text.toList) true .plain rest := by
  rcases reads_cases hreads with hcode | ⟨quote, cs, hquoted, -⟩ | ⟨cs, -, htext, hbreak, -⟩ | ⟨cs, -, htext, -⟩
  · simp [comment_of_isLineComment hline, Kind.segment] at hcode
  · simp [hquoted.not_lineComment] at hline
  · have hone : OneLine t.text.toList := by
      simp only [OneLine, htext, mem_cons, not_or]
      exact ⟨by decide, by decide, fun h => by simpa [Lexeme.isLineBreak] using hbreak _ h⟩
    rw [← sights_stopped hone, htext]
    simp [sights]
  · simp [isLineComment, htext] at hline

lemma sights_end (h : Blank tail) (pos : Nat) (stopped : Bool) : sights pos stopped .plain tail = [] := by
  cases stopped with
  | false => simpa [sights] using sights_blank h pos []
  | true =>
    by_cases hfeed : '\n' ∈ tail
    · simpa [sights] using sights_resumed h hfeed pos .plain []
    · simpa [sights] using sights_stopped hfeed pos .plain []

/-- What follows a block comment starts with no slash. -/
lemma head?_of_shows (hlegible : Legible ts tail)
    (hnext : ∀ u ∈ ts.head?, u.lead = "" → u.text.toList.head? ≠ some '/') : (chars ts ++ tail).head? ≠ some '/' := by
  have hblank {w : List Char} (hw : Blank w) : w.head? ≠ some '/' := by
    intro h
    have := hw '/' (mem_of_mem_head? h)
    cases this
  cases ts with
  | nil => exact hblank hlegible
  | cons u us =>
    obtain ⟨hlead, ⟨d, ds, hu, -⟩, -⟩ := hlegible
    rw [chars_cons, append_assoc, append_assoc, head?_append]
    cases hl : u.lead.toList.head? with
    | some b => exact fun h => hblank hlead (hl.trans h)
    | none =>
      have hempty : u.lead = "" := String.toList_injective (head?_eq_none_iff.1 hl)
      have := hnext u rfl hempty
      rw [hu] at this ⊢
      exact this

lemma bracesIn_cons (l : Located) (ls : List Located) : bracesIn (l :: ls) = ((brace? l.token).map (l.start, ·)).toList ++ bracesIn ls := by
  cases h : brace? l.token <;> simp [bracesIn, h]

/-- A writer sees the braces of the code and no others. -/
lemma sights_tokens (hlegible : Legible ts tail) (hclosed : ∀ t ∈ ts, t.isClosed) (hshown : shown ts) (pos row : Nat) :
    sights pos false .plain (chars ts ++ tail) = bracesIn (locate pos row ts) := by
  induction ts generalizing pos row with
  | nil => exact sights_end hlegible pos false
  | cons t ts ih =>
    obtain ⟨hlead, hreads, hlegible⟩ := hlegible
    obtain ⟨hct, hcts⟩ := forall_mem_cons.1 hclosed
    simp only [shown, Bool.and_eq_true] at hshown
    obtain ⟨hshows, hshown⟩ := hshown
    rw [chars_cons, append_assoc, append_assoc, sights_blank hlead, locate, bracesIn_cons, ← ih hlegible hcts hshown]
    simp only [← byteLength_toList]
    generalize pos + byteLength t.lead.toList = start
    rw [shows] at hshows
    split at hshows
    · rename_i hline
      have hkind : t.kind = .comment := comment_of_isLineComment hline
      rw [brace?_eq_none (by simp [hkind, Kind.segment]) hreads, sights_lineComment hreads hline]
      cases ts with
      | nil =>
        rw [chars_nil, nil_append, sights_end hlegible, sights_end hlegible]
        rfl
      | cons u us =>
        have hfeed : '\n' ∈ u.lead.toList := by simpa using hshows
        rw [chars_cons, append_assoc, append_assoc, sights_resumed hlegible.1 hfeed, sights_blank hlegible.1]
        rfl
    · split at hshows
      · rename_i hkind
        simp only [Bool.and_eq_true, all_eq_true, Bool.not_eq_true', Option.all_eq_true] at hshows
        obtain ⟨⟨hchars, hslashes⟩, hnext⟩ := hshows
        have hhead := head?_of_shows hlegible fun u hu hempty => by simpa [hempty] using hnext u hu
        exact sights_token hreads hct (absurd hkind) (fun _ => ⟨hchars, not_slashes hslashes hhead⟩) start
      · rename_i hkind
        exact sights_token hreads hct (fun _ => by simpa [OneLine] using hshows) (absurd · hkind) start

/-! ## Counting -/

/-- The closing braces that stand before all else on a line. -/
def closers (line : List Char) : Nat :=
  (line.takeWhile fun c => c = '\x7d' || isSpace c).count '\x7d'

lemma closers_cons (c : Char) (line : List Char) :
    closers (c :: line) = if c = '\x7d' then closers line + 1 else if isSpace c then closers line else 0 := by
  by_cases hc : c = '\x7d'
  · simp [closers, hc]
  · cases hspace : isSpace c <;> simp [closers, hc, hspace]

/-- The braces that a writer counts on a line are those it sees, whatever it has counted before. -/
lemma countBraces_eq (hline : OneLine line) {leading : Bool} (h : place ≠ .plain → leading = false) (found : Braces) (pos : Nat) :
    countBraces place leading found line =
      ⟨found.opens + ((sights pos false place line).map Prod.snd).count '\x7b', found.closes + ((sights pos false place line).map Prod.snd).count '\x7d',
        found.leading + if leading then closers line else 0⟩ := by
  induction line generalizing place leading found pos with
  | nil => cases leading <;> rfl
  | cons c line ih =>
    obtain ⟨hc, hline⟩ : c ≠ '\n' ∧ OneLine line := by simpa [OneLine, eq_comm] using hline
    cases place with
    | literal quote escaped =>
      obtain rfl := h (by simp)
      rw [countBraces, ih hline (fun _ => rfl) found (pos + c.utf8Size)]
      simp [sights, hc]
    | plain =>
      by_cases hslash : c = '/' ∧ line.head? = some '/'
      · have hstop : sights (pos + c.utf8Size) true .plain line = [] := by
          have := sights_stopped hline (pos + c.utf8Size) .plain []
          rwa [append_nil] at this
        rw [countBraces, if_pos (by simpa using hslash), sights, if_neg hc, if_pos (by simpa using hslash), hstop, closers_cons, hslash.1]
        cases leading <;> rfl
      · have hnext : plain.next c ≠ .plain → (leading && (decide (c = '\x7d') || isSpace c)) = false := by
          intro hopen
          have hquote : c = '"' ∨ c = '\'' := by
            by_contra hno
            exact hopen (by simpa [Place.next] using hno)
          rcases hquote with rfl | rfl <;> cases leading <;> rfl
        rw [countBraces, if_neg (by simpa using hslash)]
        simp only [ih hline hnext _ (pos + c.utf8Size)]
        rw [closers_cons]
        by_cases hopens : c = '\x7b'
        · subst hopens
          rw [sights_brace rfl]
          cases leading <;> simp [Place.next, Text.isSpace] <;> omega
        by_cases hcloses : c = '\x7d'
        · subst hcloses
          rw [sights_brace rfl]
          cases leading <;> simp [Place.next] <;> omega
        · have hsights : sights pos false .plain (c :: line) = sights (pos + c.utf8Size) false (plain.next c) line := by
            simp [sights, hc, hslash, isBrace, hopens, hcloses]
          rw [hsights]
          cases leading <;> cases hspace : isSpace c <;> simp [hopens, hcloses]

lemma ne_of_isSpace (hc : isSpace c) : c ≠ '/' ∧ c ≠ '\x7b' ∧ c ≠ '\x7d' := by
  refine ⟨?_, ?_, ?_⟩ <;> rintro rfl <;> cases hc

lemma countBraces_spaces (hw : Spaces w) (found : Braces) (cs : List Char) :
    countBraces .plain true found (w ++ cs) = countBraces .plain true found cs := by
  induction w with
  | nil => rfl
  | cons c w ih =>
    obtain ⟨hc, hw⟩ := spaces_cons.1 hw
    have hne := ne_of_isSpace hc
    have hnext : plain.next c = .plain := after_unquoted (show ∀ d ∈ [c], isQuote d = false by simpa using not_isQuote_of_isSpace hc)
    rw [cons_append, countBraces]
    simp [hne, hnext, hc, ih hw]

lemma countBraces_blank (hw : Spaces w) (place : Place) (leading : Bool) (found : Braces) : countBraces place leading found w = found := by
  induction w generalizing place leading with
  | nil => rfl
  | cons c w ih =>
    obtain ⟨hc, hw⟩ := spaces_cons.1 hw
    have hne := ne_of_isSpace hc
    cases place with
    | literal quote escaped => exact ih hw _ _
    | plain =>
      rw [countBraces, if_neg (by simp [hne.1])]
      simp only [hne.2, if_false]
      exact ih hw _ _

lemma countBraces_end (hw : Spaces w) (place : Place) (leading : Bool) (found : Braces) (cs : List Char) :
    countBraces place leading found (cs ++ w) = countBraces place leading found cs := by
  induction cs generalizing place leading found with
  | nil => exact countBraces_blank hw place leading found
  | cons c cs ih =>
    rw [cons_append]
    cases place with
    | literal quote escaped => exact ih _ _ _
    | plain =>
      have hhead : (c = '/' && (cs ++ w).head? = some '/') = (c = '/' && cs.head? = some '/') := by
        cases cs with
        | cons d cs => rfl
        | nil =>
          cases w with
          | nil => rfl
          | cons d w =>
            obtain ⟨hd, -⟩ := spaces_cons.1 hw
            simp [(ne_of_isSpace hd).1]
      rw [countBraces, countBraces, hhead]
      split
      · rfl
      · exact ih _ _ _

lemma bracesOf_trim (text : String) : bracesOf (trim text).toList = bracesOf text.toList := by
  obtain ⟨w, hw, hcs⟩ := dropWhileEnd_split (text.toList.dropWhile isSpace)
  have hlead : Spaces (text.toList.takeWhile isSpace) := fun c hc => mem_takeWhile_imp hc
  rw [bracesOf, bracesOf, ← takeWhile_append_dropWhile (p := Text.isSpace) (l := text.toList), countBraces_spaces hlead, hcs, countBraces_end hw,
    trim, String.toList_ofList]

/-! ## Levels -/

lemma level_line (w : Writer) (text : String) : (w.line text).level =
    w.level - (bracesOf text.toList).leading + (bracesOf text.toList).opens - ((bracesOf text.toList).closes - (bracesOf text.toList).leading) := by
  rw [line, ← bracesOf_trim text]
  split_ifs with hempty
  · rw [isEmpty_iff.1 hempty]
    rfl
  · rfl

lemma bracesOf_eq (h : OneLine line) : bracesOf line = ⟨(seen line).count '\x7b', (seen line).count '\x7d', closers line⟩ := by
  rw [bracesOf, countBraces_eq h (by simp) _ 0]
  simp [seen]

/-- The closing braces that lead a line are the first ones that a writer sees. -/
lemma seen_closers (line : List Char) (pos : Nat) :
    replicate (closers line) '\x7d' <+: (sights pos false .plain line).map Prod.snd := by
  induction line generalizing pos with
  | nil => exact nil_prefix
  | cons c line ih =>
    rw [closers_cons]
    split_ifs with hc hspace
    · rw [hc, sights_brace rfl, map_cons, replicate_succ, cons_prefix_cons]
      exact ⟨rfl, ih _⟩
    · have hbrace : isBrace c = false := by simp [isBrace, ne_of_isSpace hspace]
      rw [sights_plain hbrace (not_isQuote_of_isSpace hspace) (absurd · (ne_of_isSpace hspace).1)]
      exact ih _
    · exact nil_prefix

lemma sights_shift (k pos : Nat) (stopped : Bool) (place : Place) (cs : List Char) :
    sights (pos + k) stopped place cs = (sights pos stopped place cs).map fun x => (x.1 + k, x.2) := by
  induction cs generalizing pos stopped place with
  | nil => rfl
  | cons c cs ih =>
    simp only [sights, Nat.add_right_comm pos k, ih]
    split_ifs <;> rfl

/-- A line feed ends what a writer knows of the text before it. -/
lemma sights_append (h : before.getLast? = some '\n') (pos : Nat) (stopped : Bool) (place : Place) (cs : List Char) :
    sights pos stopped place (before ++ cs) = sights pos stopped place before ++ sights (pos + byteLength before) false .plain cs := by
  induction before generalizing pos stopped place with
  | nil => cases h
  | cons c before ih =>
    cases before with
    | nil =>
      obtain rfl : c = '\n' := by simpa using h
      rw [cons_append, sights_feed, sights_feed]
      rfl
    | cons d before =>
      rw [getLast?_cons_cons] at h
      rw [cons_append, sights, sights]
      simp only [cons_append, head?_cons] at ih ⊢
      simp only [ih h, byteLength_cons, Nat.add_assoc]
      split_ifs <;> simp_all

lemma sights_ended (pos : Nat) (stopped : Bool) (place : Place) (line : List Char) :
    sights pos stopped place (line ++ ['\n']) = sights pos stopped place line := by
  induction line generalizing pos stopped place with
  | nil => rfl
  | cons c line ih =>
    have hhead : (line ++ ['\n']).head? = some '/' ↔ line.head? = some '/' := by cases line <;> simp
    simp only [cons_append, sights, ih, hhead]

lemma seen_append (h : before.getLast? = some '\n') (cs : List Char) : seen (before ++ cs) = seen before ++ seen cs := by
  rw [seen, sights_append h, map_append, sights_shift, map_map]
  rfl

lemma seen_more (line rest : List Char) : seen (line ++ '\n' :: rest) = seen line ++ seen rest := by
  rw [append_cons, seen_append getLast?_concat, seen, sights_ended]
  rfl

lemma lt_of_mem_sights {x : Nat × Char} (hx : x ∈ sights pos stopped place cs) : pos ≤ x.1 ∧ x.1 < pos + byteLength cs := by
  induction cs generalizing pos stopped place with
  | nil => cases hx
  | cons c cs ih =>
    have hpos := Char.utf8Size_pos c
    have hlater {stopped : Bool} {place : Place} (hx : x ∈ sights (pos + c.utf8Size) stopped place cs) :
        pos ≤ x.1 ∧ x.1 < pos + byteLength (c :: cs) := by
      have := ih hx
      rw [byteLength_cons]
      omega
    rw [sights] at hx
    split_ifs at hx
    · exact hlater hx
    · exact hlater hx
    · rcases mem_cons.1 hx with rfl | hx
      · rw [byteLength_cons]
        exact ⟨le_rfl, by dsimp only; omega⟩
      · exact hlater hx
    · exact hlater hx

/-- Braces are closed only where they are open, below `level`. -/
def Closes (level : Nat) (bs : List Char) : Prop :=
  ∀ as, as <+: bs → as.count '\x7d' ≤ level + as.count '\x7b'

/-- A line whose braces are closed only where they are open changes the level by its braces. -/
lemma level_line_eq {w : Writer} (hline : OneLine line) (h : Closes w.level (seen line)) :
    (w.line (String.ofList line)).level + (seen line).count '\x7d' = w.level + (seen line).count '\x7b' ∧ closers line ≤ w.level := by
  have hall := h _ (prefix_refl _)
  have hlead := h _ (seen_closers line 0)
  have hle := (seen_closers line 0).sublist.count_le '\x7d'
  rw [count_replicate_self] at hle hlead
  rw [count_eq_zero_of_not_mem (by simp [mem_replicate]), Nat.add_zero] at hlead
  rw [level_line, String.toList_ofList, bracesOf_eq hline]
  dsimp only
  rw [← seen] at hle
  omega

lemma Closes.start {level : Nat} {as bs : List Char} (h : Closes level bs) (has : as <+: bs) : Closes level as :=
  fun cs hcs => h cs (hcs.trans has)

lemma Closes.behind {level more : Nat} {as bs : List Char} (h : Closes level (as ++ bs)) (hmore : more + as.count '\x7d' = level + as.count '\x7b') :
    Closes more bs := by
  intro cs hcs
  have := h (as ++ cs) ((prefix_append_right_inj as).2 hcs)
  rw [count_append, count_append] at this
  omega

lemma lines_last (h : OneLine line) (hne : line ≠ []) : Text.lines (String.ofList line) = [String.ofList line] := by
  simp [Text.lines, splitAtChars_line h, endedLines, hne]

lemma lines_more (h : OneLine line) (rest : List Char) : Text.lines (String.ofList (line ++ '\n' :: rest)) =
    String.ofList (if line.getLast? = some '\r' then line.dropLast else line) :: Text.lines (String.ofList rest) := by
  rw [Text.lines, String.toList_ofList, splitAtChars_append h, Text.lines, String.toList_ofList]
  obtain ⟨first, more, hsplit⟩ := exists_cons_of_ne_nil (splitAtChars_ne_nil (· == '\n') rest)
  rw [hsplit, endedLines, map_cons]
  simp

/-- A writer takes no notice of the carriage return at the end of a line. -/
lemma line_return (w : Writer) (line : List Char) :
    w.line (String.ofList (if line.getLast? = some '\r' then line.dropLast else line)) = w.line (String.ofList line) := by
  split_ifs with h
  · obtain ⟨line, rfl⟩ := getLast?_eq_some_iff.1 h
    have htrim : trim (String.ofList line) = trim (String.ofList (line ++ ['\r'])) := by
      rw [trim, trim, String.toList_ofList, String.toList_ofList, dropWhile_append]
      split_ifs with hnil
      · rw [isEmpty_iff.1 hnil]
        rfl
      · rw [dropWhileEnd_append_right _ (forall_mem_singleton.2 rfl)]
    rw [dropLast_concat, Writer.line, Writer.line, htrim]
  · rfl

lemma write_more (h : OneLine line) (w : Writer) (rest : List Char) :
    w.write (String.ofList (line ++ '\n' :: rest)) = (w.line (String.ofList line)).write (String.ofList rest) := by
  rw [write, lines_more h, writeLines, foldl_cons, line_return]
  rfl

lemma write_nil (w : Writer) : w.write (String.ofList []) = w := by
  have hlines : Text.lines (String.ofList []) = [] := rfl
  rw [write, hlines, writeLines, foldl_nil]

lemma write_last (h : OneLine line) (hne : line ≠ []) (w : Writer) : w.write (String.ofList line) = w.line (String.ofList line) := by
  rw [write, lines_last h hne, writeLines, foldl_cons, foldl_nil]

lemma write_append (h : before = [] ∨ before.getLast? = some '\n') (w : Writer) (cs : List Char) :
    w.write (String.ofList (before ++ cs)) = (w.write (String.ofList before)).write (String.ofList cs) := by
  rcases h with rfl | h
  · rw [nil_append, write_nil]
  induction before using lineInduction generalizing w with
  | last line hline => exact absurd (mem_of_getLast? h) hline
  | more line rest hline ih =>
    rw [append_assoc, cons_append, write_more hline, write_more hline]
    cases rest with
    | nil => rw [nil_append, write_nil]
    | cons c rest => exact ih _ (by simpa [getLast?_append] using h)

/-- A text whose braces are closed only where they are open changes the level by its braces. -/
lemma level_write (cs : List Char) (w : Writer) (h : Closes w.level (seen cs)) :
    (w.write (String.ofList cs)).level + (seen cs).count '\x7d' = w.level + (seen cs).count '\x7b' := by
  induction cs using lineInduction generalizing w with
  | last line hline =>
    by_cases hne : line = []
    · subst hne
      rfl
    · rw [write_last hline hne]
      exact (level_line_eq hline h).1
  | more line rest hline ih =>
    rw [seen_more] at h ⊢
    have hfirst := (level_line_eq hline (h.start (prefix_append _ _))).1
    have hrest := ih (w.line (String.ofList line)) (h.behind hfirst)
    rw [write_more hline, count_append, count_append]
    omega

/-! ## Depth of the code -/

/-- How often a brace is a token of code that starts before the offset. -/
def braceCount (text : String) (brace : Char) (offset : Nat) : Nat :=
  ((located text).filter fun l => l.token.text = brace.toString && l.start < offset).length

lemma braceCount_eq (hc : isBrace c) {text : String} {offset : Nat} :
    braceCount text c offset = (((bracesIn (located text)).filter (·.1 < offset)).map Prod.snd).count c := by
  rw [braceCount]
  induction located text with
  | nil => rfl
  | cons l ls ih =>
    rw [bracesIn_cons, filter_append, map_append, count_append, ← ih]
    cases hbrace : brace? l.token with
    | none =>
      have htext : l.token.text ≠ c.toString := by
        intro htext
        simp [brace?_eq_some_iff.2 ⟨hc, htext⟩] at hbrace
      rw [filter_cons, decide_eq_false htext]
      simp
    | some d =>
      obtain ⟨-, htext⟩ := brace?_eq_some_iff.1 hbrace
      by_cases hd : d = c <;> by_cases hstart : l.start < offset <;> simp [htext, hd, hstart, Nat.add_comm]

lemma level_eq {n k : Nat} (h : Code.level .curly n ts = some k) :
    k + (ts.filterMap brace?).count '\x7d' = n + (ts.filterMap brace?).count '\x7b' := by
  induction ts generalizing n with
  | nil => simpa [Code.level, eq_comm] using h
  | cons t ts ih =>
    obtain ⟨m, hm, hrest⟩ := Code.level_cons.1 h
    have := ih hrest
    rw [Code.levelBehind] at hm
    split_ifs at hm with hcloses hzero hopens
    · have hbrace : brace? t = some '\x7d' := brace?_eq_some_iff.2 ⟨rfl, hcloses⟩
      rw [filterMap_cons_some hbrace, count_cons_self, count_cons_of_ne (by decide)]
      have := Option.some.inj hm
      omega
    · have hbrace : brace? t = some '\x7b' := brace?_eq_some_iff.2 ⟨rfl, hopens⟩
      rw [filterMap_cons_some hbrace, count_cons_self, count_cons_of_ne (by decide)]
      have := Option.some.inj hm
      omega
    · have hbrace : brace? t = none := by
        refine Option.eq_none_iff_forall_ne_some.2 fun c hc => ?_
        obtain ⟨hbrace, htext⟩ := brace?_eq_some_iff.1 hc
        simp only [isBrace, Bool.or_eq_true, decide_eq_true_eq] at hbrace
        rcases hbrace with rfl | rfl
        · exact hopens htext
        · exact hcloses htext
      rw [filterMap_cons_none hbrace]
      have := Option.some.inj hm
      omega

/-- Nested braces are closed only where they are open, at any level. -/
lemma closes_of_balanced (h : Code.Balanced .curly ts) (level : Nat) : Closes level (ts.filterMap brace?) := by
  intro bs hbs
  obtain ⟨as, ⟨more, rfl⟩, rfl⟩ := prefix_filterMap_iff.1 hbs
  obtain ⟨k, hk⟩ : ∃ k, Code.level .curly 0 as = some k := by
    rw [Code.Balanced, Code.level, foldlM_append] at h
    obtain ⟨k, hk, -⟩ := Option.bind_eq_some_iff.1 h
    exact ⟨k, hk⟩
  have := level_eq hk
  omega

lemma map_snd_bracesIn (pos row : Nat) (ts : List Token) : (bracesIn (locate pos row ts)).map Prod.snd = ts.filterMap brace? := by
  induction ts generalizing pos row with
  | nil => rfl
  | cons t ts ih =>
    rw [locate, bracesIn_cons, map_append, ih]
    cases h : brace? t <;> simp [h]

/-- The first piece of a line has the line's indentation. -/
lemma wrap_first (hline : Trimmed line) (column : Nat) (further head : List Char) :
    ∃ content rest, wrap column further head line = String.ofList (head ++ content) :: rest ∧ content ≠ [] ∧ content <+: line := by
  rcases wrap_cases column further head line with ⟨hwrap, -⟩ | ⟨n, hn, hwrap⟩
  · exact ⟨line, [], hwrap, hline.ne_nil, prefix_refl _⟩
  · obtain ⟨-, ⟨c, hc, -⟩, -⟩ := trimmed_break hline hn
    exact ⟨_, _, hwrap, ne_nil_of_mem hc, (Text.dropWhileEnd_prefix _ _).trans (List.take_prefix n line)⟩

lemma lines_write (w : Writer) (cs : List Char) : ∃ new, (w.write (String.ofList cs)).lines = w.lines ++ new := by
  obtain ⟨blocks, hlines, -⟩ := written_writeLines w (Text.lines (String.ofList cs))
  exact ⟨blocks.flatten, hlines⟩

lemma lines_line (hline : OneLine line) (hsolid : ∃ c ∈ line, isSpace c = false) (w : Writer) :
    ∃ content rest, (w.line (String.ofList line)).lines = w.lines ++ String.ofList (indent (w.level - closers line) ++ content) :: rest ∧
      content ≠ [] ∧ content <+: (trim (String.ofList line)).toList := by
  have htrim : (trim (String.ofList line)).toList ≠ [] := by
    intro hnil
    obtain ⟨c, hc, hspace⟩ := hsolid
    have hvisible := Layout.visible_trim (String.ofList line)
    rw [hnil, filter_nil, eq_comm, filter_eq_nil_iff] at hvisible
    exact hvisible c (by simpa using hc) (by simp [hspace])
  have hwrap : (w.line (String.ofList line)).lines = w.lines ++
      wrap w.column (indent (w.level - closers line + 1)) (indent (w.level - closers line)) (trim (String.ofList line)).toList := by
    rw [Writer.line]
    rw [if_neg (by simpa using htrim), bracesOf_trim, String.toList_ofList, bracesOf_eq hline]
  obtain ⟨content, rest, hfirst, hne, hprefix⟩ := wrap_first (trimmed_trim htrim) w.column (indent (w.level - closers line + 1))
    (indent (w.level - closers line))
  exact ⟨content, rest, by rw [hwrap, hfirst], hne, hprefix⟩

/-- Writing a text with nested braces leads back to the level where it started. Every line that is not empty is indented by that level and the
braces that are open before the line, less the closing braces that lead it. -/
theorem write_indents (w : Writer) {text : String} (hclosed : ∀ t ∈ Token.ofString text, t.isClosed)
    (hnested : Code.Balanced .curly (Token.ofString text)) (hshown : shown (Token.ofString text) = true) :
    (w.write text).level = w.level ∧
    ∀ before line after, text.toList = before ++ (line ++ after) → (before = [] ∨ before.getLast? = some '\n') → OneLine line →
      (after = [] ∨ after.head? = some '\n') → (∃ c ∈ line, isSpace c = false) →
      ∃ level content rest, (w.write text).lines =
          (w.write (String.ofList before)).lines ++ String.ofList (indent level ++ content) :: rest ∧
        content ≠ [] ∧ content <+: (trim (String.ofList line)).toList ∧
        level + braceCount text '\x7d' (byteLength before) + closers line = w.level + braceCount text '\x7b' (byteLength before) := by
  obtain ⟨ts, tail, hscan⟩ : ∃ ts tail, scan text.toList = (ts, tail) := ⟨_, _, rfl⟩
  have htokens : Token.ofString text = ts := by rw [Token.ofString, hscan]
  have hsights : sights 0 false .plain text.toList = bracesIn (located text) := by
    rw [chars_scan hscan, located, htokens]
    exact sights_tokens (legible_of_scan hscan) (htokens ▸ hclosed) (htokens ▸ hshown) 0 1
  have hseen : seen text.toList = (Token.ofString text).filterMap brace? := by
    rw [seen, hsights, located, map_snd_bracesIn]
  have hcloses : Closes w.level (seen text.toList) := hseen ▸ closes_of_balanced hnested w.level
  constructor
  · have hlevel := level_write text.toList w hcloses
    have hall := level_eq hnested
    rw [String.ofList_toList] at hlevel
    rw [← hseen] at hall
    omega
  · intro before line after htext hbefore hline hafter hsolid
    have hseenBefore : seen text.toList = seen before ++ seen (line ++ after) := by
      rcases hbefore with rfl | hbefore
      · rw [htext]
        rfl
      · rw [htext, seen_append hbefore]
    have hcount {c : Char} (hc : isBrace c) : braceCount text c (byteLength before) = (seen before).count c := by
      rw [braceCount_eq hc, ← hsights, htext]
      rcases hbefore with rfl | hbefore
      · simp [seen, sights]
      · rw [sights_append hbefore, Nat.zero_add, filter_append,
          filter_eq_self.2 fun x hx => by simpa using (lt_of_mem_sights hx).2,
          filter_eq_nil_iff.2 fun x hx => by simpa using (lt_of_mem_sights hx).1, append_nil]
        rfl
    have hwrite : w.write text = (w.write (String.ofList before)).write (String.ofList (line ++ after)) := by
      rw [← write_append hbefore, ← htext, String.ofList_toList]
    rw [hseenBefore] at hcloses
    have hlevel := level_write before w (hcloses.start (prefix_append _ _))
    have hbehind := hcloses.behind hlevel
    obtain ⟨hseenLine, more, hmore⟩ : seen line <+: seen (line ++ after) ∧ ∃ more, ∀ v : Writer,
        v.write (String.ofList (line ++ after)) = (v.line (String.ofList line)).write (String.ofList more) := by
      have hne : line ≠ [] := by
        obtain ⟨c, hc, -⟩ := hsolid
        exact ne_nil_of_mem hc
      rcases hafter with rfl | hafter
      · exact ⟨by simp, [], fun v => by rw [append_nil, write_last hline hne, write_nil]⟩
      · obtain ⟨more, rfl⟩ := head?_eq_some_iff.1 hafter
        exact ⟨by rw [seen_more]; exact prefix_append _ _, more, fun v => write_more hline v more⟩
    generalize w.write (String.ofList before) = v at hwrite hlevel hbehind ⊢
    have hle := (level_line_eq hline (hbehind.start hseenLine)).2
    obtain ⟨content, rest, hlines, hne, hprefix⟩ := lines_line hline hsolid v
    obtain ⟨new, hnew⟩ := lines_write (v.line (String.ofList line)) more
    refine ⟨v.level - closers line, content, rest ++ new, ?_, hne, hprefix, ?_⟩
    · rw [hwrite, hmore, hnew, hlines, List.append_assoc, cons_append]
    · rw [hcount rfl, hcount rfl]
      omega

/-- Nested braces with others in a literal and a line comment, a comment over two lines, and closing braces that lead a line. -/
def bracedText : String :=
  "f(\"\x7d\") \x7b if (a) \x7b // \x7b\r\n/* on\n   two lines */ b; \x7d\n\n else \x7b\n c;\n\x7d \x7d"

theorem write_indents_braced :
    ((Token.ofString bracedText).all isClosed ∧ Code.Balanced .curly (Token.ofString bracedText) ∧
      shown (Token.ofString bracedText) = true) ∧
    ((ofColumn 120).write bracedText).lines =
      ["f(\"\x7d\") \x7b if (a) \x7b // \x7b", "        /* on", "        two lines */ b; \x7d", "", "    else \x7b", "        c;",
        "\x7d \x7d"] ∧
    ((ofColumn 120).write bracedText).level = 0 := by
  have hclosed : (Token.ofString bracedText).all isClosed := by decide +kernel
  have hnested : Code.Balanced .curly (Token.ofString bracedText) := by decide +kernel
  have hshown : shown (Token.ofString bracedText) = true := by decide +kernel
  exact ⟨⟨hclosed, hnested, hshown⟩, by decide +kernel, (write_indents (ofColumn 120) (List.all_eq_true.1 hclosed) hnested hshown).1⟩

/-- A brace in a block comment is taken for code. -/
theorem not_write_indents_comment :
    ((Token.ofString "/* \x7b */\nx").all isClosed ∧ Code.Balanced .curly (Token.ofString "/* \x7b */\nx")) ∧
    ((ofColumn 120).write "/* \x7b */\nx").lines = ["/* \x7b */", "    x"] ∧ ((ofColumn 120).write "/* \x7b */\nx").level = 1 := by
  decide +kernel

end DeviceForge.Writer
