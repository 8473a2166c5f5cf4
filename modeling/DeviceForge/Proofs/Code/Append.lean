import DeviceForge.Proofs.Token.Kin
/-!
# Where the tokens of code stand

Code keeps a comment in the lead of the token behind it, so the places of its tokens can be measured on the tokens
alone.
-/

namespace DeviceForge.Code

open Token List String Text

/-- The tokens of a text that are no comments, where they stand. -/
def places (s : String) : List Located :=
  (located s).filter (!·.token.isComment)

def view (t : Located) : Token.Kind × String × Nat × Nat × Nat :=
  (t.token.kind, t.token.text, t.start, t.stop, t.line)

lemma lineFeeds_append (s t : String) : lineFeeds (s ++ t) = lineFeeds s + lineFeeds t := by
  simp [lineFeeds]

lemma view_foldComments (pos line : Nat) (lead : String) (ts : List Token) (tail : String) :
    (locate pos line (foldComments lead ts tail).tokens).map view =
      ((locate (pos + lead.utf8ByteSize) (line + lineFeeds lead) ts).filter (!·.token.isComment)).map view := by
  induction ts generalizing pos line lead with
  | nil => rfl
  | cons t ts ih =>
    by_cases h : t.isComment
    · rw [foldComments, if_pos h, ih, locate, filter_cons_of_neg (by simp [h])]
      simp only [spelling, utf8ByteSize_append, lineFeeds_append, Nat.add_assoc]
    · rw [foldComments, if_neg h, locate, locate, filter_cons_of_pos (by simp [h]), map_cons, map_cons, ih]
      simp [view, utf8ByteSize_append, Nat.add_assoc, lineFeeds]

lemma view_places (s : String) : (locate 0 1 (ofString s).tokens).map view = (places s).map view := by
  rw [ofString, view_foldComments]
  rfl

/-! ## Offsets measured on tokens -/

lemma width_append (as bs : List Token) : width (as ++ bs) = width as + width bs := by
  induction as with
  | nil => simp [width]
  | cons a as ih => simp [width, ih, Nat.add_assoc]

lemma width_reverse (ts : List Token) : width ts.reverse = width ts := by
  induction ts with
  | nil => rfl
  | cons t ts ih =>
    rw [reverse_cons, width_append, ih]
    simp [width, Nat.add_comm]

lemma width_eq (ts : List Token) : width ts = byteLength (chars ts) := by
  induction ts with
  | nil => rfl
  | cons t ts ih => simp [width, size, ih, byteLength_toList, Nat.add_assoc]

lemma toList_spell (ts : List Token) : (spell ts).toList = Token.chars ts := by
  simp [spell, Token.chars, flatMap_map]

def startAt (ts : List Token) (i : Nat) : Nat :=
  width (ts.take i) + (ts[i]?).elim 0 (·.lead.utf8ByteSize)

lemma locate_getElem? (pos line : Nat) (ts : List Token) (i : Nat) :
    ((locate pos line ts)[i]?).map (fun t => (t.start, t.stop)) =
      if i < ts.length then some (pos + startAt ts i, pos + width (ts.take (i + 1))) else none := by
  induction ts generalizing pos line i with
  | nil => simp [locate]
  | cons t ts ih =>
    cases i with
    | zero => simp [locate, startAt, width, size, Nat.add_assoc]
    | succ i =>
      rw [locate, getElem?_cons_succ, ih]
      simp only [length_cons, Nat.add_lt_add_iff_right, startAt, take_succ_cons, width, size,
        getElem?_cons_succ, Nat.add_assoc]

lemma place_at {s : String} {i : Nat} (h : i < (ofString s).tokens.length) :
    ((places s)[i]?).map (·.start) = some (startAt (ofString s).tokens i) ∧
    ((places s)[i]?).map (·.stop) = some (width ((ofString s).tokens.take (i + 1))) := by
  have hview := congrArg (fun l => (l[i]?).map fun v : Token.Kind × String × Nat × Nat × Nat => (v.2.2.1, v.2.2.2.1))
    (view_places s)
  simp only [getElem?_map, Option.map_map] at hview
  have hloc := locate_getElem? 0 1 (ofString s).tokens i
  rw [if_pos h, Nat.zero_add, Nat.zero_add] at hloc
  have hplace : ((places s)[i]?).map (fun t => (t.start, t.stop)) =
      some (startAt (ofString s).tokens i, width ((ofString s).tokens.take (i + 1))) := hview.symm.trans hloc
  obtain ⟨t, ht, heq⟩ := Option.map_eq_some_iff.1 hplace
  rw [ht]
  exact ⟨congrArg some (Prod.mk.inj heq).1, congrArg some (Prod.mk.inj heq).2⟩

lemma bytes_span {s : String} {i n : Nat} (hn : 0 < n) (h : i + n ≤ (ofString s).tokens.length) :
    (span (((ofString s).tokens.drop i).take n)).toUTF8.data.toList =
      (s.toUTF8.data.toList.take (width ((ofString s).tokens.take (i + n)))).drop (startAt (ofString s).tokens i) := by
  obtain ⟨t, mid, hmid⟩ : ∃ t mid, ((ofString s).tokens.drop i).take n = t :: mid :=
    exists_cons_of_ne_nil (ne_nil_of_length_pos (by rw [length_take, length_drop]; omega))
  have hhead : (ofString s).tokens[i]? = some t := by
    have := congrArg head? hmid
    rwa [head?_take, if_neg (by omega), head?_drop] at this
  have htake : (ofString s).tokens.take (i + n) = (ofString s).tokens.take i ++ t :: mid := by rw [take_add, hmid]
  have hs : s.toList = (chars ((ofString s).tokens.take i) ++ t.lead.toList) ++
      (t.text.toList ++ chars mid) ++ (chars ((ofString s).tokens.drop (i + n)) ++ (ofString s).tail.toList) := by
    conv_lhs => rw [← toString_ofString s, Code.toString, toList_append, toList_spell,
      ← take_append_drop (i + n) (ofString s).tokens, htake]
    simp
  have hstart : startAt (ofString s).tokens i =
      byteLength (chars ((ofString s).tokens.take i) ++ t.lead.toList) := by
    rw [startAt, hhead, width_eq, byteLength_append, byteLength_toList]
    rfl
  have hstop : width ((ofString s).tokens.take (i + n)) =
      byteLength (chars ((ofString s).tokens.take i) ++ t.lead.toList) +
        byteLength (t.text.toList ++ chars mid) := by
    rw [htake, width_eq, ← byteLength_append]
    simp
  rw [toList_toUTF8, toList_toUTF8, hs, hstart, hstop, bytes_between, hmid, span, toList_append, toList_spell]

end DeviceForge.Code

/-!
# Code behind code

Where two texts stand one behind the other and no token goes over the joint, the code of both is the code of the first
and then that of the second (`append`); what the first ends with is then part of the lead of the token behind it.
-/

namespace DeviceForge.Code

open String List Token

variable {s rest lead tail w more : String} {t : Token} {ts us : List Token} {c : Char}

/-- Code behind a text that holds no token of code. -/
def behind (lead : String) (c : Code) : Code :=
  match c.tokens with
  | [] => ⟨[], lead ++ c.tail⟩
  | t :: ts => ⟨⟨t.kind, lead ++ t.lead, t.text⟩ :: ts, c.tail⟩

def append (a b : Code) : Code :=
  ⟨a.tokens ++ (b.behind a.tail).tokens, (b.behind a.tail).tail⟩

lemma append_cons (a : Code) (t : Token) (ts : List Token) (tail : String) :
    a.append ⟨t :: ts, tail⟩ = ⟨a.tokens ++ ⟨t.kind, a.tail ++ t.lead, t.text⟩ :: ts, tail⟩ :=
  rfl

lemma behind_behind (a b : String) (c : Code) : (c.behind b).behind a = c.behind (a ++ b) := by
  obtain ⟨ts, tail⟩ := c
  cases ts <;> simp [behind, String.append_assoc]

lemma append_assoc (a b c : Code) : (a.append b).append c = a.append (b.append c) := by
  obtain ⟨as, ta⟩ := a
  obtain ⟨bs, tb⟩ := b
  cases bs with
  | nil =>
    have hleft : append ⟨as, ta⟩ ⟨[], tb⟩ = ⟨as, ta ++ tb⟩ := by simp [append, behind]
    have hright : append ⟨[], tb⟩ c = c.behind tb := rfl
    rw [hleft, hright, append, append, behind_behind]
  | cons t bs => simp [append, behind]

lemma foldComments_eq_behind (lead : String) (ts : List Token) (tail : String) :
    foldComments lead ts tail = (foldComments "" ts tail).behind lead := by
  induction ts generalizing lead with
  | nil => simp [foldComments, behind]
  | cons t ts ih =>
    by_cases h : t.isComment
    · rw [foldComments, if_pos h, foldComments, if_pos h, ih, ih ("" ++ t.spelling), behind_behind]
      simp
    · simp [foldComments, h, behind]

lemma foldComments_append (lead : String) (ts us : List Token) (tail : String) :
    foldComments lead (ts ++ us) tail = (foldComments lead ts "").append (foldComments "" us tail) := by
  induction ts generalizing lead with
  | nil => rw [nil_append, foldComments_eq_behind, foldComments, append]; simp
  | cons t ts ih =>
    by_cases h : t.isComment
    · rw [cons_append, foldComments, if_pos h, foldComments, if_pos h, ih]
    · rw [cons_append, foldComments, if_neg h, foldComments, if_neg h, ih]
      rfl

lemma foldComments_tail (lead : String) (ts : List Token) (tail : String) :
    foldComments lead ts tail = (foldComments lead ts "").append ⟨[], tail⟩ := by
  have := foldComments_append lead ts [] tail
  rwa [append_nil] at this

lemma foldComments_prependBlank (w : List Char) (x : List Token × String) :
    foldComments "" (prependBlank w x).1 (prependBlank w x).2 = (foldComments "" x.1 x.2).behind (ofList w) := by
  obtain ⟨ts, tail⟩ := x
  rw [← foldComments_eq_behind]
  cases ts with
  | nil => simp [prependBlank, foldComments]
  | cons t ts =>
    by_cases h : t.kind = .comment
    · simp [prependBlank, foldComments, isComment, h, spelling, String.append_assoc]
    · simp [prependBlank, foldComments, isComment, h]

/-- Blanks and closed comments, which are passed over whatever follows them. -/
def Trivia (s : String) : Prop :=
  ∀ rest, ofString (s ++ rest) = (ofString rest).behind s

lemma trivia_blank (h : Token.Blank s.toList) : Trivia s := by
  intro rest
  have hfold := foldComments_prependBlank s.toList (scan rest.toList)
  rw [ofList_toList] at hfold
  rw [ofString, toList_append, scan_blank_append h]
  exact hfold

lemma trivia_empty : Trivia "" :=
  trivia_blank (by simp [Token.Blank])

lemma scan_reads (h : Token.Reads t rest.toList) :
    scan (t.text ++ rest).toList = (⟨t.kind, "", t.text⟩ :: (scan rest.toList).1, (scan rest.toList).2) := by
  have hopens : Token.Opens [⟨t.kind, "", t.text⟩] rest.toList := ⟨by simp [Token.Blank], h, trivial⟩
  have hscan := scan_opens hopens
  simpa using hscan

lemma ofString_comment (hcomment : t.isComment) (h : Token.Reads t rest.toList) :
    ofString (t.text ++ rest) = (ofString rest).behind t.text := by
  have hkind : t.kind = .comment := by simpa [isComment] using hcomment
  rw [ofString, scan_reads h]
  simp [foldComments, isComment, hkind, spelling, foldComments_eq_behind t.text, ofString]

lemma ofString_token (hcomment : t.isComment = false) (h : Token.Reads t rest.toList) :
    ofString (t.text ++ rest) = ⟨⟨t.kind, "", t.text⟩ :: (ofString rest).tokens, (ofString rest).tail⟩ := by
  have hkind : t.kind ≠ .comment := by simpa [isComment] using hcomment
  rw [ofString, scan_reads h]
  simp [foldComments, isComment, hkind, ofString]

/-! ## Tokens where they stand -/

/-- Tokens of code are read one after the other, each behind its lead, if `rest` follows the last of them. -/
def Opens : List Token → String → Prop
  | [], _ => True
  | t :: ts, rest => Trivia t.lead ∧ t.isComment = false ∧ Token.Reads t (spell ts ++ rest).toList ∧ Opens ts rest

lemma spell_nil : spell [] = "" := rfl

lemma spell_cons (t : Token) (ts : List Token) : spell (t :: ts) = t.lead ++ (t.text ++ spell ts) := by
  simp [spell, spelling, String.append_assoc]

lemma spell_append (ts us : List Token) : spell (ts ++ us) = spell ts ++ spell us := by
  induction ts with
  | nil => simp [spell_nil]
  | cons t ts ih => rw [cons_append, spell_cons, spell_cons, ih, String.append_assoc, String.append_assoc]

lemma ofString_opens (h : Opens ts rest) :
    ofString (spell ts ++ rest) = ⟨ts ++ (ofString rest).tokens, (ofString rest).tail⟩ := by
  induction ts with
  | nil => simp [spell_nil]
  | cons t ts ih =>
    obtain ⟨hlead, hcode, hreads, hts⟩ := h
    rw [spell_cons, String.append_assoc, String.append_assoc, hlead, ofString_token hcode hreads, ih hts]
    simp [behind]

lemma opens_append : Opens (ts ++ us) rest ↔ Opens ts (spell us ++ rest) ∧ Opens us rest := by
  induction ts with
  | nil => simp [Opens]
  | cons t ts ih =>
    rw [cons_append, Opens, Opens, ih, spell_append, String.append_assoc]
    tauto

lemma Opens.reads (h : Opens ts rest) : ∀ t ∈ ts, ∃ cs, Token.Reads t cs := by
  induction ts with
  | nil => simp
  | cons t ts ih => exact forall_mem_cons.2 ⟨⟨_, h.2.2.1⟩, ih h.2.2.2⟩

lemma opens_of_blank (h : Token.Opens ts rest.toList) (hcode : ∀ t ∈ ts, t.isComment = false) : Opens ts rest := by
  induction ts with
  | nil => trivial
  | cons t ts ih =>
    obtain ⟨ht, hts⟩ := forall_mem_cons.1 hcode
    refine ⟨trivia_blank h.1, ht, ?_, ih h.2.2 hts⟩
    rw [toList_append, toList_spell]
    exact h.2.1

def Passes (s : String) (rest : List Char) : Prop :=
  ∀ more : String, (Lexeme.BreaksOff rest → Lexeme.BreaksOff more.toList) → ofString (s ++ more) = (ofString more).behind s

lemma Passes.trivia {rest rest' : List Char} (h : Passes s (t.lead.toList ++ (t.text.toList ++ rest)))
    (hlead : Token.Blank t.lead.toList) (hreads : Token.Reads t rest') : Trivia (s ++ t.lead) := by
  intro more
  rw [String.append_assoc, h (t.lead ++ more), trivia_blank hlead, behind_behind]
  intro hbreak
  obtain ⟨c, cs, htext, hc, -⟩ := hreads
  cases hl : t.lead.toList with
  | nil =>
    have hline := hbreak c (by rw [hl, htext]; rfl)
    simp only [Lexeme.isLineBreak, Bool.or_eq_true, decide_eq_true_eq] at hline
    rcases hline with rfl | rfl <;> cases hc
  | cons d ds =>
    rw [hl] at hbreak
    rw [toList_append, hl]
    exact hbreak

lemma opens_foldComments (hlegible : Token.Legible ts tail.toList) (hlead : Passes lead (chars ts ++ tail.toList)) :
    Opens (foldComments lead ts tail).tokens (foldComments lead ts tail).tail := by
  induction ts generalizing lead with
  | nil => trivial
  | cons t ts ih =>
    obtain ⟨hblank, hreads, hlegible⟩ := hlegible
    rw [chars_cons, List.append_assoc, List.append_assoc] at hlead
    have htrivia := hlead.trivia hblank hreads
    by_cases hcomment : t.isComment
    · rw [foldComments, if_pos hcomment]
      by_cases hend : chars ts ++ tail.toList = []
      · obtain ⟨hchars, -⟩ := append_eq_nil_iff.1 hend
        cases ts with
        | nil => trivial
        | cons u us =>
          obtain ⟨c, cs, htext, -⟩ := hlegible.2.1
          simp [htext] at hchars
      · refine ih hlegible fun more hmore => ?_
        have hread : Token.Reads t more.toList := by
          have hkind : t.kind = .comment := by simpa [isComment] using hcomment
          by_cases hline : t.isLineComment
          · obtain ⟨cs, -, htext, hbreak, hrest⟩ := reads_line hreads hline
            exact reads_lineComment hkind htext hbreak (hmore hrest)
          · exact reads_of_isClosed hreads (isClosed_of_reads hreads hend) (by rw [hkind]; decide) (by simpa using hline) _
        have hall := htrivia (t.text ++ more)
        rw [ofString_comment hcomment hread, behind_behind] at hall
        simpa [spelling, String.append_assoc] using hall
    · have hcode : t.isComment = false := by simpa using hcomment
      have htext := toString_foldComments "" ts tail
      rw [Code.toString, empty_append] at htext
      rw [foldComments, if_neg hcomment]
      refine ⟨htrivia, hcode, ?_, ih hlegible fun more _ => trivia_empty more⟩
      change Token.Reads t (spell _ ++ _).toList
      rw [htext, toList_append, toList_spell]
      exact hreads

lemma opens_ofString (s : String) : Opens (ofString s).tokens (ofString s).tail :=
  opens_foldComments (legible_of_scan (Prod.eta _).symm) fun more _ => trivia_empty more

lemma tokens_tail (s : String) : (ofString (ofString s).tail).tokens = [] := by
  have h := ofString_opens (opens_ofString s)
  rw [show spell (ofString s).tokens ++ (ofString s).tail = s from toString_ofString s] at h
  have hlen := congrArg (fun c => c.tokens.length) h
  simpa using hlen

lemma ofString_tail (s : String) : ofString (ofString s).tail = ⟨[], (ofString s).tail⟩ := by
  have hspelled := toString_ofString (ofString s).tail
  have htokens := tokens_tail s
  rw [Code.toString, htokens, spell_nil, empty_append] at hspelled
  exact mk.injEq .. |>.mpr ⟨htokens, hspelled⟩

lemma ofString_bracket (hw : w.toList = [c]) (hc : isBracket c) (s : String) :
    ofString (w ++ s) = ⟨⟨.punct, "", w⟩ :: (ofString s).tokens, (ofString s).tail⟩ := by
  have hblank : Text.isBlank c = false := by
    cases h : Text.isBlank c with
    | true => exact absurd rfl (Segment.ne_bracket_of_blank hc h)
    | false => rfl
  have hreads : Token.Reads ⟨.punct, "", w⟩ s.toList := ⟨c, [], hw, hblank, extent_bracket hc _⟩
  exact ofString_token (t := ⟨.punct, "", w⟩) rfl hreads

/-! ## Whole texts -/

/-- The literals and comments of a text are closed; a comment up to the end of a line has its line break. -/
def Whole (s : String) : Prop :=
  (∀ t ∈ Token.ofString s, t.isClosed = true) ∧
    ∀ t ∈ (Token.ofString s).getLast?, t.isLineComment = true → (Token.scan s.toList).2 ≠ ""

instance (s : String) : Decidable (Whole s) :=
  inferInstanceAs (Decidable (_ ∧ _))

def EndsInWord (s : String) : Prop :=
  (Token.scan s.toList).2 = "" ∧ ∃ t ∈ (Token.ofString s).getLast?, t.kind = .identifier ∨ t.kind = .number

instance (s : String) : Decidable (EndsInWord s) :=
  inferInstanceAs (Decidable (_ ∧ _))

lemma ofString_append (hpoint : more.toList.head? ≠ some '.')
    (hlast : ∀ t ∈ (Token.ofString s).getLast?, (Token.scan s.toList).2 = "" → Token.Reads t more.toList) :
    ofString (s ++ more) = (ofString s).append (ofString more) := by
  obtain ⟨ts, tail, hscan⟩ : ∃ ts tail, scan s.toList = (ts, tail) := ⟨_, _, rfl⟩
  have hopens : Token.Opens ts (tail.toList ++ more.toList) := by
    refine Token.opens_append (legible_of_scan hscan) hpoint fun t ht htail => ?_
    rw [Token.ofString, hscan] at hlast
    exact hlast t ht (toList_injective htail)
  have hblank := scan_blank_append (scan_tail hscan) more.toList
  have hboth := scan_opens hopens
  rw [← List.append_assoc, ← chars_scan hscan, hblank] at hboth
  have hs : ofString s = (foldComments "" ts "").append ⟨[], tail⟩ := by rw [ofString, hscan]; exact foldComments_tail "" ts tail
  rw [ofString, toList_append, hboth, hs, append_assoc]
  change foldComments "" (ts ++ _) _ = _
  rw [foldComments_append, foldComments_prependBlank, ofList_toList]
  rfl

lemma ofString_whole (hs : Whole s) (hw : w.toList.head? = some c) (hpoint : c ≠ '.') (more : String)
    (hlast : ∀ t ∈ (Token.ofString s).getLast?, (scan s.toList).2 = "" → t.kind.segment = .code →
      ∀ ys zs, Token.Reads t ys → Token.Reads t (c :: zs)) :
    ofString (s ++ (w ++ more)) = (ofString s).append (ofString (w ++ more)) := by
  obtain ⟨cs, hcs⟩ := head?_eq_some_iff.1 hw
  have hmore : (w ++ more).toList = c :: (cs ++ more.toList) := by rw [toList_append, hcs, cons_append]
  refine ofString_append (by simp [hmore, hpoint]) fun t ht htail => ?_
  have hmem := mem_of_mem_getLast? ht
  obtain ⟨ys, hreads⟩ := (legible_of_scan (Prod.eta _).symm).reads t hmem
  rw [hmore]
  by_cases hcode : t.kind.segment = .code
  · exact hlast t ht htail hcode ys _ hreads
  · have hline : t.isLineComment = false := by
      by_contra hline
      exact hs.2 t ht (by simpa using hline) htail
    exact reads_of_isClosed hreads (hs.1 t hmem) hcode hline _

lemma ofString_whole_stop (hs : Whole s) (hw : w.toList.head? = some c) (hstop : isStop c)
    (more : String) : ofString (s ++ (w ++ more)) = (ofString s).append (ofString (w ++ more)) := by
  refine ofString_whole hs hw (fun hpoint => by cases hpoint ▸ hstop) more fun t _ _ hcode ys zs hreads => ?_
  exact reads_stop hreads hcode hstop zs

lemma ofString_whole_letter (hs : Whole s) (hword : ¬EndsInWord s) (hw : w.toList.head? = some c)
    (hc : (c.isAlpha || c = '_')) (more : String) :
    ofString (s ++ (w ++ more)) = (ofString s).append (ofString (w ++ more)) := by
  refine ofString_whole hs hw (fun hpoint => by cases hpoint ▸ hc) more fun t ht htail hcode ys zs hreads => ?_
  have hpunct : t.kind = .punct := by
    cases hkind : t.kind with
    | identifier => exact absurd ⟨htail, t, ht, .inl hkind⟩ hword
    | number => exact absurd ⟨htail, t, ht, .inr hkind⟩ hword
    | punct => rfl
    | str | char | comment => rw [hkind] at hcode; cases hcode
  exact reads_letter hreads hpunct hc zs

end DeviceForge.Code

/-! # Texts put together -/

namespace DeviceForge

open Lexeme Token List

def Token.operatorHeads : List Char :=
  ['(', ')', '[', ']', '\x7b', '\x7d', ';', ',', '=', '>', '+', '-', '*']

lemma Token.kind_of_head {t : Token} {rest : List Char} (h : Reads t rest) {c : Char} (hc : t.text.toList.head? = some c)
    (hop : c ∈ operatorHeads) : t.kind = .punct := by
  obtain ⟨d, cs, htext, -, hext⟩ := h
  obtain rfl : d = c := by simpa [htext] using hc
  simp only [operatorHeads, mem_cons, not_mem_nil, or_false] at hop
  have hkind := congrArg Prod.fst hext
  rcases hop with rfl | rfl | rfl | rfl | rfl | rfl | rfl | rfl | rfl | rfl | rfl | rfl | rfl <;> exact hkind.symm

lemma text_ne {t : Token} {rest : List Char} (h : Reads t rest) (hkind : t.kind ≠ .punct) {w : String} {c : Char}
    (hw : w.toList.head? = some c) (hop : c ∈ operatorHeads) : t.text ≠ w := by
  rintro rfl
  exact hkind (kind_of_head h hw hop)

namespace Token

def Halts (cs : List Char) : Prop :=
  ∀ c ∈ cs.head?, (Text.isBlank c || isStop c) = true

lemma Halts.not_point {cs : List Char} (h : Halts cs) : cs.head? ≠ some '.' := by
  intro hpoint
  exact absurd (h '.' hpoint) (by decide)

lemma reads_halts {t : Token} {ys : List Char} (h : Reads t ys) (hcode : t.kind.segment = .code) {cs : List Char} (hcs : Halts cs) :
    Reads t cs := by
  cases cs with
  | nil => exact reads_of_follows h hcode (.inl apart_nil)
  | cons c cs =>
    rcases Bool.or_eq_true _ _ ▸ hcs c rfl with hblank | hstop
    · exact reads_of_follows h hcode (.inl (apart_cons hblank cs))
    · exact reads_stop h hcode hstop cs

end Token

namespace Code

variable {ts : List Token} {rest more s w spaced : String} {c : Char} {xs ys : List (Token.Kind × String)}

lemma Opens.elsewhere (h : Opens ts rest) (hpoint : more.toList.head? ≠ some '.')
    (hlast : ∀ t ∈ ts.getLast?, Token.Reads t more.toList) : Opens ts more := by
  induction ts with
  | nil => trivial
  | cons t ts ih =>
    obtain ⟨hlead, hcomment, hreads, hts⟩ := h
    refine ⟨hlead, hcomment, ?_, ih hts fun u hu => hlast u ?_⟩
    · cases ts with
      | nil => simpa [spell_nil] using hlast t rfl
      | cons u us =>
        have hne : (spell (u :: us)).toList ≠ [] := by
          obtain ⟨c, cs, htext, -⟩ := hts.2.2.1
          simp [spell_cons, htext]
        rw [String.toList_append] at hreads ⊢
        exact reads_swap hreads hne fun _ => hpoint
    · rw [getLast?_cons, show ts.getLast? = some u from hu]
      rfl

lemma shapes_trivia (h : Trivia s) (rest : String) : shapes (s ++ rest) = shapes rest := by
  rw [shapes, h, shapes]
  obtain ⟨ts, tail⟩ := ofString rest
  cases ts <;> rfl

lemma shapes_token {t : Token} (hcomment : t.isComment = false) (h : Token.Reads t rest.toList) :
    shapes (t.text ++ rest) = t.bare :: shapes rest := by
  rw [shapes, ofString_token hcomment h]
  rfl

lemma shapes_opens (h : Opens ts rest) : shapes (spell ts ++ rest) = ts.map bare ++ shapes rest := by
  rw [shapes, ofString_opens h, map_append]
  rfl

def Spelled (s : String) (xs : List (Token.Kind × String)) : Prop :=
  ∀ more : String, Token.Halts more.toList → shapes (s ++ more) = xs ++ shapes more

lemma spelled_spell (h : Opens ts rest) (hcode : ∀ t ∈ ts, t.kind.segment = .code) :
    Spelled (spell ts) (ts.map bare) := by
  intro more hmore
  refine shapes_opens (h.elsewhere hmore.not_point fun t ht => ?_)
  have hmem := mem_of_mem_getLast? ht
  obtain ⟨ys, hreads⟩ := h.reads t hmem
  exact reads_halts hreads (hcode t hmem) hmore

lemma spelled_span (h : Opens ts rest) (hcode : ∀ t ∈ ts, t.kind.segment = .code) :
    Spelled (span ts) (ts.map bare) := by
  cases ts with
  | nil => exact fun more _ => by simp [span]
  | cons t ts =>
    have hopens : Opens (⟨t.kind, "", t.text⟩ :: ts) rest := ⟨trivia_empty, h.2.1, h.2.2.1, h.2.2.2⟩
    have hspell : spell (⟨t.kind, "", t.text⟩ :: ts) = span (t :: ts) := by rw [spell_cons, span, String.empty_append]
    have hspelled := spelled_spell hopens fun u hu => by
      rcases mem_cons.1 hu with rfl | hu
      · exact hcode t mem_cons_self
      · exact hcode u (mem_cons_of_mem _ hu)
    rwa [hspell] at hspelled

lemma trivia_space : Trivia " " :=
  trivia_blank (by simp [Token.Blank, Text.isBlank])

lemma halts_space (s : String) : Token.Halts (" " ++ s).toList := by
  intro c hc
  obtain rfl : ' ' = c := by simpa using hc
  decide

lemma shapes_operator (hw : isLexeme .punct w) (more : String) :
    shapes (" " ++ (w ++ (" " ++ more))) = (.punct, w) :: shapes more := by
  have hreads : Token.Reads ⟨.punct, "", w⟩ (" " ++ more).toList :=
    reads_halts (reads_of_isLexeme hw) rfl (halts_space more)
  rw [shapes_trivia trivia_space, shapes_token (t := ⟨.punct, "", w⟩) rfl hreads, shapes_trivia trivia_space]
  rfl

lemma shapes_single (hw : w.toList = [c]) (hc : c ∈ ['(', ')', '[', ']', '\x7b', '\x7d', ';', ','])
    (more : String) : shapes (w ++ more) = (.punct, w) :: shapes more := by
  refine shapes_token (t := ⟨.punct, "", w⟩) rfl ⟨c, [], hw, ?_, ?_⟩
  · simp only [mem_cons, not_mem_nil, or_false] at hc
    rcases hc with rfl | rfl | rfl | rfl | rfl | rfl | rfl | rfl <;> decide
  · simp only [mem_cons, not_mem_nil, or_false] at hc
    rcases hc with rfl | rfl | rfl | rfl | rfl | rfl | rfl | rfl <;> simp [extent, operator, operators]

lemma halts_single (hw : w.toList = [c]) (hc : isStop c) (more : String) : Token.Halts (w ++ more).toList := by
  intro d hd
  obtain rfl : c = d := by simpa [hw] using hd
  simp [hc]

lemma Spelled.operator {t : String} (hs : Spelled s xs) (ht : Spelled t ys)
    (hspaced : spaced = " " ++ (w ++ " ")) (hw : isLexeme .punct w) :
    Spelled (s ++ (spaced ++ t)) (xs ++ (.punct, w) :: ys) := by
  intro more hmore
  have h := hs (" " ++ (w ++ (" " ++ (t ++ more)))) (halts_space _)
  rw [shapes_operator hw, ht more hmore] at h
  simpa [hspaced, String.append_assoc] using h

lemma Spelled.parens (hs : Spelled s xs) :
    Spelled ("(" ++ (s ++ ")")) ((.punct, "(") :: (xs ++ [(.punct, ")")])) := by
  intro more _
  have h := hs (")" ++ more) (halts_single rfl (by decide) more)
  rw [shapes_single (w := ")") rfl (by decide)] at h
  have hopen := shapes_single (w := "(") rfl (by decide) (s ++ (")" ++ more))
  rw [h] at hopen
  simpa [String.append_assoc] using hopen

lemma Spelled.minus (hs : Spelled s xs) (hc : s.toList.head? = some c) (hop : c ∉ ['-', '>', '=']) :
    Spelled ("-" ++ s) ((.punct, "-") :: xs) := by
  intro more hmore
  obtain ⟨cs, hcs⟩ := head?_eq_some_iff.1 hc
  have hreads : Token.Reads ⟨.punct, "", "-"⟩ (s ++ more).toList := by
    refine ⟨'-', [], rfl, by decide, ?_⟩
    simp only [mem_cons, not_mem_nil, or_false, not_or] at hop
    rw [String.toList_append, hcs]
    simp [extent, operator_eq, longOperators, shortOperators, hop]
  have h := shapes_token (t := ⟨.punct, "", "-"⟩) rfl hreads
  rw [hs more hmore] at h
  simpa [String.append_assoc, bare] using h

end Code

end DeviceForge
