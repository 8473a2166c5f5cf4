import DeviceForge.Proofs.Layout.Assignment
import DeviceForge.Proofs.Layout.Spacing
import DeviceForge.Proofs.Layout.Buffer
import DeviceForge.Proofs.Layout.Condition
import Mathlib.Logic.Relation
/-!
# The layout keeps the code

The passes of `format`, one after the other, on streams of tokens.
-/

namespace DeviceForge.Layout

open Token List

variable {x y : Stream}

structure Ready (x : Stream) : Prop where
  neat : x.Neat
  apart : signsApart none none x.tokens = true

lemma Ready.relaid (h : Ready x) (hr : x.Relaid y) : Ready y := by
  refine ⟨h.neat.relaid hr, ?_⟩
  rw [signsApart_relaid hr h.neat.legible h.neat.solid (by simp) rfl rfl]
  exact h.apart

structure Unified (x : Stream) : Prop extends Ready x where
  feeds : '\r' ∉ x.chars

lemma Unified.relaid (h : Unified x) (hr : x.Relaid y) : Unified y := by
  refine ⟨h.toReady.relaid hr, fun hmem => ?_⟩
  rcases Relaid.reuses hr _ hmem with hmem | h | h
  · exact h.feeds hmem
  · cases h
  · cases h

lemma Ready.unify (h : Ready x) : Unified (unifyStream x) := by
  refine ⟨h.relaid (relaid_unifyStream h.neat), ?_⟩
  rw [← chars_unifyStream h.neat]
  exact not_mem_unifyBreaks _

section
variable {x : Stream} (h : Unified x)

include h

lemma Unified.flat : Unified (flatStream x) :=
  h.relaid (relaid_flatStream h.neat)

lemma Unified.place : Unified (placeStream x) :=
  h.relaid (relaid_placeStream h.neat h.feeds)

lemma Unified.join : Unified (joinStream x) :=
  h.relaid (relaid_joinStream h.neat)

lemma Unified.relaid_space : x.Relaid (spaceStream x) :=
  relaid_spaceStream h.neat h.feeds (signsPart_of_signsApart h.apart)

lemma Unified.space : Unified (spaceStream x) :=
  h.relaid h.relaid_space

lemma Unified.squeeze : Unified (squeezeStream x) :=
  h.relaid (relaid_squeezeStream h.neat)

lemma Unified.trim : Unified (trimStream x) :=
  h.relaid (relaid_trimStream h.neat)

end

def formatStream (x : Stream) : Stream :=
  trimStream (squeezeStream (spaceStream (joinStream (placeStream (flatStream (unifyStream x))))))

lemma format_chars {s : String} (h : Ready x) (hx : x.chars = s.toList) : (format s).toList = (formatStream x).chars := by
  have hunify := h.unify
  have hflat := hunify.flat
  have hplace := hflat.place
  have hjoin := hplace.join
  rw [format, ← hx, chars_unifyStream h.neat, flattenConditions_chars hunify.neat, placeInBuffer_eq, placeBraces_chars hflat.neat hflat.feeds,
    joinAssignments_chars hplace.neat, spaceOperators_chars hjoin.neat, trim_collapse_chars hjoin.space.neat]
  rfl

lemma laid_formatStream (h : Ready x) : Relation.ReflTransGen Stream.Relaid x (formatStream x) := by
  have hunify := h.unify
  have hplace := hunify.flat.place
  refine .head (relaid_unifyStream h.neat) (.head (relaid_flatStream hunify.neat) ?_)
  refine .head (relaid_placeStream hunify.flat.neat hunify.flat.feeds) (.head (relaid_joinStream hplace.neat) ?_)
  refine .head hplace.join.relaid_space (.head (relaid_squeezeStream hplace.join.space.neat) ?_)
  exact .single (relaid_trimStream hplace.join.space.squeeze.neat)

lemma bare_laid (h : Relation.ReflTransGen Stream.Relaid x y) (hone : ∀ t ∈ x.tokens, t.kind ≠ .comment → t.OnOneLine) :
    (y.tokens.map bare).filter (·.1 ≠ .comment) = (x.tokens.map bare).filter (·.1 ≠ .comment) ∧
      ∀ t ∈ y.tokens, t.kind ≠ .comment → t.OnOneLine := by
  induction h with
  | refl => exact ⟨rfl, hone⟩
  | tail _ hr ih =>
    obtain ⟨hbare, hones⟩ := Relaid.bare_eq hr ih.2
    exact ⟨hbare.trans ih.1, hones⟩

lemma ready_laid (h : Relation.ReflTransGen Stream.Relaid x y) (hx : Ready x) : Ready y := by
  induction h with
  | refl => exact hx
  | tail _ hr ih => exact ih.relaid hr

lemma isBlank_of_isSpace {c : Char} (hascii : c.toNat < 128) (htab : c ≠ '\x0b') (h : Text.isSpace c) : Text.isBlank c := by
  have hchar {d : Char} (hd : c.toNat = d.toNat) : c = d := Char.ext (UInt32.toNat_inj.1 hd)
  have hcases : c.toNat = 9 ∨ c.toNat = 10 ∨ c.toNat = 11 ∨ c.toNat = 12 ∨ c.toNat = 13 ∨ c.toNat = 32 := by
    simp only [Text.isSpace, Bool.or_eq_true, Bool.and_eq_true, decide_eq_true_eq] at h
    omega
  rcases hcases with hc | hc | hc | hc | hc | hc
  · rw [hchar (show c.toNat = '\t'.toNat from hc)]
    decide
  · rw [hchar (show c.toNat = '\n'.toNat from hc)]
    decide
  · exact absurd (hchar (show c.toNat = '\x0b'.toNat from hc)) htab
  · rw [hchar (show c.toNat = '\x0c'.toNat from hc)]
    decide
  · rw [hchar (show c.toNat = '\r'.toNat from hc)]
    decide
  · rw [hchar (show c.toNat = ' '.toNat from hc)]
    decide

lemma spaceless_of_ascii {s : String} (h : ∀ c ∈ s.toList, c.toNat < 128 ∧ c ≠ '\x0b') :
    ∀ t ∈ ofString s, t.kind.segment = .code → ∀ c ∈ t.text.toList, Text.isSpace c = false := by
  intro t ht hcode c hc
  have hscan := (Prod.eta (scan s.toList)).symm
  obtain ⟨rest, hreads⟩ := (legible_of_scan hscan).reads t ht
  by_contra hspace
  have hmem : c ∈ s.toList := by
    rw [chars_scan hscan]
    exact mem_append_left _ (mem_flatMap.2 ⟨t, ht, by simp [spelling, hc]⟩)
  have hblank := isBlank_of_isSpace (h c hmem).1 (h c hmem).2 (by simpa using hspace)
  simp [not_blank_of_code hreads hcode c hc] at hblank

/-- The layout keeps the code tokens of a text in ASCII without vertical tabs, if its comments and literals are closed, no
literal spans lines, and no sign in a unary place makes a longer operator with the token behind it. -/
theorem shapes_format {s : String} (hascii : ∀ c ∈ s.toList, c.toNat < 128 ∧ c ≠ '\x0b')
    (hclosed : ∀ t ∈ Token.ofString s, t.isClosed = true)
    (hliteral : ∀ t ∈ Token.ofString s, t.kind = .str ∨ t.kind = .char → t.OnOneLine)
    (hsigns : signsApart none none (Token.ofString s) = true) : Code.shapes (format s) = Code.shapes s := by
  have hspaceless := spaceless_of_ascii hascii
  have hready : Ready (Stream.ofChars s.toList) := ⟨Stream.neat_ofChars hclosed hspaceless, hsigns⟩
  have hlaid := laid_formatStream hready
  have hone : ∀ t ∈ (Stream.ofChars s.toList).tokens, t.kind ≠ .comment → t.OnOneLine := by
    intro t ht hcomment
    by_cases hcode : t.kind.segment = .code
    · intro c hc
      have hspace := hspaceless t ht hcode c hc
      rw [Lexeme.isLineBreak, Bool.or_eq_false_iff, decide_eq_false_iff_not, decide_eq_false_iff_not]
      constructor <;> rintro rfl <;> cases hspace
    · refine hliteral t ht ?_
      cases hkind : t.kind <;> simp_all [Kind.segment]
  have hscan := (ready_laid hlaid hready).neat.scan
  rw [← format_chars hready (Stream.chars_ofChars _)] at hscan
  rw [Code.shapes_eq, Code.shapes_eq, Token.shapes, Token.shapes, hscan]
  exact (bare_laid hlaid hone).1

/-- A wrapped condition and a wrapped assignment, with signs, comments and a brace in a literal. -/
def wrappedCode : String :=
  "if (a /* c */\n  && *b) \x7b x = -a +\n  f(\"\x7b\"); \x7d // d\nelse y--;"

theorem shapes_format_wrapped :
    signsApart none none (Token.ofString wrappedCode) = true ∧ Code.shapes (format wrappedCode) = Code.shapes wrappedCode := by
  have hsigns : signsApart none none (Token.ofString wrappedCode) = true := by decide +kernel
  have hascii : wrappedCode.toList.all (fun c => c.toNat < 128 && c ≠ '\x0b') = true := by decide +kernel
  have hclosed : (Token.ofString wrappedCode).all isClosed = true := by decide +kernel
  have hline : (Token.ofString wrappedCode).all (fun t => t.text.toList.all fun c => !Lexeme.isLineBreak c) = true := by decide +kernel
  refine ⟨hsigns, shapes_format (fun c hc => ?_) (all_eq_true.1 hclosed) (fun t ht _ c hc => ?_) hsigns⟩
  · simpa using all_eq_true.1 hascii c hc
  · simpa using all_eq_true.1 (all_eq_true.1 hline t ht) c hc

/-- Two signs in a row become another operator. -/
theorem not_shapes_format_signs : Code.shapes (format "x = - -y;") ≠ Code.shapes "x = - -y;" := by
  decide +kernel

end DeviceForge.Layout

/-! # What the last passes leave alone -/

namespace DeviceForge.Layout

open List Text Token String

variable {lead lead' rest tail : List Char} {s previous : Option Token} {ts us : List Token} {x : Stream}
  {t : Token}

def feeds (lead : List Char) : Nat :=
  min 2 (lead.count '\n')

lemma feeds_eq_zero_iff : feeds lead = 0 ↔ '\n' ∉ lead := by
  rw [← count_eq_zero, feeds]
  omega

lemma feeds_eq_one_iff : feeds lead = 1 ↔ lead.count '\n' = 1 := by
  rw [feeds]
  omega

lemma count_dropWhile (cs : List Char) : (cs.dropWhile (· ≠ '\n')).count '\n' = cs.count '\n' := by
  have htake : (cs.takeWhile (· ≠ '\n')).count '\n' = 0 :=
    count_eq_zero.2 fun hmem => by simpa using mem_takeWhile_imp hmem
  have hsplit := congrArg (count '\n') (takeWhile_append_dropWhile (p := (· ≠ '\n')) (l := cs))
  rw [count_append, htake] at hsplit
  omega

structure LeadKept (lead lead' : List Char) : Prop where
  feeds : feeds lead' = feeds lead
  head : lead.head? = some '\n' → lead'.head? = some '\n'
  single : lead = ['\n'] → lead' = ['\n']

lemma LeadKept.refl (lead : List Char) : LeadKept lead lead :=
  ⟨rfl, id, id⟩

lemma LeadKept.mem_iff (h : LeadKept lead lead') : '\n' ∈ lead' ↔ '\n' ∈ lead := by
  rw [← not_iff_not, ← feeds_eq_zero_iff, ← feeds_eq_zero_iff, h.feeds]

lemma LeadKept.of_oneLine (h : '\n' ∉ lead) (h' : '\n' ∉ lead') : LeadKept lead lead' := by
  refine ⟨?_, fun hhead => absurd (mem_of_mem_head? hhead) h, fun hone => absurd (hone ▸ mem_singleton_self _) h⟩
  rw [feeds_eq_zero_iff.2 h, feeds_eq_zero_iff.2 h']

def isTrimmed (t : Token) : Prop :=
  dropWhileEnd isBlank t.text.toList = t.text.toList

structure Tidies (s : Option Token) (t u : Token) : Prop where
  kin : t.Kin u
  lines : '\n' ∈ u.text.toList ↔ '\n' ∈ t.text.toList
  ends : t.isLineComment = true → isTrimmed t → isTrimmed u
  first : s = none → t.lead.toList = [] → u.lead.toList = []
  lead : s ≠ none → LeadKept t.lead.toList u.lead.toList

structure Trims (s : Option Token) (t u : Token) : Prop extends Tidies s t u where
  gap : s ≠ none → u.lead.toList = t.lead.toList ∨ u.lead.toList = squeezeRun t.lead.toList

lemma tidies_of_trims (h : Token.Along Trims (fun _ => True) s ts us) :
    Token.Along Tidies (fun _ => True) s ts us := by
  induction h with
  | nil hend => exact .nil hend
  | cons hstep hsteps ih => exact .cons hstep.toTidies ih

lemma count_strip (gap : List Char) : (strip gap).count '\n' = gap.count '\n' := by
  induction gap using lineInduction with
  | last line h => rw [strip_line h]
  | more line rest h ih =>
    have hline : (dropWhileEnd isTab line).count '\n' = 0 :=
      count_eq_zero.2 fun hmem => h ((Text.dropWhileEnd_prefix _ _).subset hmem)
    rw [strip_append h, count_append, count_append, count_cons_self, count_cons_self, ih, hline, count_eq_zero.2 h]

lemma strip_feed (gap : List Char) : strip ('\n' :: gap) = '\n' :: strip gap :=
  strip_append (by simp [OneLine] : OneLine []) gap

lemma leadKept_strip (gap : List Char) : LeadKept gap (strip gap) := by
  refine ⟨by rw [feeds, count_strip, feeds], fun hhead => ?_, ?_⟩
  · obtain ⟨rest, rfl⟩ := head?_eq_some_iff.1 hhead
    rw [strip_feed, head?_cons]
  · rintro rfl
    rw [strip_feed, strip_line (by simp [OneLine])]

lemma leadKept_spaced (left right : Role) (gap : String) : LeadKept gap.toList (spaced left right gap).toList := by
  rcases spaced_cases left right gap with ⟨-, h⟩ | ⟨hfeed, ⟨-, h⟩ | ⟨-, -, h⟩ | ⟨-, -, h⟩⟩
  · rw [h]
    exact leadKept_strip _
  · exact .of_oneLine hfeed (by simp [h])
  · exact .of_oneLine hfeed (by simp [h])
  · rw [h]
    exact .refl _

lemma tidies_spaced {left : Option Role} (hsolid : ∀ t ∈ ts, t.Solid) (hleft : left = none ↔ s = none) :
    Token.Along Tidies (fun _ => True) s ts (spacedTokens left previous ts) := by
  induction ts generalizing s left previous with
  | nil => exact .nil trivial
  | cons t ts ih =>
    obtain ⟨hst, hsts⟩ := forall_mem_cons.1 hsolid
    refine .cons ⟨hst.kin_withLead _, Iff.rfl, fun _ h => h, fun hs hnil => ?_, fun hs => ?_⟩ (ih hsts (by simp))
    · rw [hleft.2 hs, gapOf, lead_withLead, hnil]
    · obtain ⟨role, rfl⟩ := Option.ne_none_iff_exists'.1 (mt hleft.1 hs)
      rw [lead_withLead]
      exact leadKept_spaced _ _ _

lemma tidies_spaceStream (h : x.Neat) : Token.Along Tidies (fun _ => True) none x.tokens (spaceStream x).tokens :=
  tidies_spaced h.solid (by simp)

lemma leadKept_squeezeRun (w : List Char) : LeadKept w (squeezeRun w) := by
  refine ⟨?_, fun hhead => by rwa [head?_squeezeRun], ?_⟩
  · rw [squeezeRun]
    split
    · have hfirst : (firstLine w).count '\n' = 0 := by
        refine count_eq_zero.2 fun hmem => ?_
        simpa using mem_takeWhile_imp hmem
      rw [feeds, feeds, count_append, count_cons_self, count_cons_self, count_eq_zero.2 (oneLine_lastLine w), hfirst]
      omega
    · rfl
  · rintro rfl
    rfl

lemma mem_respace_squeezeRun (pending cs : List Char) :
    '\n' ∈ respace squeezeRun pending cs ↔ '\n' ∈ pending ++ cs := by
  induction cs generalizing pending with
  | nil => rw [respace, append_nil, (leadKept_squeezeRun pending).mem_iff]
  | cons c cs ih =>
    rw [respace]
    split
    · rw [ih, List.append_assoc, singleton_append]
    · rw [mem_append, mem_append, mem_cons, mem_cons, ih, (leadKept_squeezeRun pending).mem_iff, nil_append]

lemma trims_squeeze (s : Option Token) (hsolid : ∀ t ∈ ts, t.Solid) :
    Token.Along Trims (fun _ => True) s ts (ts.map (respaced squeezeRun)) := by
  induction ts generalizing s with
  | nil => exact .nil trivial
  | cons t ts ih =>
    obtain ⟨hst, hsts⟩ := forall_mem_cons.1 hsolid
    have htext : (respaced squeezeRun t).text.toList = respace squeezeRun [] t.text.toList := toList_ofList
    refine .cons ⟨⟨hst.kin_respaced runChange_squeezeRun, ?_, fun hline hends => ?_, fun _ hnil => ?_, fun _ => ?_⟩,
      fun _ => .inr (lead_respaced _ _)⟩ (ih _ hsts)
    · rw [htext, mem_respace_squeezeRun, nil_append]
    · rwa [isTrimmed, htext, runChange_squeezeRun.respace_oneLine (by simp) (hst.oneLine hline).not_mem]
    · rw [lead_respaced, hnil]
      rfl
    · rw [lead_respaced]
      exact leadKept_squeezeRun _

lemma trims_squeezeStream (h : x.Neat) : Token.Along Trims (fun _ => True) none x.tokens (squeezeStream x).tokens :=
  trims_squeeze none h.solid

lemma isTrimmed_trimEnd (t : Token) (lead : String) :
    isTrimmed ⟨t.kind, lead, ofList (dropWhileEnd isSpace t.text.toList)⟩ := by
  rw [isTrimmed, toList_ofList]
  refine dropWhileEnd_eq_self fun c hc => ?_
  by_contra hblank
  have := getLast?_dropWhileEnd _ _ c hc
  simp [isSpace_of_isBlank (by simpa using hblank)] at this

lemma mem_dropWhileEnd (hreads : Token.Reads t rest) (hs : t.Solid) :
    '\n' ∈ dropWhileEnd isSpace t.text.toList ↔ '\n' ∈ t.text.toList := by
  by_cases hline : t.isLineComment
  · have hnot := (hs.oneLine hline).not_mem
    exact ⟨fun h => (Text.dropWhileEnd_prefix _ _).subset h, fun h => absurd h hnot⟩
  · rw [trimEnd_text hreads hs (by simpa using hline)]

lemma tidies_last (s : Option Token) (hreads : Token.Reads t rest) (hs : t.Solid)
    (hfirst : s = none → t.lead.toList = [] → lead = []) (hlead : s ≠ none → LeadKept t.lead.toList lead) :
    Tidies s t ⟨t.kind, ofList lead, ofList (dropWhileEnd isSpace t.text.toList)⟩ := by
  refine ⟨kin_trimEnd hreads hs lead, ?_, fun _ _ => isTrimmed_trimEnd t _, ?_, ?_⟩
  · rw [toList_ofList, mem_dropWhileEnd hreads hs]
  · rwa [toList_ofList]
  · rwa [toList_ofList]

lemma trims_trimLast (s : Token) (hlegible : Legible ts tail) (hsolid : ∀ t ∈ ts, t.Solid) :
    Token.Along Trims (fun _ => True) (some s) ts (trimLast ts) := by
  induction ts generalizing s with
  | nil => exact .nil trivial
  | cons t ts ih =>
    obtain ⟨hst, hsts⟩ := forall_mem_cons.1 hsolid
    obtain ⟨-, hreads, hlegible⟩ := hlegible
    cases ts with
    | nil =>
      have hlast := tidies_last (some s) hreads hst (fun h => by cases h) fun _ => .refl _
      rw [ofList_toList] at hlast
      exact .cons ⟨hlast, fun _ => .inl rfl⟩ (.nil trivial)
    | cons u ts =>
      have hsame : Tidies (some s) t t := ⟨hst.kin_refl, Iff.rfl, fun _ h => h, fun _ h => h, fun _ => .refl _⟩
      exact .cons ⟨hsame, fun _ => .inl rfl⟩ (ih t hlegible hsts)

lemma trims_trimStream (h : x.Neat) : Token.Along Trims (fun _ => True) none x.tokens (trimStream x).tokens := by
  obtain ⟨tokens, tail⟩ := x
  obtain ⟨hlegible, hsolid⟩ := h
  cases tokens with
  | nil => exact .nil trivial
  | cons t ts =>
    obtain ⟨hst, hsts⟩ := forall_mem_cons.1 hsolid
    obtain ⟨-, hreads, hlegible⟩ := hlegible
    cases ts with
    | nil =>
      have hlast := tidies_last none hreads hst (fun _ _ => rfl) fun h => absurd rfl h
      exact .cons ⟨hlast, fun h => absurd rfl h⟩ (.nil trivial)
    | cons u ts =>
      have hfirst : Tidies none t (t.withLead []) :=
        ⟨hst.kin_withLead [], Iff.rfl, fun _ h => h, fun _ _ => rfl, fun h => absurd rfl h⟩
      exact .cons ⟨hfirst, fun h => absurd rfl h⟩ (trims_trimLast t hlegible hsts)

end DeviceForge.Layout
