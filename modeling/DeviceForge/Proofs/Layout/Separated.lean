import DeviceForge.Proofs.Layout.Buffer
import DeviceForge.Proofs.Layout.Rejoined
/-!
# Braces that are set apart

Placing braces writes line feeds beside braces of code and takes blanks away there, and touches no other gap
(`regapped_placeBraces`).
-/

namespace DeviceForge.Layout

open Segment Text List Token Reader

variable {c d : Char} {m : Mode} {g g' : Gap} {out base cs rest : List Char} {r r' : Reader}
  {p : Option Glyph} {xs : List (Char × Segment.Kind)}

/-! ## What stands before a brace -/

structure Regrown (out base : List Char) : Prop where
  glyphs_eq : glyphs .initial base.reverse = glyphs .initial out.reverse
  gap : glyphs .initial out.reverse = [] ∨ (Reader.initial.past base.reverse).gap = .feed

lemma glyphs_dropWhile {q : Char → Bool} (hq : ∀ c, q c → isSpace c) (r : Reader) (out : List Char) :
    glyphs r (out.dropWhile q).reverse = glyphs r out.reverse := by
  have hspaces : Spaces (out.takeWhile q).reverse := fun c hc => hq c (mem_takeWhile_imp (mem_reverse.1 hc))
  conv_rhs => rw [← @takeWhile_append_dropWhile _ q out, reverse_append, glyphs_append, glyphs_spaces hspaces, append_nil]

lemma gap_past_feed (r : Reader) (out : List Char) : (r.past ('\n' :: out).reverse).gap = .feed := by
  rw [reverse_cons, past_append, past_cons, push_space rfl]
  rfl

lemma glyphs_feed (r : Reader) (out : List Char) : glyphs r ('\n' :: out).reverse = glyphs r out.reverse := by
  rw [reverse_cons, glyphs_append, glyphs_space rfl, glyphs_nil, append_nil]

lemma isSpace_of_isTab (h : isTab c) : isSpace c := by
  have hc : c = ' ' ∨ c = '\t' := by simpa [isTab] using h
  rcases hc with rfl | rfl <;> rfl

lemma regrown_openBase (out : List Char) : Regrown out (openBase out) := by
  have hdrop := glyphs_dropWhile (fun c hc => isSpace_of_isBlank hc) .initial out
  unfold openBase
  dsimp only
  split_ifs with hempty
  · rw [List.isEmpty_iff] at hempty
    refine ⟨hdrop, .inl ?_⟩
    rw [← hdrop, hempty]
    rfl
  · exact ⟨(glyphs_feed _ _).trans hdrop, .inr (gap_past_feed _ _)⟩

lemma regrown_closeBase (out : List Char) : Regrown out (closeBase out) := by
  unfold closeBase
  split_ifs with hblank
  · refine ⟨rfl, ?_⟩
    have hspaces : Spaces (out.takeWhile (· ≠ '\n')).reverse := fun c hc =>
      isSpace_of_isBlank (all_eq_true.1 hblank c (mem_reverse.1 hc))
    rw [← @takeWhile_append_dropWhile _ (· ≠ '\n') out]
    cases hdrop : out.dropWhile (· ≠ '\n') with
    | nil =>
      rw [append_nil]
      exact .inl (glyphs_spaces hspaces _)
    | cons c rest =>
      obtain rfl : c = '\n' := by
        have hc := head?_dropWhile_not (· ≠ '\n') out
        rw [hdrop] at hc
        simpa using hc
      refine .inr ?_
      rw [reverse_append, reverse_cons, append_assoc, past_append, singleton_append,
        past_feed (spaces_cons.2 ⟨rfl, hspaces⟩) mem_cons_self]
  · exact ⟨(glyphs_feed _ _).trans (glyphs_dropWhile (fun c hc => isSpace_of_isTab hc) _ _), .inr (gap_past_feed _ _)⟩

lemma Mode.isCode_pause (h : (m.rest g).isCode) : (m.pause true).isCode := by
  cases m with
  | quoted | escaped | block | star => cases g <;> cases h
  | _ => rfl

lemma Regrown.brace (h : Regrown out base) (hmode : (initial.past out.reverse).mode = r.mode)
    (hc : isBracket c) (hhere : r.here.isCode) :
    glyphs .initial (c :: base).reverse = glyphs .initial out.reverse ++ [⟨(initial.past base.reverse).gap, c, .between false⟩] ∧
    initial.past (c :: base).reverse = ⟨.between false, .tight⟩ := by
  have hspace := not_space_of_isBracket hc
  have hsame : (initial.past base.reverse).mode = r.mode := by rw [mode_past, h.glyphs_eq, ← mode_past, hmode]
  have hcode : (initial.past base.reverse).here.isCode := by
    rcases h.gap with hnone | hfeed
    · have hinitial : (initial.past base.reverse).mode = .between false := by
        rw [mode_past, h.glyphs_eq, hnone]
        rfl
      rw [here, hinitial]
      cases (initial.past base.reverse).gap <;> rfl
    · rw [here, hfeed, hsame]
      exact Mode.isCode_pause hhere
  rw [reverse_cons, glyphs_append, past_append, h.glyphs_eq, glyphs_char hspace, past_cons, push_char hspace,
    Mode.step_bracket hc hcode]
  exact ⟨rfl, rfl⟩

/-! ## The writer -/

structure Marks (kind : Segment.Kind) (m : Mode) (c : Char) (m' : Mode) : Prop where
  code : isBracket c = true → kind = .code → m.isCode = true
  bracket : isBracket c = true → (kind = .code ↔ m' = .between false)

lemma agrees_marked (hreturn : '\r' ∉ cs) (hjoins : m.Joins cs) : Agrees Marks m (marked cs) := by
  refine agrees_of_shade (fun s m c m' hfits => ?_) hreturn hjoins
  refine ⟨fun hc hkind => hfits.code hc (Shade.of_eq_code_iff.2 hkind), fun hc => ?_⟩
  rw [← Shade.of_eq_code_iff]
  exact hfits.bracket hc

def Pending (p : Option Glyph) (g g' : Gap) (cs : List Char) : Prop :=
  g' = g ∧ ((∃ y ∈ p, y.opens = true) → g' = .feed) ∨
  (∃ y ∈ p, y.isCodeBrace = true) ∧ g' = .feed ∨
  (∃ y ∈ p, y.opens = true) ∧ ∀ c ∈ cs.head?, c = '\n'

lemma Pending.space (h : Pending p g g' (c :: cs)) : Pending p (g.push c) (g'.push c) cs := by
  have hfeed (g : Gap) (hg : g = .feed) : g.push c = .feed := by
    rw [hg, Gap.push]
    split <;> rfl
  rcases h with ⟨rfl, hopened⟩ | ⟨hbrace, hg⟩ | ⟨-, hc⟩
  · exact .inl ⟨rfl, fun h => hfeed _ (hopened h)⟩
  · exact .inr (.inl ⟨hbrace, hfeed _ hg⟩)
  · obtain rfl := hc c rfl
    exact .inl ⟨rfl, fun _ => rfl⟩

lemma Pending.char (h : Pending p r.gap r'.gap (c :: cs)) (hmode : r'.mode = r.mode)
    (hlast : ∀ y ∈ p, y.mode = r.mode) (hc : isSpace c = false)
    (hplain : (⟨r.gap, c, r.here.step c⟩ : Glyph).isCodeBrace = false) :
    r'.here.step c = r.here.step c ∧ Spread p ⟨r.gap, c, r.here.step c⟩ r'.gap := by
  have hbrace : ¬(⟨r.gap, c, r.here.step c⟩ : Glyph).isCodeBrace := by simp [hplain]
  rcases h with ⟨hgap, hopened⟩ | ⟨⟨y, hy, hcode⟩, hgap⟩ | ⟨-, hfeed⟩
  · refine ⟨?_, fun h => absurd h hbrace, hopened, .inr (.inl hgap)⟩
    rw [here, here, hmode, hgap]
  · refine ⟨?_, fun h => absurd h hbrace, fun _ => hgap, .inr (.inr ⟨hgap, .inr ⟨y, hy, hcode⟩⟩)⟩
    have hbetween : r.mode = .between false := by
      rw [← hlast y hy]
      simpa using (Bool.and_eq_true_iff.1 hcode).2
    rw [here, here, hmode, hbetween]
    cases r.gap <;> cases r'.gap <;> rfl
  · obtain rfl := hfeed c rfl
    cases hc

structure Written (out : List Char) (r : Reader) (p : Option Glyph) (xs : List (Char × Segment.Kind)) : Prop where
  mode : (Reader.initial.past out.reverse).mode = r.mode
  last : ∀ y ∈ p, y.mode = r.mode
  first : glyphs .initial out.reverse = [] → p = none
  pending : Pending p r.gap (Reader.initial.past out.reverse).gap (xs.map (·.1))
  agrees : Agrees Marks r.here xs

lemma Written.behind (h : Agrees Marks m ((c, .code) :: xs)) (hc : isBracket c) (q : Char → Bool) :
    Agrees Marks ((⟨.between false, .tight⟩ : Reader).past ((xs.map (·.1)).takeWhile q)).here (xs.dropWhile fun x => q x.1) := by
  obtain ⟨hmarks, hagrees⟩ := h
  have htake : (xs.takeWhile fun x => q x.1).map (·.1) = (xs.map (·.1)).takeWhile q := by
    rw [takeWhile_map]
    rfl
  rw [(hmarks.bracket hc).1 rfl, ← @takeWhile_append_dropWhile _ (fun x : Char × Segment.Kind => q x.1) xs, agrees_append, htake] at hagrees
  rw [here_past]
  exact hagrees.2

lemma Written.brace {post : List Char} {q : Char → Bool}
    (h : Written out r p ((c, .code) :: xs)) (hc : c = '\x7b' ∨ c = '\x7d') (hbase : Regrown out base)
    (hq : ∀ d, q d → isSpace d) (hpost : post = [] ∨ post = ['\n'])
    (hpending : Pending (some ⟨r.gap, c, .between false⟩) (Gap.tight.past ((xs.map (·.1)).takeWhile q)) (Gap.tight.past post)
      ((xs.map (·.1)).dropWhile q)) :
    ∃ g r', Written (post ++ c :: base) r' (some ⟨r.gap, c, .between false⟩) (xs.dropWhile fun x => q x.1) ∧
      glyphs .initial (post ++ c :: base).reverse = glyphs .initial out.reverse ++ [⟨g, c, .between false⟩] ∧
      glyphs r (c :: xs.map (·.1)) = ⟨r.gap, c, .between false⟩ :: glyphs r' ((xs.dropWhile fun x => q x.1).map (·.1)) ∧
      Spread p ⟨r.gap, c, .between false⟩ g := by
  have hbracket : isBracket c := by rcases hc with rfl | rfl <;> decide
  have hspace := not_space_of_isBracket hbracket
  have hcode : (⟨r.gap, c, .between false⟩ : Glyph).isCodeBrace := by rcases hc with rfl | rfl <;> rfl
  have hskipped : Spaces ((xs.map (·.1)).takeWhile q) := fun d hd => hq d (mem_takeWhile_imp hd)
  have hposts : Spaces post := by rcases hpost with rfl | rfl <;> simp [Spaces, Text.isSpace]
  have hreverse : (post ++ c :: base).reverse = (c :: base).reverse ++ post := by
    rw [reverse_append]
    rcases hpost with rfl | rfl <;> rfl
  have hdrop : (xs.dropWhile fun x => q x.1).map (·.1) = (xs.map (·.1)).dropWhile q := by
    rw [dropWhile_map]
    rfl
  obtain ⟨hglyphs, hover⟩ := hbase.brace h.mode hbracket (h.agrees.1.code hbracket rfl)
  have hstep : r.here.step c = .between false := by
    rw [← Mode.next_char hspace]
    exact (h.agrees.1.bracket hbracket).1 rfl
  have hwritten : initial.past (post ++ c :: base).reverse = ⟨.between false, Gap.tight.past post⟩ := by
    rw [hreverse, past_append, hover, past_spaces hposts]
  have hwritten' : glyphs .initial (post ++ c :: base).reverse =
      glyphs .initial out.reverse ++ [⟨(initial.past base.reverse).gap, c, .between false⟩] := by
    rw [hreverse, glyphs_append, glyphs_spaces hposts, append_nil, hglyphs]
  have hgap : p = none ∨ (initial.past base.reverse).gap = .feed := hbase.gap.imp_left h.first
  refine ⟨_, (⟨.between false, .tight⟩ : Reader).past ((xs.map (·.1)).takeWhile q), ⟨?_, ?_, fun hnil => ?_, ?_, ?_⟩, hwritten', ?_, fun _ => hgap,
    fun hy => hgap.resolve_left fun hp => ?_, hgap.imp_right fun hfeed => .inr ⟨hfeed, .inl hcode⟩⟩
  · rw [hwritten, past_spaces hskipped]
  · simp [past_spaces hskipped]
  · rw [hwritten'] at hnil
    simp at hnil
  · rw [hwritten, past_spaces hskipped, hdrop]
    exact hpending
  · exact Written.behind h.agrees hbracket q
  · rw [glyphs_char hspace, hstep, hdrop]
    conv_lhs => rw [← @takeWhile_append_dropWhile _ q (xs.map (·.1)), glyphs_append, glyphs_spaces hskipped, nil_append]
  · obtain ⟨y, hy, -⟩ := hy
    simp [hp] at hy

lemma Written.char {kind : Segment.Kind}
    (h : Written out r p ((c, kind) :: xs)) (hc : isSpace c = false) (hplain : ¬(kind = .code ∧ (c = '\x7b' ∨ c = '\x7d'))) :
    Written (c :: out) ⟨r.here.step c, .tight⟩ (some ⟨r.gap, c, r.here.step c⟩) xs ∧
      glyphs .initial (c :: out).reverse = glyphs .initial out.reverse ++ [⟨(initial.past out.reverse).gap, c, r.here.step c⟩] ∧
      Spread p ⟨r.gap, c, r.here.step c⟩ (initial.past out.reverse).gap := by
  have hcode : (⟨r.gap, c, r.here.step c⟩ : Glyph).isCodeBrace = false := by
    by_contra hbrace
    rw [Bool.not_eq_false, Glyph.isCodeBrace, Bool.and_eq_true, decide_eq_true_eq] at hbrace
    obtain ⟨hbrace, hmode⟩ := hbrace
    have hbrace : c = '\x7b' ∨ c = '\x7d' := by simpa [Glyph.isBrace] using hbrace
    have hbracket : isBracket c := by rcases hbrace with rfl | rfl <;> decide
    refine hplain ⟨(h.agrees.1.bracket hbracket).2 ?_, hbrace⟩
    rw [Mode.next_char hc]
    exact hmode
  have hopens : (⟨r.gap, c, r.here.step c⟩ : Glyph).opens = false := by
    by_contra hopens
    simp [Glyph.isCodeBrace_of_opens (by simpa using hopens)] at hcode
  obtain ⟨hstep, hplaced⟩ := h.pending.char h.mode h.last hc hcode
  have hover : initial.past (c :: out).reverse = ⟨r.here.step c, .tight⟩ := by
    rw [reverse_cons, past_append, past_cons, push_char hc, hstep, past_nil]
  have hglyphs : glyphs .initial (c :: out).reverse =
      glyphs .initial out.reverse ++ [⟨(initial.past out.reverse).gap, c, r.here.step c⟩] := by
    rw [reverse_cons, glyphs_append, glyphs_char hc, hstep, glyphs_nil]
  refine ⟨⟨by rw [hover], by simp, fun hnil => ?_, .inl ⟨by rw [hover], ?_⟩, ?_⟩, hglyphs, hplaced⟩
  · rw [hglyphs] at hnil
    simp at hnil
  · simp [hopens]
  · have hagrees := h.agrees.2
    rw [Mode.next_char hc] at hagrees
    exact hagrees

lemma Written.space {kind : Segment.Kind}
    (h : Written out r p ((c, kind) :: xs)) (hc : isSpace c) :
    Written (c :: out) (r.push c) p xs ∧ glyphs .initial (c :: out).reverse = glyphs .initial out.reverse := by
  have hover : initial.past (c :: out).reverse = (initial.past out.reverse).push c := by
    rw [reverse_cons, past_append, past_cons, past_nil]
  have hglyphs : glyphs .initial (c :: out).reverse = glyphs .initial out.reverse := by
    rw [reverse_cons, glyphs_append, glyphs_space hc, glyphs_nil, append_nil]
  refine ⟨⟨?_, ?_, ?_, ?_, ?_⟩, hglyphs⟩
  · rw [hover, push_space hc, push_space hc]
    exact h.mode
  · rw [push_space hc]
    exact h.last
  · rw [hglyphs]
    exact h.first
  · rw [hover, push_space hc, push_space hc]
    exact h.pending.space
  · rw [here_push]
    exact h.agrees.2

lemma writeMarked_takeWhile (q : Char → Bool) (xs : List (Char × Segment.Kind)) (out : List Char) :
    writeMarked ((xs.map (·.1)).takeWhile q).length out xs = writeMarked 0 out (xs.dropWhile fun x => q x.1) := by
  have hlen : ((xs.map (·.1)).takeWhile q).length = (xs.takeWhile fun x => q x.1).length := by
    rw [takeWhile_map, length_map]
    rfl
  have hskip := writeMarked_skip (xs.takeWhile fun x => q x.1) out (xs.dropWhile fun x => q x.1)
  rwa [takeWhile_append_dropWhile, ← hlen] at hskip

lemma writeMarked_open (out : List Char) (xs : List (Char × Segment.Kind)) : ∃ post, (post = [] ∨ post = ['\n']) ∧
    writeMarked 0 out (('\x7b', .code) :: xs) = writeMarked 0 (post ++ '\x7b' :: openBase out) (xs.dropWhile fun x => isTab x.1) ∧
    (post = [] → ∀ c ∈ ((xs.map (·.1)).dropWhile isTab).head?, c = '\n') := by
  have hwrite : writeMarked 0 out (('\x7b', .code) :: xs) =
      writeMarked ((xs.map (·.1)).takeWhile isTab).length (openBrace out (xs.map (·.1))) xs := rfl
  rw [hwrite, writeMarked_takeWhile, openBrace_eq]
  split_ifs with hhead
  · refine ⟨[], .inl rfl, rfl, fun _ c hc => ?_⟩
    rw [Bool.or_eq_true, List.isEmpty_iff, Option.any_eq_true] at hhead
    rcases hhead with hnil | ⟨d, hd, hfeed⟩
    · simp [hnil] at hc
    · rw [hd] at hc
      obtain rfl := Option.some.inj hc
      simpa using hfeed
  · exact ⟨['\n'], .inr rfl, rfl, by simp⟩

lemma writeMarked_close (out : List Char) (xs : List (Char × Segment.Kind)) :
    writeMarked 0 out (('\x7d', .code) :: xs) =
        writeMarked 0 (['\n'] ++ '\x7d' :: closeBase out) (xs.dropWhile fun x => isBlank x.1) ∨
      writeMarked 0 out (('\x7d', .code) :: xs) = writeMarked 0 ([] ++ '\x7d' :: closeBase out) (xs.dropWhile fun _ => false) := by
  have hwrite : writeMarked 0 out (('\x7d', .code) :: xs) =
      writeMarked (skippedAfterClose (xs.map (·.1))) (closeBrace out (xs.map (·.1))) xs := rfl
  rw [hwrite, closeBrace_eq, skippedAfterClose]
  split
  · exact .inl (writeMarked_takeWhile isBlank xs _)
  · right
    rw [← writeMarked_takeWhile (fun _ => false)]
    cases xs <;> rfl

lemma regapped_writeMarked (h : Written out r p xs) :
    ∃ ys, glyphs .initial (writeMarked 0 out xs).reverse = glyphs .initial out.reverse ++ ys ∧ Regapped Spread p (glyphs r (xs.map (·.1))) ys := by
  induction hn : xs.length using Nat.strong_induction_on generalizing xs out r p with
  | _ n ih =>
    cases xs with
    | nil => exact ⟨[], by rw [writeMarked_nil, append_nil], .nil⟩
    | cons x xs =>
      obtain ⟨c, kind⟩ := x
      rw [length_cons] at hn
      rw [map_cons]
      -- one glyph has been written, and the writing goes on
      have hstep {out' : List Char} {r' : Reader} {x : Glyph} {g : Gap} {rest : List (Char × Segment.Kind)} (hlen : rest.length < n)
          (hwrite : writeMarked 0 out ((c, kind) :: xs) = writeMarked 0 out' rest) (hwritten : Written out' r' (some x) rest)
          (hout : glyphs .initial out'.reverse = glyphs .initial out.reverse ++ [⟨g, x.char, x.mode⟩])
          (htext : glyphs r (c :: xs.map (·.1)) = x :: glyphs r' (rest.map (·.1))) (hplaced : Spread p x g) :
          ∃ ys, glyphs .initial (writeMarked 0 out ((c, kind) :: xs)).reverse = glyphs .initial out.reverse ++ ys ∧
            Regapped Spread p (glyphs r (c :: xs.map (·.1))) ys := by
        obtain ⟨ys, hys, hregapped⟩ := ih rest.length hlen hwritten rfl
        refine ⟨⟨g, x.char, x.mode⟩ :: ys, ?_, ?_⟩
        · rw [hwrite, hys, hout, append_assoc, singleton_append]
        · rw [htext]
          exact .cons hplaced hregapped
      have hdrop (q : Char × Segment.Kind → Bool) : (xs.dropWhile q).length < n := by
        have := (@dropWhile_sublist _ xs q).length_le
        omega
      by_cases hbrace : kind = .code ∧ (c = '\x7b' ∨ c = '\x7d')
      · obtain ⟨rfl, rfl | rfl⟩ := hbrace
        · obtain ⟨post, hpost, hwrite, hhead⟩ := writeMarked_open out xs
          have hpending : Pending (some ⟨r.gap, '\x7b', .between false⟩) (Gap.tight.past ((xs.map (·.1)).takeWhile isTab)) (Gap.tight.past post)
              ((xs.map (·.1)).dropWhile isTab) := by
            rcases hpost with rfl | rfl
            · exact .inr (.inr ⟨⟨_, rfl, rfl⟩, hhead rfl⟩)
            · exact .inr (.inl ⟨⟨_, rfl, rfl⟩, rfl⟩)
          obtain ⟨g, r', hwritten, hout, htext, hplaced⟩ :=
            h.brace (.inl rfl) (regrown_openBase out) (fun d hd => isSpace_of_isTab hd) hpost hpending
          exact hstep (hdrop _) hwrite hwritten hout htext hplaced
        · rcases writeMarked_close out xs with hwrite | hwrite
          · obtain ⟨g, r', hwritten, hout, htext, hplaced⟩ :=
              h.brace (.inr rfl) (regrown_closeBase out) (fun d hd => isSpace_of_isBlank hd) (.inr rfl) (.inr (.inl ⟨⟨_, rfl, rfl⟩, rfl⟩))
            exact hstep (hdrop _) hwrite hwritten hout htext hplaced
          · have hpending : Pending (some ⟨r.gap, '\x7d', .between false⟩) (Gap.tight.past ((xs.map (·.1)).takeWhile fun _ => false))
                (Gap.tight.past []) ((xs.map (·.1)).dropWhile fun _ => false) := by
              refine .inl ⟨by cases xs <;> rfl, fun hopened => ?_⟩
              simp [Glyph.opens] at hopened
            obtain ⟨g, r', hwritten, hout, htext, hplaced⟩ := h.brace (.inr rfl) (regrown_closeBase out) (by simp) (.inl rfl) hpending
            exact hstep (hdrop _) hwrite hwritten hout htext hplaced
      · have hwrite : writeMarked 0 out ((c, kind) :: xs) = writeMarked 0 (c :: out) xs :=
          @writeMarked_append [(c, kind)] (by simpa [isBrace] using hbrace) out xs
        by_cases hc : isSpace c
        · obtain ⟨hwritten, hout⟩ := h.space hc
          obtain ⟨ys, hys, hregapped⟩ := ih xs.length (by omega) hwritten rfl
          rw [hwrite, hys, hout, glyphs_space hc]
          exact ⟨ys, rfl, hregapped⟩
        · rw [Bool.not_eq_true] at hc
          obtain ⟨hwritten, hout, hplaced⟩ := h.char hc hbrace
          exact hstep (by omega) hwrite hwritten hout (glyphs_char hc r _) hplaced

lemma regapped_placeBraces (hreturn : '\r' ∉ cs) :
    Regapped Spread none (glyphs .initial cs) (glyphs .initial (placeBraces cs)) := by
  have hagrees : Agrees Marks initial.here (marked cs) := agrees_marked hreturn trivial
  have hwritten : Written [] .initial none (marked cs) := ⟨rfl, by simp, fun _ => rfl, .inl ⟨rfl, by simp⟩, hagrees⟩
  obtain ⟨ys, hys, hregapped⟩ := regapped_writeMarked hwritten
  have hplace : placeBraces cs = (writeMarked 0 [] (marked cs)).reverse := by
    rw [placeBraces, writeMarked, map_fst_marked]
    rfl
  rw [map_fst_marked] at hregapped
  rw [hplace, hys]
  exact hregapped

lemma mem_openBrace (h : d ∈ openBrace out rest) : d ∈ out ∨ d = '\x7b' ∨ d = '\n' := by
  have hdrop : d ∈ out.dropWhile isBlank → d ∈ out := fun hd => (dropWhile_suffix _).subset hd
  unfold openBrace at h
  grind

lemma mem_closeBrace (h : d ∈ closeBrace out rest) : d ∈ out ∨ d = '\x7d' ∨ d = '\n' := by
  have hdrop : d ∈ out.dropWhile isTab → d ∈ out := fun hd => (dropWhile_suffix _).subset hd
  unfold closeBrace at h
  grind

lemma mem_writeBraces (skip : Nat) (out cs : List Char) (kinds : List Segment.Kind)
    (h : d ∈ writeBraces skip out cs kinds) : d ∈ out ∨ d ∈ cs ∨ d = '\n' := by
  fun_induction writeBraces skip out cs kinds with
  | case1 out c cs kind kinds skip ih => exact (ih h).imp_right (.imp_left (mem_cons_of_mem _))
  | case2 out c cs kind kinds hopen ih =>
    refine (ih h).elim (fun h => ?_) fun h => .inr (h.imp_left (mem_cons_of_mem _))
    exact (mem_openBrace h).imp_right (.imp_left fun h => by rw [h, hopen.2]; exact mem_cons_self)
  | case3 out c cs kind kinds _ hclose ih =>
    refine (ih h).elim (fun h => ?_) fun h => .inr (h.imp_left (mem_cons_of_mem _))
    exact (mem_closeBrace h).imp_right (.imp_left fun h => by rw [h, hclose.2]; exact mem_cons_self)
  | case4 out c cs kind kinds hopen hclose ih =>
    refine (ih h).elim (fun h => ?_) fun h => .inr (h.imp_left (mem_cons_of_mem _))
    exact (mem_cons.1 h).elim (fun h => .inr (.inl (h ▸ mem_cons_self))) .inl
  | case5 => exact .inl h

lemma reuses_placeBraces (cs : List Char) : Reuses cs (placeBraces cs) := by
  intro d hd
  rcases mem_writeBraces 0 [] cs _ (mem_reverse.1 hd) with h | h | h
  · cases h
  · exact .inl h
  · exact .inr (.inr h)

end DeviceForge.Layout
