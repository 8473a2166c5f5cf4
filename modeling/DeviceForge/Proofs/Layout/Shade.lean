import DeviceForge.Layout.Condition
import DeviceForge.Proofs.Layout.Mode
import DeviceForge.Proofs.Segment.Stripped
/-!
# Modes and segments

Segments cut a text into code, literals and comments, and so do the modes of a reading.
-/

namespace DeviceForge.Layout

open Segment List Token Text Lexeme Mode

variable {s : Segment} {m m' : Mode} {c quote : Char} {afterIf : Bool} {cs : List Char} {r : Reader} {α : Type}

inductive Shade where
  | code
  | quoted
  | line
  | block
  deriving DecidableEq, Repr

def isLineSegment (s : Segment) : Bool :=
  s.kind = .comment && s.text.take 2 = ['/', '/']

def Shade.of (s : Segment) : Shade :=
  if s.kind = .code then .code else if s.kind = .quoted then .quoted else if isLineSegment s then .line else .block

lemma Shade.of_eq_code_iff : Shade.of s = .code ↔ s.kind = .code := by
  unfold Shade.of
  split_ifs <;> simp_all

lemma isLineSegment_of_shade (h : Shade.of s = .line) : isLineSegment s := by
  unfold Shade.of at h
  split at h
  · cases h
  split at h
  · cases h
  split at h
  · assumption
  · cases h

lemma map_fst_labels (label : Segment → α) (cs : List Char) : (labelled label cs).map Prod.fst = cs := by
  rw [labelled, map_flatMap]
  simpa [map_map, Function.comp_def] using flatMap_text_ofChars cs

def Mode.Joins (m : Mode) (cs : List Char) : Prop :=
  match m with
  | .slash _ => cs.head? ≠ some '/' ∧ cs.head? ≠ some '*'
  | .quoted _ => cs = []
  | .escaped _ => cs = []
  | .block _ => cs = []
  | .star _ => cs = []
  | .line _ => ∀ c ∈ cs.head?, c = '\n'
  | _ => True

structure Fits (shade : Shade) (m : Mode) (c : Char) (m' : Mode) : Prop where
  code : isBracket c = true → shade = .code → m.isCode = true
  bracket : isBracket c = true → (shade = .code ↔ m' = .between false)
  line : m'.isLine = true → shade = .line

def Agrees {α : Type} (P : α → Mode → Char → Mode → Prop) (m : Mode) : List (Char × α) → Prop
  | [] => True
  | x :: xs => P x.2 m x.1 (m.next x.1) ∧ Agrees P (m.next x.1) xs

lemma agrees_append {P : α → Mode → Char → Mode → Prop} {xs ys : List (Char × α)} :
    Agrees P m (xs ++ ys) ↔ Agrees P m xs ∧ Agrees P ((xs.map Prod.fst).foldl next m) ys := by
  induction xs generalizing m with
  | nil => simp [Agrees]
  | cons x xs ih => simp only [cons_append, Agrees, ih, map_cons, foldl_cons, and_assoc]

/-! ## One character -/

lemma cases_of_isBracket (h : isBracket c) : c = '(' ∨ c = ')' ∨ c = '[' ∨ c = ']' ∨ c = '\x7b' ∨ c = '\x7d' := by
  simpa [isBracket] using h

lemma not_space_of_isBracket (h : isBracket c) : isSpace c = false := by
  rcases cases_of_isBracket h with rfl | rfl | rfl | rfl | rfl | rfl <;> decide

namespace Mode

lemma next_space (hc : isSpace c) (m : Mode) : m.next c = m.pause (c = '\n') :=
  if_pos hc

lemma next_char (hc : isSpace c = false) (m : Mode) : m.next c = m.step c :=
  if_neg (by simp [hc])

lemma step_bracket (hc : isBracket c) (hm : m.isCode) : m.step c = .between false := by
  cases m with
  | quoted | escaped | line | block | star => cases hm
  | _ => rcases cases_of_isBracket hc with rfl | rfl | rfl | rfl | rfl | rfl <;> rfl

lemma step_quote (hc : c = '"' ∨ c = '\'') (hm : m.isCode) : m.step c = .quoted c := by
  cases m with
  | quoted | escaped | line | block | star => cases hm
  | _ => rcases hc with rfl | rfl <;> rfl

lemma step_slash (hm : m.isCode) (hslash : ∀ afterIf, m ≠ .slash afterIf) : m.step '/' = .slash m.afterIf := by
  cases m with
  | slash afterIf => exact absurd rfl (hslash afterIf)
  | quoted | escaped | line | block | star => cases hm
  | _ => rfl

lemma joins_start (h : (Segment.extent c cs).1 = .code) (afterIf : Bool) :
    (start afterIf c).Joins cs ∧ (start afterIf c).isLine = false := by
  have hcode := mt (extent_ne_code_iff c cs).2 (not_not.2 h)
  simp only [not_or] at hcode
  obtain ⟨hquote, hline, hblock⟩ := hcode
  unfold start
  split
  · rename_i hc
    exact ⟨⟨fun hhead => hline ⟨hc, hhead⟩, fun hhead => hblock ⟨hc, hhead⟩⟩, rfl⟩
  split
  · rename_i hc
    simp [hquote] at hc
  split
  · exact ⟨trivial, rfl⟩
  split
  · exact ⟨trivial, rfl⟩
  split
  · exact ⟨trivial, rfl⟩
  split
  · exact ⟨trivial, rfl⟩
  · exact ⟨trivial, rfl⟩

lemma joins_digit (h : (Segment.extent c cs).1 = .code) (hexadecimal marked : Bool) :
    (digit hexadecimal marked c).Joins cs ∧ (digit hexadecimal marked c).isLine = false := by
  unfold digit
  split
  · exact ⟨trivial, rfl⟩
  split
  · exact ⟨trivial, rfl⟩
  · exact joins_start h false

lemma joins_step (hm : m.isCode) (hjoins : m.Joins (c :: cs)) (h : (Segment.extent c cs).1 = .code) :
    (m.step c).Joins cs ∧ (m.step c).isLine = false := by
  cases m with
  | between afterIf => exact joins_start h afterIf
  | word chars =>
    rw [step]
    split
    · exact ⟨trivial, rfl⟩
    · exact joins_start h _
  | zero =>
    rw [step]
    split
    · exact ⟨trivial, rfl⟩
    · exact joins_digit h _ _
  | number hexadecimal marked => exact joins_digit h _ _
  | point second =>
    rw [step]
    split
    · exact ⟨trivial, rfl⟩
    split
    · cases second <;> exact ⟨trivial, rfl⟩
    · exact joins_start h _
  | slash afterIf =>
    obtain ⟨hslash, hstar⟩ := hjoins
    rw [step]
    rw [if_neg (by simpa using hslash), if_neg (by simpa using hstar)]
    exact joins_start h _
  | quoted | escaped | line | block | star => cases hm

lemma Joins.isCode (h : m.Joins (c :: cs)) (hc : isSpace c = false) : m.isCode := by
  cases m with
  | quoted | escaped | block | star => cases h
  | line afterIf =>
    obtain rfl := h c rfl
    cases hc
  | _ => rfl

lemma Joins.code (hjoins : m.Joins (c :: cs)) (h : (Segment.extent c cs).1 = .code) :
    (m.next c).Joins cs ∧ Fits .code m c (m.next c) := by
  by_cases hc : isSpace c
  · have hbracket : isBracket c → isSpace c = false := not_space_of_isBracket
    have hpaused : ∃ afterIf, m.next c = .between afterIf := by
      rw [next_space hc]
      cases m with
      | quoted | escaped | block | star => cases hjoins
      | line afterIf =>
        obtain rfl := hjoins c rfl
        exact ⟨afterIf, rfl⟩
      | _ => exact ⟨_, rfl⟩
    obtain ⟨afterIf, hnext⟩ := hpaused
    rw [hnext]
    have hnot : ¬isBracket c = true := fun hb => by
      simp [hbracket hb] at hc
    exact ⟨trivial, fun hb => absurd hb hnot, fun hb => absurd hb hnot, fun hline => by cases hline⟩
  · rw [Bool.not_eq_true] at hc
    have hcode := hjoins.isCode hc
    obtain ⟨hnext, hline⟩ := joins_step hcode hjoins h
    rw [next_char hc]
    refine ⟨hnext, fun _ _ => hcode, fun hb => ?_, fun hl => ?_⟩
    · rw [step_bracket hb hcode]
      simp
    · simp [hline] at hl

end Mode

/-! ## One literal or comment -/

lemma fits_sheltered {shade : Shade} (hshade : shade ≠ .code)
    (hbracket : isBracket c → m' ≠ .between false) (hline : m'.isLine = false) : Fits shade m c m' :=
  ⟨fun _ h => absurd h hshade, fun hc => ⟨fun h => absurd h hshade, fun h => absurd h (hbracket hc)⟩, fun h => by rw [hline] at h; cases h⟩

lemma agrees_quoted (hq : quote = '"' ∨ quote = '\'') (cs : List Char) :
    Agrees Fits (.quoted quote) ((cs.take (quoted quote cs)).map (·, .quoted)) ∧
    ((cs.take (quoted quote cs)).foldl next (.quoted quote) = .between false ∨ cs.drop (quoted quote cs) = []) := by
  have hspace : isSpace quote = false := by rcases hq with rfl | rfl <;> decide
  have hslash : quote ≠ '\\' := by rcases hq with rfl | rfl <;> decide
  have hbracket : isBracket quote = false := by rcases hq with rfl | rfl <;> decide
  have hquoted (m : Mode) (c : Char) : Fits .quoted m c (.quoted quote) := fits_sheltered (by simp) (by simp) rfl
  fun_induction quoted quote cs with
  | case1 => exact ⟨trivial, .inr rfl⟩
  | case2 d cs ih =>
    have hescaped : (Mode.quoted quote).next '\\' = .escaped quote := by rw [next_char (by decide), step, if_pos rfl]
    have hback : (escaped quote).next d = .quoted quote := by
      by_cases hd : isSpace d
      · rw [next_space hd, pause]
      · rw [next_char (by simpa using hd), step]
    have hfits : Fits .quoted (.quoted quote) '\\' (.escaped quote) := fits_sheltered (by simp) (by simp) rfl
    rw [Nat.add_comm, take_succ_cons, take_succ_cons, drop_succ_cons, drop_succ_cons]
    simp only [map_cons, Agrees, foldl_cons, hescaped, hback]
    exact ⟨⟨hfits, hquoted _ d, ih.1⟩, ih.2⟩
  | case3 cs hne =>
    have hend : (Mode.quoted quote).next quote = .between false := by
      rw [next_char hspace, step, if_neg hslash, if_pos rfl]
    simp only [take_succ_cons, take_zero, map_cons, map_nil, Agrees, foldl_cons, foldl_nil, hend]
    exact ⟨⟨fits_sheltered (by simp) (by simp [hbracket]) rfl, trivial⟩, .inl trivial⟩
  | case4 c cs hne hc ih =>
    rw [Nat.add_comm, take_succ_cons, drop_succ_cons]
    by_cases hlast : c = '\\'
    · -- nothing stands behind a backslash at the end of the text
      subst hlast
      cases cs with
      | nil =>
        have hescaped : (Mode.quoted quote).next '\\' = .escaped quote := by
          rw [next_char (by decide), step, if_pos rfl]
        simp only [take_nil, map_cons, map_nil, Agrees, hescaped, drop_nil]
        exact ⟨⟨fits_sheltered (by simp) (by simp) rfl, trivial⟩, .inr trivial⟩
      | cons d cs => exact absurd rfl (hne d cs rfl)
    · have hstay : (Mode.quoted quote).next c = .quoted quote := by
        by_cases hd : isSpace c
        · rw [next_space hd, pause]
        · rw [next_char (by simpa using hd), step, if_neg hlast, if_neg hc]
      simp only [map_cons, Agrees, foldl_cons, hstay]
      exact ⟨⟨hquoted _ c, ih.1⟩, ih.2⟩

def InBlock (afterIf : Bool) (m : Mode) (cs : List Char) : Prop :=
  m = .block afterIf ∨ m = .star afterIf ∧ cs.head? ≠ some '/'

lemma agrees_block (cs : List Char) (h : InBlock afterIf m cs) :
    Agrees Fits m ((cs.take (block cs)).map (·, .block)) ∧
    ((cs.take (block cs)).foldl next m = .between afterIf ∨ cs.drop (block cs) = []) := by
  have hblock (m : Mode) (c : Char) : Fits .block m c (.block afterIf) := fits_sheltered (by simp) (by simp) rfl
  have hstar (m : Mode) (c : Char) : Fits .block m c (.star afterIf) := fits_sheltered (by simp) (by simp) rfl
  have hnext : m.next '*' = .star afterIf := by rcases h with rfl | ⟨rfl, -⟩ <;> rfl
  fun_induction block cs generalizing m with
  | case1 => exact ⟨trivial, .inr rfl⟩
  | case2 cs =>
    have hend : (star afterIf).next '/' = .between afterIf := rfl
    simp only [take_succ_cons, take_zero, map_cons, map_nil, Agrees, foldl_cons, foldl_nil, hnext, hend]
    exact ⟨⟨hstar _ _, fits_sheltered (by simp) (fun hb => by cases hb) rfl, trivial⟩, .inl trivial⟩
  | case3 c cs hne ih =>
    rw [Nat.add_comm, take_succ_cons, drop_succ_cons]
    simp only [map_cons, Agrees, foldl_cons]
    by_cases hc : c = '*'
    · subst hc
      have hhead : cs.head? ≠ some '/' := fun hhead => by
        obtain ⟨ds, rfl⟩ := head?_eq_some_iff.1 hhead
        exact hne ds rfl rfl
      rw [hnext]
      obtain ⟨hrest, hend⟩ := ih (.inr ⟨rfl, hhead⟩) rfl
      exact ⟨⟨hstar _ _, hrest⟩, hend⟩
    · have hstay : m.next c = .block afterIf := by
        by_cases hd : isSpace c
        · rw [next_space hd]
          rcases h with rfl | ⟨rfl, -⟩ <;> rfl
        · rw [next_char (by simpa using hd)]
          rcases h with rfl | ⟨rfl, hhead⟩
          · rw [step, if_neg hc]
          · rw [step, if_neg (by simpa using hhead), if_neg hc]
      rw [hstay]
      obtain ⟨hrest, hend⟩ := ih (.inl rfl) rfl
      exact ⟨⟨hblock _ _, hrest⟩, hend⟩

lemma agrees_line (h : ∀ c ∈ cs, isLineBreak c = false) :
    Agrees Fits (.line afterIf) (cs.map (·, .line)) ∧ cs.foldl next (.line afterIf) = .line afterIf := by
  induction cs with
  | nil => exact ⟨trivial, rfl⟩
  | cons c cs ih =>
    obtain ⟨hc, hcs⟩ := forall_mem_cons.1 h
    have hfeed : c ≠ '\n' := by
      rintro rfl
      cases hc
    have hstay : (line afterIf).next c = .line afterIf := by
      by_cases hd : isSpace c
      · rw [next_space hd, decide_eq_false hfeed]
        rfl
      · rw [next_char (by simpa using hd), step]
    simp only [map_cons, Agrees, foldl_cons, hstay]
    have hfits : Fits .line (.line afterIf) c (.line afterIf) := ⟨by simp, by simp, fun _ => rfl⟩
    exact ⟨⟨hfits, (ih hcs).1⟩, (ih hcs).2⟩

lemma Mode.joins_nil (m : Mode) : m.Joins [] := by
  cases m <;> simp [Joins]

lemma Mode.Joins.slash (h : m.Joins ('/' :: cs)) : m.next '/' = .slash m.afterIf := by
  rw [next_char (by decide), step_slash (h.isCode (by decide))]
  rintro afterIf rfl
  exact h.1 rfl

lemma Mode.Joins.sheltered (hjoins : m.Joins (c :: cs)) (hreturn : '\r' ∉ cs) (h : (Segment.extent c cs).1 ≠ .code) :
    Agrees Fits m ((c :: cs.take (Segment.extent c cs).2).map (·, Shade.of ⟨(Segment.extent c cs).1, c :: cs.take (Segment.extent c cs).2⟩)) ∧
    ((c :: cs.take (Segment.extent c cs).2).foldl next m).Joins (cs.drop (Segment.extent c cs).2) := by
  rcases (extent_ne_code_iff c cs).1 h with hq | ⟨rfl, hhead⟩ | ⟨rfl, hhead⟩
  · have hspace : isSpace c = false := by rcases hq with rfl | rfl <;> decide
    have hopen : m.next c = .quoted c := by rw [next_char hspace, step_quote hq (hjoins.isCode hspace)]
    have hext : Segment.extent c cs = (.quoted, Lexeme.quoted c cs) := if_pos (by simpa using hq)
    obtain ⟨hagrees, hend⟩ := agrees_quoted hq cs
    rw [hext, map_cons, foldl_cons, hopen]
    refine ⟨⟨?_, ?_⟩, ?_⟩
    · rw [hopen]
      exact fits_sheltered (by simp [Shade.of]) (by simp) rfl
    · rw [hopen]
      exact hagrees
    · rcases hend with hend | hend
      · rw [hend]
        trivial
      · rw [hend]
        exact joins_nil _
  · obtain ⟨ds, rfl⟩ := head?_eq_some_iff.1 hhead
    have hext : Segment.extent '/' ('/' :: ds) = (.comment, Lexeme.line ('/' :: ds)) := by simp [Segment.extent]
    have hline : Lexeme.line ('/' :: ds) = Lexeme.line ds + 1 := rfl
    have htake : ds.take (Lexeme.line ds) = ds.takeWhile (!Lexeme.isLineBreak ·) := (prefix_iff_eq_take.1 (List.takeWhile_prefix _)).symm
    have hdrop : ds.drop (Lexeme.line ds) = ds.dropWhile (!Lexeme.isLineBreak ·) := by
      calc ds.drop (Lexeme.line ds)
        _ = (ds.takeWhile (!Lexeme.isLineBreak ·) ++ ds.dropWhile (!Lexeme.isLineBreak ·)).drop (Lexeme.line ds) := by
          rw [takeWhile_append_dropWhile]
        _ = ds.dropWhile (!Lexeme.isLineBreak ·) := drop_left
    have hbreaks : ∀ d ∈ ds.takeWhile (!Lexeme.isLineBreak ·), Lexeme.isLineBreak d = false := fun d hd => by
      simpa using mem_takeWhile_imp hd
    have hshade (text : List Char) : Shade.of ⟨.comment, '/' :: '/' :: text⟩ = .line := by simp [Shade.of, isLineSegment]
    have hcomment : (Mode.slash m.afterIf).next '/' = .line m.afterIf := rfl
    obtain ⟨hagrees, hend⟩ := @agrees_line m.afterIf _ hbreaks
    rw [hext, hline, take_succ_cons, drop_succ_cons, htake, hdrop, hshade]
    simp only [map_cons, Agrees, foldl_cons, hjoins.slash, hcomment, hend]
    refine ⟨⟨fits_sheltered (by simp) (by simp) rfl, ⟨by simp, by simp, fun _ => rfl⟩, hagrees⟩, fun d hd => ?_⟩
    have hbreak := head?_dropWhile_not (!Lexeme.isLineBreak ·) ds
    rw [hd] at hbreak
    have hmem : d ∈ ds := (dropWhile_sublist _).subset (mem_of_head? hd)
    have hne : d ≠ '\r' := fun heq => hreturn (mem_cons_of_mem _ (heq ▸ hmem))
    simpa [Lexeme.isLineBreak, hne] using hbreak
  · obtain ⟨ds, rfl⟩ := head?_eq_some_iff.1 hhead
    have hext : Segment.extent '/' ('*' :: ds) = (.comment, 1 + Lexeme.block ds) := by simp [Segment.extent]
    have hshade (text : List Char) : Shade.of ⟨.comment, '/' :: '*' :: text⟩ = .block := by simp [Shade.of, isLineSegment]
    have hcomment : (Mode.slash m.afterIf).next '*' = .block m.afterIf := rfl
    obtain ⟨hagrees, hend⟩ := agrees_block (m := .block m.afterIf) ds (.inl rfl)
    rw [hext, Nat.add_comm, take_succ_cons, drop_succ_cons, hshade]
    simp only [map_cons, Agrees, foldl_cons, hjoins.slash, hcomment]
    refine ⟨⟨fits_sheltered (by simp) (by simp) rfl, fits_sheltered (by simp) (by simp) rfl, hagrees⟩, ?_⟩
    rcases hend with hend | hend
    · rw [hend]
      trivial
    · rw [hend]
      exact joins_nil _

/-! ## A whole text -/

lemma labelled_cons (label : Segment → α) (c : Char) (cs : List Char) : labelled label (c :: cs) =
      (c :: cs.take (Segment.extent c cs).2).map (·, label ⟨(Segment.extent c cs).1, c :: cs.take (Segment.extent c cs).2⟩) ++
        labelled label (cs.drop (Segment.extent c cs).2) := by
  rw [labelled, ofChars_cons, flatMap_cons, labelled]

lemma agrees_labelled (hreturn : '\r' ∉ cs) (h : m.Joins cs) : Agrees Fits m (labelled Shade.of cs) := by
  induction cs using segmentInduction generalizing m with
  | nil => simp [labelled, ofChars, Agrees]
  | code c cs hcode ih =>
    obtain ⟨hnext, hfits⟩ := h.code hcode
    rw [labelled_code (fun _ => rfl) hcode]
    exact ⟨hfits, ih (fun hr => hreturn (mem_cons_of_mem _ hr)) hnext⟩
  | sheltered c cs hcode ih =>
    rw [mem_cons, not_or] at hreturn
    obtain ⟨hagrees, hrest⟩ := h.sheltered hreturn.2 hcode
    have hfst (shade : Shade) (text : List Char) : (text.map (·, shade)).map Prod.fst = text := by simp [Function.comp_def]
    rw [labelled_cons, agrees_append, hfst]
    exact ⟨hagrees, ih (fun hr => hreturn.2 (mem_of_mem_drop hr)) hrest⟩

lemma agrees_of_shade {P : α → Mode → Char → Mode → Prop} {label : Segment → α}
    (h : ∀ s m c m', Fits (Shade.of s) m c m' → P (label s) m c m') (hreturn : '\r' ∉ cs)
    (hjoins : m.Joins cs) : Agrees P m (labelled label cs) := by
  have hagrees := agrees_labelled hreturn hjoins
  rw [labelled] at hagrees ⊢
  clear hjoins
  generalize ofChars cs = segments at hagrees ⊢
  induction segments generalizing m with
  | nil => trivial
  | cons s segments ih =>
    have hfst {β : Type} (label : β) : (s.text.map (·, label)).map Prod.fst = s.text := by simp [Function.comp_def]
    rw [flatMap_cons, agrees_append, hfst] at hagrees ⊢
    refine ⟨?_, ih hagrees.2⟩
    have hsegment := hagrees.1
    clear hagrees ih hfst
    generalize s.text = text at hsegment ⊢
    induction text generalizing m with
    | nil => trivial
    | cons c text ih => exact ⟨h s _ c _ hsegment.1, ih hsegment.2⟩

def Warns (label : Bool) (_ : Mode) (_ : Char) (m : Mode) : Prop :=
  m.isLine = true → label = true

lemma Agrees.exists_of_glyph {P : α → Mode → Char → Mode → Prop} {ms : List (Char × α)}
    (h : Agrees P r.here ms) {x : Glyph} (hx : x ∈ glyphs r (ms.map (·.1))) :
    ∃ y ∈ ms, y.1 = x.char ∧ ∃ m, P y.2 m x.char x.mode := by
  induction ms generalizing r with
  | nil => cases hx
  | cons m ms ih =>
    obtain ⟨hm, hms⟩ := h
    rw [← Reader.here_push] at hms
    have hmore (hx : x ∈ glyphs (r.push m.1) (ms.map (·.1))) : ∃ y ∈ m :: ms, y.1 = x.char ∧ ∃ m, P y.2 m x.char x.mode := by
      obtain ⟨y, hy, hagrees⟩ := ih hms hx
      exact ⟨y, mem_cons_of_mem _ hy, hagrees⟩
    rw [map_cons] at hx
    by_cases hc : isSpace m.1
    · rw [glyphs_space hc] at hx
      exact hmore hx
    · rw [Bool.not_eq_true] at hc
      rw [glyphs_char hc, ← Reader.push_char hc] at hx
      rcases mem_cons.1 hx with rfl | hx
      · rw [next_char hc] at hm
        exact ⟨m, mem_cons_self, rfl, r.here, hm⟩
      · exact hmore hx

lemma exists_line_glyph (hreturn : '\r' ∉ cs) (h : r.here.Joins cs) (hline : hasLineComment cs) :
    ∃ x ∈ glyphs r cs, x.mode.isLine := by
  induction cs using segmentInduction generalizing r with
  | nil => simp [hasLineComment, ofChars] at hline
  | code c cs hcode ih =>
    have hnext := (h.code hcode).1
    rw [← Reader.here_push] at hnext
    have hrest : hasLineComment cs := by
      rw [← hline, hasLineComment, hasLineComment, ofChars_code hcode]
      unfold prepend
      split <;> simp_all
    obtain ⟨x, hx, hmode⟩ := ih (fun hr => hreturn (mem_cons_of_mem _ hr)) hnext hrest
    refine ⟨x, ?_, hmode⟩
    rw [← singleton_append, glyphs_append]
    exact mem_append_right _ hx
  | sheltered c cs hcode ih =>
    rw [mem_cons, not_or] at hreturn
    have hrest := (h.sheltered hreturn.2 hcode).2
    rw [← Reader.here_past] at hrest
    have hsplit : c :: cs = (c :: cs.take (Segment.extent c cs).2) ++ cs.drop (Segment.extent c cs).2 := by
      rw [cons_append, take_append_drop]
    rw [hasLineComment, ofChars_cons, any_cons, Bool.or_eq_true, Bool.and_eq_true, decide_eq_true_eq, decide_eq_true_eq] at hline
    rcases hline with ⟨-, htext⟩ | hline
    · obtain ⟨rfl, ds, rfl⟩ : c = '/' ∧ ∃ ds, cs = '/' :: ds := by
        obtain ⟨rfl, htake⟩ := cons.inj htext
        cases cs with
        | nil => simp at htake
        | cons d ds =>
          refine ⟨rfl, ds, ?_⟩
          cases hn : (Segment.extent '/' (d :: ds)).2 with
          | zero => simp [hn] at htake
          | succ n =>
            rw [hn, take_succ_cons, take_succ_cons] at htake
            rw [(cons.inj htake).1]
      have hslash := h.slash
      rw [next_char (by decide)] at hslash
      refine ⟨⟨.tight, '/', .line r.here.afterIf⟩, ?_, rfl⟩
      rw [glyphs_char (by decide), glyphs_char (by decide), hslash]
      exact mem_cons_of_mem _ mem_cons_self
    · obtain ⟨x, hx, hmode⟩ := ih (fun hr => hreturn.2 (mem_of_mem_drop hr)) hrest hline
      refine ⟨x, ?_, hmode⟩
      rw [hsplit, glyphs_append]
      exact mem_append_right _ hx

end DeviceForge.Layout

/-! # Braces and conditions among glyphs -/

namespace DeviceForge.Layout

open List

namespace Glyph

def isBrace (x : Glyph) : Bool :=
  x.char = '\x7b' || x.char = '\x7d'

def isCodeBrace (x : Glyph) : Bool :=
  x.isBrace && x.mode = .between false

def opens (x : Glyph) : Bool :=
  x.char = '\x7b' && x.mode = .between false

lemma isBrace_of_isCodeBrace {x : Glyph} (h : x.isCodeBrace) : x.isBrace :=
  (Bool.and_eq_true_iff.1 h).1

lemma isCodeBrace_of_opens {x : Glyph} (h : x.opens) : x.isCodeBrace := by
  rw [opens, Bool.and_eq_true] at h
  rw [isCodeBrace, isBrace, h.1, h.2]
  rfl

end Glyph

def Kept (p : Option Glyph) (x : Glyph) (g : Gap) : Prop :=
  p = none ∨ (g = .feed ↔ x.gap = .feed)

def Loosened (p : Option Glyph) (x : Glyph) (g : Gap) : Prop :=
  Kept p x g ∨ g ≠ .feed ∧ x.isBrace = false ∧ ∀ y ∈ p, y.isBrace = false

def Beside (p : Option Glyph) (x : Glyph) : Prop :=
  x.isCodeBrace = true ∨ ∃ y ∈ p, y.isCodeBrace = true

structure Spread (p : Option Glyph) (x : Glyph) (g : Gap) : Prop where
  brace : x.isCodeBrace = true → p = none ∨ g = .feed
  opened : (∃ y ∈ p, y.opens = true) → g = .feed
  gap : p = none ∨ g = x.gap ∨ g = .feed ∧ Beside p x

def Fed (p : Option Glyph) (x : Glyph) (g : Gap) : Prop :=
  g = .feed → p = none ∨ x.gap = .feed ∨ Beside p x

lemma kept_self (p : Option Glyph) (x : Glyph) : Kept p x x.gap :=
  .inr Iff.rfl

lemma loosened_self (p : Option Glyph) (x : Glyph) : Loosened p x x.gap :=
  .inl (kept_self p x)

variable {p : Option Glyph} {x : Glyph} {g : Gap}

lemma Loosened.fed (h : Loosened p x g) : Fed p x g := by
  intro hg
  rcases h with (h | h) | ⟨h, -⟩
  · exact .inl h
  · exact .inr (.inl (h.1 hg))
  · exact absurd hg h

lemma Spread.fed (h : Spread p x g) : Fed p x g := by
  intro hg
  rcases h.gap with h | h | ⟨-, h⟩
  · exact .inl h
  · exact .inr (.inl (h ▸ hg))
  · exact .inr (.inr h)

inductive Braced : Option Glyph → List Glyph → Prop
  | nil {p : Option Glyph} : Braced p []
  | cons {p : Option Glyph} {x : Glyph} {xs : List Glyph} (brace : x.isCodeBrace = true → p = none ∨ x.gap = .feed)
      (opened : (∃ y ∈ p, y.opens = true) → x.gap = .feed) (rest : Braced (some x) xs) : Braced p (x :: xs)

lemma Braced.regap {xs : List Glyph} (h : Braced (some x) xs) (g : Gap) : Braced (some ⟨g, x.char, x.mode⟩) xs := by
  cases h with
  | nil => exact .nil
  | cons hbrace hopened hxs =>
    refine .cons (fun hy => .inr ((hbrace hy).resolve_left (by simp))) (fun hz => hopened ?_) hxs
    obtain ⟨z, hz, hopens⟩ := hz
    obtain rfl := Option.some.inj hz
    exact ⟨x, rfl, hopens⟩

lemma Braced.append {xs ys : List Glyph} (h : Braced p (xs ++ ys)) : Braced (xs.getLast?.or p) ys := by
  induction xs generalizing p with
  | nil => exact h
  | cons x xs ih =>
    rw [getLast?_cons_or]
    cases h with
    | cons _ _ hrest => exact ih hrest

namespace Regapped

variable {xs ys : List Glyph}

lemma braced_of_spread (h : Regapped Spread p xs ys) : Braced p ys := by
  induction h with
  | nil => exact .nil
  | cons hx _ ih => exact .cons hx.brace hx.opened (ih.regap _)

lemma braced (h : Regapped Loosened p xs ys) (hxs : Braced p xs) : Braced p ys := by
  induction h with
  | nil => exact .nil
  | @cons p x xs ys g hx _ ih =>
    obtain _ | ⟨hbrace, hopened, hxs⟩ := hxs
    refine .cons (fun hy => ?_) (fun hz => ?_) ((ih hxs).regap _)
    · rcases hx with (hp | hfeed) | ⟨-, hplain, -⟩
      · exact .inl hp
      · exact (hbrace hy).imp_right hfeed.2
      · simp [show x.isBrace = true from Glyph.isBrace_of_isCodeBrace hy] at hplain
    · rcases hx with (hp | hfeed) | ⟨-, -, hplain⟩
      · obtain ⟨z, hz, -⟩ := hz
        simp [hp] at hz
      · exact hfeed.2 (hopened hz)
      · obtain ⟨z, hz, hopens⟩ := hz
        have := hplain z hz
        simp [Glyph.isBrace_of_isCodeBrace (Glyph.isCodeBrace_of_opens hopens)] at this

end Regapped

/-! ## Conditions -/

def closing (level : Nat) : List Glyph → Option Nat
  | [] => none
  | x :: xs =>
    if x.mode = .between false ∧ x.char = ')' then
      if level = 1 then some 0 else (closing (level - 1) xs).map (· + 1)
    else if x.mode = .between false ∧ x.char = '(' then (closing (level + 1) xs).map (· + 1)
    else (closing level xs).map (· + 1)

def Glyph.isPlain (x : Glyph) : Bool :=
  !x.isCodeBrace && !x.mode.isLine

inductive Flat : Mode → List Glyph → Prop
  | nil {m : Mode} : Flat m []
  | cons {m : Mode} {x : Glyph} {xs : List Glyph}
      (condition : m.afterIf = true → x.char = '(' → x.mode = .between false → ∀ n, closing 1 xs = some n →
        (∀ y ∈ xs.take n, y.isPlain = true) → ∀ y ∈ xs.take (n + 1), y.gap ≠ .feed)
      (rest : Flat x.mode xs) : Flat m (x :: xs)

lemma Flat.append {m : Mode} {xs ys : List Glyph} (h : Flat m (xs ++ ys)) : Flat ((xs.getLast?.map Glyph.mode).getD m) ys := by
  induction xs generalizing m with
  | nil => exact h
  | cons x xs ih =>
    cases h with
    | cons _ hrest =>
      have := ih hrest
      rw [getLast?_cons]
      cases hlast : xs.getLast? <;> simpa [hlast] using this

lemma closing_char {level n : Nat} {xs : List Glyph} (h : closing level xs = some n) : ∃ x, xs[n]? = some x ∧ x.char = ')' := by
  induction xs generalizing level n with
  | nil => cases h
  | cons x xs ih =>
    have hmore {level : Nat} (h : (closing level xs).map (· + 1) = some n) : ∃ y, (x :: xs)[n]? = some y ∧ y.char = ')' := by
      obtain ⟨k, hk, rfl⟩ := Option.map_eq_some_iff.1 h
      rw [getElem?_cons_succ]
      exact ih hk
    rw [closing] at h
    split at h
    · rename_i hx
      split at h
      · obtain rfl := Option.some.inj h
        exact ⟨x, rfl, hx.2⟩
      · exact hmore h
    split at h
    · exact hmore h
    · exact hmore h

namespace Regapped

variable {G : Option Glyph → Glyph → Gap → Prop} {xs ys : List Glyph}

lemma closing_eq (h : Regapped G p xs ys) (level : Nat) : closing level ys = closing level xs := by
  induction h generalizing level with
  | nil => rfl
  | cons _ _ ih => simp only [closing, ih]

lemma take (h : Regapped G p xs ys) (n : Nat) : Regapped G p (xs.take n) (ys.take n) := by
  induction h generalizing n with
  | nil => simpa using .nil
  | cons hx _ ih =>
    cases n with
    | zero => exact .nil
    | succ n => exact .cons hx (ih n)

lemma no_feed (h : Regapped Fed p xs ys) (hp : ∃ y, p = some y ∧ y.isCodeBrace = false)
    (hxs : ∀ x ∈ xs, x.isCodeBrace = false ∧ x.gap ≠ .feed) : ∀ y ∈ ys, y.gap ≠ .feed := by
  induction h with
  | nil => simp
  | @cons p x xs ys g hx _ ih =>
    obtain ⟨hfirst, hrest⟩ := forall_mem_cons.1 hxs
    refine forall_mem_cons.2 ⟨fun hg => ?_, ih ⟨x, rfl, hfirst.1⟩ hrest⟩
    obtain ⟨y, rfl, hy⟩ := hp
    rcases hx hg with hnone | hfeed | hbrace | ⟨z, hz, hbrace⟩
    · cases hnone
    · exact hfirst.2 hfeed
    · simp [hfirst.1] at hbrace
    · obtain rfl := Option.some.inj hz
      simp [hy] at hbrace

lemma isPlain_of_mem (h : Regapped G p xs ys) (hys : ∀ y ∈ ys, y.isPlain) : ∀ x ∈ xs, x.isPlain := by
  induction h with
  | nil => simp
  | cons _ _ ih =>
    obtain ⟨hfirst, hrest⟩ := forall_mem_cons.1 hys
    exact forall_mem_cons.2 ⟨hfirst, ih hrest⟩

lemma flat (h : Regapped Fed p xs ys) {m : Mode} (hxs : Flat m xs) : Flat m ys := by
  induction h generalizing m with
  | nil => exact .nil
  | @cons p x xs ys g hx hmore ih =>
    obtain _ | ⟨hcondition, hxs⟩ := hxs
    refine .cons (fun hm hchar hmode n hclosing hplain => ?_) (ih hxs)
    rw [hmore.closing_eq] at hclosing
    have hplain' := (hmore.take n).isPlain_of_mem hplain
    have hfeeds := hcondition hm hchar hmode n hclosing hplain'
    refine (hmore.take (n + 1)).no_feed ⟨x, rfl, ?_⟩ fun y hy => ⟨?_, hfeeds y hy⟩
    · simp [Glyph.isCodeBrace, Glyph.isBrace, show x.char = '(' from hchar]
    · rw [take_add_one, mem_append] at hy
      rcases hy with hy | hy
      · have := hplain' y hy
        rw [Glyph.isPlain, Bool.and_eq_true, Bool.not_eq_true'] at this
        exact this.1
      · obtain ⟨z, hz, hparen⟩ := closing_char hclosing
        rw [hz, Option.toList_some, mem_singleton] at hy
        simp [hy, Glyph.isCodeBrace, Glyph.isBrace, hparen]

end Regapped

end DeviceForge.Layout
