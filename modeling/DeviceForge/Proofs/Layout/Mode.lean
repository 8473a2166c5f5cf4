import DeviceForge.Proofs.Text.Runs
import Mathlib.Data.List.Induction
/-!
# Reading characters

A text can be read character by character, with the lexical mode that each character leaves behind.
-/

namespace DeviceForge.Layout

open Text List

variable {w cs ds : List Char} {c : Char} {r : Reader}

/-! ## Gaps and modes -/

inductive Gap where
  | tight
  | blank
  | feed
  deriving DecidableEq, Repr

def Gap.push (g : Gap) (c : Char) : Gap :=
  if c = '\n' then .feed else if g = .feed then .feed else .blank

inductive Mode where
  | between (afterIf : Bool)
  | word (chars : List Char)
  /-- A number of which only the digit `0` has been read. -/
  | zero
  /-- A sign goes on with the number if an exponent mark has been read last. -/
  | number (hexadecimal marked : Bool)
  /-- A point or two in a row, which may go on to a number or to three points. -/
  | point (second : Bool)
  /-- A slash that may start a comment. -/
  | slash (afterIf : Bool)
  | quoted (quote : Char)
  /-- A backslash has been read last. -/
  | escaped (quote : Char)
  | line (afterIf : Bool)
  | block (afterIf : Bool)
  /-- A star has been read last. -/
  | star (afterIf : Bool)
  deriving DecidableEq, Repr

namespace Mode

def start (afterIf : Bool) (c : Char) : Mode :=
  if c = '/' then .slash afterIf
  else if c = '"' || c = '\'' then .quoted c
  else if c = '.' then .point false
  else if c = '0' then .zero
  else if c.isDigit then .number false false
  else if c.isAlpha || c = '_' then .word [c]
  else .between false

def digit (hexadecimal marked : Bool) (c : Char) : Mode :=
  if isWordChar c || c = '.' then .number hexadecimal (!hexadecimal && (c = 'e' || c = 'E'))
  else if (c = '+' || c = '-') && marked then .number hexadecimal false
  else start false c

def step : Mode → Char → Mode
  | .between afterIf, c => start afterIf c
  | .word chars, c => if isWordChar c then .word (chars ++ [c]) else start (chars = ['i', 'f']) c
  | .zero, c => if c = 'x' || c = 'X' then .number true false else digit false false c
  | .number hexadecimal marked, c => digit hexadecimal marked c
  | .point second, c =>
    if c.isDigit then .number false false
    else if c = '.' then (if second then .between false else .point true)
    else start false c
  | .slash afterIf, c => if c = '/' then .line afterIf else if c = '*' then .block afterIf else start false c
  | .quoted quote, c => if c = '\\' then .escaped quote else if c = quote then .between false else .quoted quote
  | .escaped quote, _ => .quoted quote
  | .line afterIf, _ => .line afterIf
  | .block afterIf, c => if c = '*' then .star afterIf else .block afterIf
  | .star afterIf, c => if c = '/' then .between afterIf else if c = '*' then .star afterIf else .block afterIf

def pause (m : Mode) (feed : Bool) : Mode :=
  match m with
  | .between afterIf => .between afterIf
  | .word chars => .between (chars = ['i', 'f'])
  | .zero => .between false
  | .number _ _ => .between false
  | .point _ => .between false
  | .slash _ => .between false
  | .quoted quote => .quoted quote
  | .escaped quote => .quoted quote
  | .line afterIf => if feed then .between afterIf else .line afterIf
  | .block afterIf => .block afterIf
  | .star afterIf => .block afterIf

def rest (m : Mode) : Gap → Mode
  | .tight => m
  | .blank => m.pause false
  | .feed => m.pause true

def next (m : Mode) (c : Char) : Mode :=
  if isSpace c then m.pause (c = '\n') else m.step c

def isCode : Mode → Bool
  | .quoted _ | .escaped _ | .line _ | .block _ | .star _ => false
  | _ => true

def isLine : Mode → Bool
  | .line _ => true
  | _ => false

def afterIf : Mode → Bool
  | .between afterIf | .line afterIf | .block afterIf | .star afterIf => afterIf
  | .word chars => chars = ['i', 'f']
  | _ => false

lemma pause_pause (m : Mode) (feed feed' : Bool) : (m.pause feed).pause feed' = m.pause (feed || feed') := by
  cases m with
  | line afterIf => cases feed <;> rfl
  | _ => rfl

lemma pause_eq {m : Mode} (h : m.isLine = false) (feed feed' : Bool) : m.pause feed = m.pause feed' := by
  cases m with
  | line => cases h
  | _ => rfl

lemma isLine_rest {m : Mode} (h : m.isLine = false) (g : Gap) : (m.rest g).isLine = false := by
  cases m with
  | line => cases h
  | _ => cases g <;> rfl

lemma isLine_start (afterIf : Bool) (c : Char) : (start afterIf c).isLine = false := by
  unfold start
  split_ifs <;> rfl

lemma isLine_digit (hexadecimal marked : Bool) (c : Char) : (digit hexadecimal marked c).isLine = false := by
  unfold digit
  split_ifs
  · rfl
  · rfl
  · exact isLine_start false c

lemma isLine_step {m : Mode} (h : m.isLine = false) (hc : c ≠ '/') : (m.step c).isLine = false := by
  cases m with
  | between afterIf => exact isLine_start afterIf c
  | number hexadecimal marked => exact isLine_digit hexadecimal marked c
  | zero =>
    rw [step]
    split
    · rfl
    · exact isLine_digit false false c
  | line => cases h
  | escaped => rfl
  | slash =>
    rw [step, if_neg hc]
    split_ifs
    · rfl
    · exact isLine_start false c
  | _ =>
    rw [step]
    split_ifs <;> first | rfl | exact isLine_start _ c

lemma rest_push (m : Mode) (g : Gap) (c : Char) : m.rest (g.push c) = (m.rest g).pause (c = '\n') := by
  by_cases hc : c = '\n' <;> cases g <;> simp [Gap.push, hc, rest, pause_pause]

end Mode

/-! ## Readers and glyphs -/

structure Reader where
  mode : Mode
  gap : Gap
  deriving DecidableEq, Repr

namespace Reader

def initial : Reader :=
  ⟨.between false, .tight⟩

def here (r : Reader) : Mode :=
  r.mode.rest r.gap

def push (r : Reader) (c : Char) : Reader :=
  if isSpace c then ⟨r.mode, r.gap.push c⟩ else ⟨r.here.step c, .tight⟩

def past (r : Reader) (cs : List Char) : Reader :=
  cs.foldl push r

@[simp] lemma past_nil (r : Reader) : r.past [] = r := rfl

@[simp] lemma past_cons (r : Reader) (c : Char) (cs : List Char) : r.past (c :: cs) = (r.push c).past cs := by
  rw [past, past, foldl_cons]

@[simp] lemma past_append (r : Reader) (cs ds : List Char) : r.past (cs ++ ds) = (r.past cs).past ds :=
  foldl_append

lemma push_space (hc : isSpace c) (r : Reader) : r.push c = ⟨r.mode, r.gap.push c⟩ :=
  if_pos hc

lemma push_char (hc : isSpace c = false) (r : Reader) : r.push c = ⟨r.here.step c, .tight⟩ :=
  if_neg (by simp [hc])

lemma here_push (r : Reader) (c : Char) : (r.push c).here = r.here.next c := by
  by_cases hc : isSpace c
  · rw [push_space hc, here, Mode.rest_push, Mode.next, if_pos hc, here]
  · rw [Bool.not_eq_true] at hc
    rw [push_char hc, Mode.next, if_neg (by simp [hc])]
    rfl

lemma here_past (r : Reader) (cs : List Char) : (r.past cs).here = cs.foldl Mode.next r.here := by
  induction cs generalizing r with
  | nil => rfl
  | cons c cs ih => rw [past_cons, ih, here_push, foldl_cons]

lemma mode_past_spaces (hw : Spaces w) (r : Reader) : (r.past w).mode = r.mode := by
  induction w generalizing r with
  | nil => rfl
  | cons c w ih =>
    obtain ⟨hc, hw⟩ := spaces_cons.1 hw
    rw [past_cons, ih hw, push_space hc]

end Reader

def Gap.past (g : Gap) (w : List Char) : Gap :=
  w.foldl Gap.push g

lemma Reader.gap_past_spaces (hw : Spaces w) (r : Reader) : (r.past w).gap = r.gap.past w := by
  induction w generalizing r with
  | nil => rfl
  | cons c w ih =>
    obtain ⟨hc, hw⟩ := spaces_cons.1 hw
    rw [past_cons, ih hw, push_space hc]
    rfl

lemma Reader.past_spaces (hw : Spaces w) (r : Reader) : r.past w = ⟨r.mode, r.gap.past w⟩ := by
  rw [← gap_past_spaces hw, ← mode_past_spaces hw]

lemma Gap.past_eq (g : Gap) (w : List Char) : g.past w = if '\n' ∈ w ∨ g = .feed then .feed else if w = [] then g else .blank := by
  induction w generalizing g with
  | nil => cases g <;> rfl
  | cons c w ih =>
    have hover : g.past (c :: w) = (g.push c).past w := rfl
    rw [hover, ih, push]
    by_cases hc : c = '\n' <;> by_cases hg : g = .feed <;> by_cases hw : '\n' ∈ w <;> cases w <;> simp [hc, hg, hw, Ne.symm]

structure Glyph where
  gap : Gap
  char : Char
  mode : Mode
  deriving DecidableEq, Repr

def glyphs (r : Reader) : List Char → List Glyph
  | [] => []
  | c :: cs => if isSpace c then glyphs (r.push c) cs else ⟨r.gap, c, r.here.step c⟩ :: glyphs (r.push c) cs

@[simp] lemma glyphs_nil (r : Reader) : glyphs r [] = [] := rfl

lemma glyphs_space (hc : isSpace c) (r : Reader) (cs : List Char) : glyphs r (c :: cs) = glyphs (r.push c) cs :=
  if_pos hc

lemma glyphs_char (hc : isSpace c = false) (r : Reader) (cs : List Char) :
    glyphs r (c :: cs) = ⟨r.gap, c, r.here.step c⟩ :: glyphs ⟨r.here.step c, .tight⟩ cs := by
  rw [glyphs, if_neg (by simp [hc]), Reader.push_char hc]

lemma glyphs_append (r : Reader) (cs ds : List Char) : glyphs r (cs ++ ds) = glyphs r cs ++ glyphs (r.past cs) ds := by
  induction cs generalizing r with
  | nil => rfl
  | cons c cs ih =>
    rw [cons_append, Reader.past_cons]
    by_cases hc : isSpace c
    · rw [glyphs_space hc, glyphs_space hc, ih]
    · rw [Bool.not_eq_true] at hc
      rw [glyphs_char hc, glyphs_char hc, cons_append, ← Reader.push_char hc, ih]

lemma take_glyphs (r : Reader) (cs ds : List Char) : (glyphs r (cs ++ ds)).take (glyphs r cs).length = glyphs r cs := by
  rw [glyphs_append, take_left]

lemma take_glyphs_succ (hc : isSpace c = false) (r : Reader) (cs ds : List Char) :
    (glyphs r (cs ++ [c] ++ ds)).take ((glyphs r cs).length + 1) = glyphs r (cs ++ [c]) := by
  have hlen : (glyphs r cs).length + 1 = (glyphs r (cs ++ [c])).length := by
    rw [glyphs_append, glyphs_char hc, length_append]
    rfl
  rw [hlen, take_glyphs]

lemma glyphs_spaces (hw : Spaces w) (r : Reader) : glyphs r w = [] := by
  induction w generalizing r with
  | nil => rfl
  | cons c w ih =>
    obtain ⟨hc, hw⟩ := spaces_cons.1 hw
    rw [glyphs_space hc, ih hw]

lemma spaces_of_glyphs (h : glyphs r cs = []) : Spaces cs := by
  induction cs generalizing r with
  | nil => exact spaces_nil
  | cons c cs ih =>
    by_cases hc : isSpace c
    · rw [glyphs_space hc] at h
      exact spaces_cons.2 ⟨hc, ih h⟩
    · rw [Bool.not_eq_true] at hc
      simp [glyphs_char hc] at h

lemma map_char_glyphs (r : Reader) (cs : List Char) : (glyphs r cs).map Glyph.char = cs.filter (!isSpace ·) := by
  induction cs generalizing r with
  | nil => rfl
  | cons c cs ih =>
    by_cases hc : isSpace c
    · rw [glyphs_space hc, ih, filter_cons_of_neg (by simp [hc])]
    · rw [Bool.not_eq_true] at hc
      rw [glyphs_char hc, map_cons, ih, filter_cons_of_pos (by simp [hc])]

lemma mode_past (r : Reader) (cs : List Char) : (r.past cs).mode = (((glyphs r cs).getLast?).map Glyph.mode).getD r.mode := by
  induction cs using reverseRecOn with
  | nil => rfl
  | append_singleton cs c ih =>
    rw [glyphs_append, Reader.past_append, Reader.past_cons, Reader.past_nil]
    by_cases hc : isSpace c
    · rw [glyphs_spaces (spaces_cons.2 ⟨hc, spaces_nil⟩), append_nil, ← ih, Reader.push_space hc]
    · rw [Bool.not_eq_true] at hc
      rw [glyphs_char hc, Reader.push_char hc]
      simp

lemma mode_past_congr (h : glyphs r cs = glyphs r ds) : (r.past cs).mode = (r.past ds).mode := by
  rw [mode_past, mode_past, h]

lemma isLine_past (hr : r.mode.isLine = false) (h : ∀ x ∈ glyphs r cs, x.mode.isLine = false) :
    (r.past cs).mode.isLine = false := by
  rw [mode_past]
  cases hlast : (glyphs r cs).getLast? with
  | none => exact hr
  | some x => exact h x (mem_of_getLast? hlast)

lemma Reader.past_concat (hc : isSpace c = false) (r : Reader) (cs : List Char) :
    r.past (cs ++ [c]) = ⟨(r.past (cs ++ [c])).mode, .tight⟩ := by
  rw [past_append, past_cons, push_char hc, past_nil]

inductive Regapped (G : Option Glyph → Glyph → Gap → Prop) : Option Glyph → List Glyph → List Glyph → Prop
  | nil {p : Option Glyph} : Regapped G p [] []
  | cons {p : Option Glyph} {x : Glyph} {xs ys : List Glyph} {g : Gap} (h : G p x g) (hs : Regapped G (some x) xs ys) :
      Regapped G p (x :: xs) (⟨g, x.char, x.mode⟩ :: ys)

lemma getLast?_cons_or (x : Glyph) (xs : List Glyph) (p : Option Glyph) : (x :: xs).getLast?.or p = xs.getLast?.or (some x) := by
  rw [getLast?_cons]
  cases xs.getLast? <;> rfl

namespace Regapped

variable {G : Option Glyph → Glyph → Gap → Prop} {p : Option Glyph} {xs ys : List Glyph}

lemma refl (hG : ∀ p x, G p x x.gap) (p : Option Glyph) (xs : List Glyph) : Regapped G p xs xs := by
  induction xs generalizing p with
  | nil => exact .nil
  | cons x xs ih => exact .cons (hG p x) (ih (some x))

lemma mono {G' : Option Glyph → Glyph → Gap → Prop} (hG : ∀ p x g, G p x g → G' p x g) (h : Regapped G p xs ys) : Regapped G' p xs ys := by
  induction h with
  | nil => exact .nil
  | cons h _ ih => exact .cons (hG _ _ _ h) ih

lemma append (h : Regapped G p xs ys) {xs' ys' : List Glyph} (h' : Regapped G (xs.getLast?.or p) xs' ys') :
    Regapped G p (xs ++ xs') (ys ++ ys') := by
  induction h with
  | nil => exact h'
  | @cons p x xs ys g hx _ ih =>
    rw [getLast?_cons_or] at h'
    exact .cons hx (ih h')

lemma trans {G' G'' : Option Glyph → Glyph → Gap → Prop} {q : Option Glyph} {zs : List Glyph} (h : Regapped G p xs ys)
    (h' : Regapped G' q ys zs)
    (hG : ∀ p q x g g', G p x g → G' q ⟨g, x.char, x.mode⟩ g' → G'' p x g') : Regapped G'' p xs zs := by
  induction h generalizing q zs with
  | nil =>
    cases h'
    exact .nil
  | cons hx _ ih =>
    cases h' with
    | cons hy hys => exact .cons (hG _ _ _ _ _ hx hy) (ih hys)

lemma map_char (h : Regapped G p xs ys) : ys.map Glyph.char = xs.map Glyph.char := by
  induction h with
  | nil => rfl
  | cons _ _ ih => rw [map_cons, map_cons, ih]

lemma map_mode (h : Regapped G p xs ys) : ys.map Glyph.mode = xs.map Glyph.mode := by
  induction h with
  | nil => rfl
  | cons _ _ ih => rw [map_cons, map_cons, ih]

lemma length_eq (h : Regapped G p xs ys) : ys.length = xs.length := by
  rw [← length_map Glyph.char, h.map_char, length_map]

lemma mode_past {r' : Reader} (h : Regapped G p (glyphs r cs) (glyphs r' ds)) (hmode : r'.mode = r.mode) :
    (r'.past ds).mode = (r.past cs).mode := by
  rw [Layout.mode_past, Layout.mode_past, ← getLast?_map, ← getLast?_map, h.map_mode, hmode]

end Regapped

end DeviceForge.Layout
