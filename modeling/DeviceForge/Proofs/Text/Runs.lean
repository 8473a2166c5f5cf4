import DeviceForge.Proofs.Token.Ends
/-!
# Runs of spaces

Laying out a text changes its runs of spaces and nothing else.
-/

namespace DeviceForge.Text

open List Lexeme

variable {c quote : Char} {cs ds bs as w : List Char}

/-- All characters are spaces. -/
def Spaces (cs : List Char) : Prop :=
  ∀ c ∈ cs, isSpace c = true

lemma spaces_nil : Spaces [] := by
  intro c hc
  cases hc

lemma spaces_cons : Spaces (c :: cs) ↔ isSpace c ∧ Spaces cs :=
  forall_mem_cons

lemma spaces_append : Spaces (cs ++ ds) ↔ Spaces cs ∧ Spaces ds :=
  forall_mem_append

/-- Texts of the same characters, with spaces at the same places, but not the same spaces. -/
inductive Alike : List Char → List Char → Prop
  | nil : Alike [] []
  | char {c : Char} {cs ds : List Char} (hc : isSpace c = false) (h : Alike cs ds) : Alike (c :: cs) (c :: ds)
  | run {v w cs ds : List Char} (hv : Spaces v) (hw : Spaces w) (hne : v ≠ []) (hne' : w ≠ []) (h : Alike cs ds) :
      Alike (v ++ cs) (w ++ ds)

lemma Alike.refl (cs : List Char) : Alike cs cs := by
  induction cs with
  | nil => exact .nil
  | cons c cs ih =>
    by_cases hc : isSpace c
    · have hspaces : Spaces [c] := spaces_cons.2 ⟨hc, spaces_nil⟩
      exact .run hspaces hspaces (cons_ne_nil _ _) (cons_ne_nil _ _) ih
    · exact .char (by simpa using hc) ih

lemma Alike.isEmpty_eq (h : Alike cs ds) : cs.isEmpty = ds.isEmpty := by
  cases h with
  | nil => rfl
  | char => rfl
  | run _ _ hne hne' =>
    rw [Bool.eq_iff_iff, List.isEmpty_iff, List.isEmpty_iff, append_eq_nil_iff, append_eq_nil_iff]
    exact ⟨fun h => absurd h.1 hne, fun h => absurd h.1 hne'⟩

lemma Alike.eq (h : Alike cs ds) (hcs : ∀ c ∈ cs, isSpace c = false) : ds = cs := by
  induction h with
  | nil => rfl
  | char hc h ih => rw [ih fun d hd => hcs d (mem_cons_of_mem _ hd)]
  | run hv hw hne hne' h ih =>
    rename_i v w cs ds
    obtain ⟨c, v, rfl⟩ := exists_cons_of_ne_nil hne
    have hspace := hv c mem_cons_self
    simp [hcs c mem_cons_self] at hspace

lemma Alike.cons_iff (hc : isSpace c = false) : Alike (c :: cs) ds ↔ ∃ ds', ds = c :: ds' ∧ Alike cs ds' := by
  constructor
  · generalize heq : c :: cs = all
    intro h
    cases h with
    | nil => cases heq
    | char hd h =>
      obtain ⟨rfl, rfl⟩ := cons.inj heq
      exact ⟨_, rfl, h⟩
    | run hv hw hne hne' h =>
      rename_i v w cs ds
      obtain ⟨d, v, rfl⟩ := exists_cons_of_ne_nil hne
      obtain ⟨rfl, -⟩ := cons.inj heq
      simp [hv c mem_cons_self] at hc
  · rintro ⟨ds, rfl, h⟩
    exact .char hc h

def Reuses (cs ds : List Char) : Prop :=
  ∀ c ∈ ds, c ∈ cs ∨ c = ' ' ∨ c = '\n'

lemma Reuses.refl (cs : List Char) : Reuses cs cs :=
  fun _ hc => .inl hc

lemma Reuses.trans (h : Reuses bs cs) (h' : Reuses cs ds) : Reuses bs ds := by
  intro c hc
  rcases h' c hc with hc | hc
  · exact h c hc
  · exact .inr hc

lemma Reuses.append (h : Reuses as bs) (h' : Reuses cs ds) : Reuses (as ++ cs) (bs ++ ds) := by
  intro c hc
  rcases mem_append.1 hc with hc | hc
  · exact (h c hc).imp_left (mem_append_left _)
  · exact (h' c hc).imp_left (mem_append_right _)

lemma Reuses.forall (h : Reuses cs ds) {P : Char → Prop} (hspace : P ' ') (hfeed : P '\n')
    (hcs : ∀ c ∈ cs, P c) : ∀ c ∈ ds, P c := by
  intro c hc
  rcases h c hc with hc | rfl | rfl
  · exact hcs c hc
  · exact hspace
  · exact hfeed

lemma endsQuoted_spaces (hq : isSpace quote = false) (hw : Spaces w) (cs : List Char) :
    endsQuoted quote (w ++ cs) = endsQuoted quote cs := by
  induction w with
  | nil => rfl
  | cons c w ih =>
    obtain ⟨hc, hw⟩ := spaces_cons.1 hw
    have hne : c ≠ '\\' := by
      rintro rfl
      cases hc
    have hnq : c ≠ quote := by
      rintro rfl
      simp [hc] at hq
    rw [cons_append, endsQuoted_plain hne, if_neg hnq, ih hw]

lemma Alike.endsQuoted_both (hq : isSpace quote = false) (h : Alike cs ds) :
    endsQuoted quote cs = endsQuoted quote ds ∧ endsQuoted quote ('\\' :: cs) = endsQuoted quote ('\\' :: ds) := by
  induction h with
  | nil => exact ⟨rfl, rfl⟩
  | char hc h ih =>
    rename_i c cs ds
    refine ⟨?_, ih.1⟩
    by_cases hback : c = '\\'
    · subst hback
      exact ih.2
    · rw [endsQuoted_plain hback, endsQuoted_plain hback, h.isEmpty_eq, ih.1]
  | run hv hw hne hne' h ih =>
    rename_i v w cs ds
    obtain ⟨c, v, rfl⟩ := exists_cons_of_ne_nil hne
    obtain ⟨d, w, rfl⟩ := exists_cons_of_ne_nil hne'
    refine ⟨?_, ?_⟩
    · rw [endsQuoted_spaces hq hv, endsQuoted_spaces hq hw, ih.1]
    · have hv' := (spaces_cons.1 hv).2
      have hw' := (spaces_cons.1 hw).2
      calc endsQuoted quote ('\\' :: (c :: v ++ cs))
          = endsQuoted quote (v ++ cs) := rfl
        _ = endsQuoted quote (w ++ ds) := by rw [endsQuoted_spaces hq hv', endsQuoted_spaces hq hw', ih.1]
        _ = endsQuoted quote ('\\' :: (d :: w ++ ds)) := rfl

lemma endsBlock_plain (h : c ≠ '*') (cs : List Char) : endsBlock (c :: cs) = endsBlock cs := by
  rw [endsBlock]
  rintro ds rfl
  exact absurd rfl h

lemma endsBlock_star (h : c ≠ '/') (cs : List Char) : endsBlock ('*' :: c :: cs) = endsBlock (c :: cs) := by
  rw [endsBlock]
  intro ds _ heq
  exact absurd (cons.inj heq).1 h

lemma endsBlock_spaces (hw : Spaces w) (cs : List Char) : endsBlock (w ++ cs) = endsBlock cs := by
  induction w with
  | nil => rfl
  | cons c w ih =>
    obtain ⟨hc, hw⟩ := spaces_cons.1 hw
    have hne : c ≠ '*' := by
      rintro rfl
      cases hc
    rw [cons_append, endsBlock_plain hne, ih hw]

lemma Alike.endsBlock_both (h : Alike cs ds) :
    endsBlock cs = endsBlock ds ∧ endsBlock ('*' :: cs) = endsBlock ('*' :: ds) := by
  induction h with
  | nil => exact ⟨rfl, rfl⟩
  | char hc h ih =>
    rename_i c cs ds
    have hfirst : endsBlock (c :: cs) = endsBlock (c :: ds) := by
      by_cases hstar : c = '*'
      · subst hstar
        exact ih.2
      · rw [endsBlock_plain hstar, endsBlock_plain hstar, ih.1]
    refine ⟨hfirst, ?_⟩
    by_cases hslash : c = '/'
    · subst hslash
      rw [endsBlock, endsBlock, h.isEmpty_eq]
    · rw [endsBlock_star hslash, endsBlock_star hslash, hfirst]
  | run hv hw hne hne' h ih =>
    rename_i v w cs ds
    have hfirst : endsBlock (v ++ cs) = endsBlock (w ++ ds) := by rw [endsBlock_spaces hv, endsBlock_spaces hw, ih.1]
    refine ⟨hfirst, ?_⟩
    obtain ⟨c, v, rfl⟩ := exists_cons_of_ne_nil hne
    obtain ⟨d, w, rfl⟩ := exists_cons_of_ne_nil hne'
    have hslash {c : Char} (hc : isSpace c) : c ≠ '/' := by
      rintro rfl
      cases hc
    rw [cons_append, cons_append, endsBlock_star (hslash (spaces_cons.1 hv).1),
      endsBlock_star (hslash (spaces_cons.1 hw).1)]
    exact hfirst

/-! ## Changing runs -/

def respace (f : List Char → List Char) (pending : List Char) : List Char → List Char
  | [] => f pending
  | c :: cs => if isSpace c then respace f (pending ++ [c]) cs else f pending ++ c :: respace f [] cs

structure RunChange (f : List Char → List Char) : Prop where
  nil : f [] = []
  spaces : ∀ w, w ≠ [] → Spaces w → f w ≠ [] ∧ Spaces (f w)
  oneLine : ∀ w, '\n' ∉ w → f w = w
  reuses : ∀ w, Reuses w (f w)

section Respace
variable {f : List Char → List Char}
variable {pending : List Char}

lemma respace_char (hc : isSpace c = false) (pending cs : List Char) :
    respace f pending (c :: cs) = f pending ++ c :: respace f [] cs := by
  rw [respace, hc]
  rfl

lemma respace_spaces (hw : Spaces w) (pending cs : List Char) :
    respace f pending (w ++ cs) = respace f (pending ++ w) cs := by
  induction w generalizing pending with
  | nil => rw [nil_append, append_nil]
  | cons c w ih =>
    obtain ⟨hc, hw⟩ := spaces_cons.1 hw
    rw [cons_append, respace, if_pos hc, ih hw, append_assoc, singleton_append]

variable (hf : RunChange f)

include hf

lemma RunChange.respace_append (hc : isSpace c = false) (pending cs rest : List Char) :
    respace f pending (cs ++ c :: rest) = respace f pending (cs ++ [c]) ++ respace f [] rest := by
  induction cs generalizing pending with
  | nil => rw [nil_append, respace_char hc, nil_append, respace_char hc, respace, hf.nil, append_assoc,
      singleton_append]
  | cons d cs ih =>
    by_cases hd : isSpace d
    · rw [cons_append, respace, if_pos hd, ih, cons_append, respace, if_pos hd]
    · rw [cons_append, respace, if_neg hd, ih, cons_append, respace, if_neg hd, append_assoc, cons_append]

lemma RunChange.respace_lead (hw : Spaces w) (hc : isSpace c = false) (cs : List Char) :
    respace f [] (w ++ c :: cs) = f w ++ respace f [] (c :: cs) := by
  rw [respace_spaces hw, nil_append, respace_char hc, respace_char hc, hf.nil, nil_append]

lemma RunChange.alike (hpending : Spaces pending) (cs : List Char) :
    Alike (pending ++ cs) (respace f pending cs) := by
  induction cs generalizing pending with
  | nil =>
    rw [respace, append_nil]
    by_cases hne : pending = []
    · rw [hne, hf.nil]
      exact .nil
    · obtain ⟨hne', hspaces⟩ := hf.spaces pending hne hpending
      have hrun := Alike.run hpending hspaces hne hne' .nil
      rwa [append_nil, append_nil] at hrun
  | cons c cs ih =>
    by_cases hc : isSpace c
    · have := ih (spaces_append.2 ⟨hpending, spaces_cons.2 ⟨hc, spaces_nil⟩⟩)
      rwa [append_assoc, singleton_append, ← respace_spaces (spaces_cons.2 ⟨hc, spaces_nil⟩)] at this
    · rw [Bool.not_eq_true] at hc
      have hrest := ih spaces_nil
      rw [respace_char hc]
      by_cases hne : pending = []
      · rw [hne, hf.nil]
        exact .char hc hrest
      · obtain ⟨hne', hspaces⟩ := hf.spaces pending hne hpending
        exact .run hpending hspaces hne hne' (.char hc hrest)

lemma RunChange.reuses_respace (pending cs : List Char) : Reuses (pending ++ cs) (respace f pending cs) := by
  induction cs generalizing pending with
  | nil =>
    rw [respace, append_nil]
    exact hf.reuses pending
  | cons c cs ih =>
    rw [respace]
    split
    · have := ih (pending ++ [c])
      rwa [append_assoc, singleton_append] at this
    · exact (hf.reuses pending).append (Reuses.append (Reuses.refl [c]) (ih []))

lemma RunChange.respace_oneLine (hpending : '\n' ∉ pending) (hcs : '\n' ∉ cs) :
    respace f pending cs = pending ++ cs := by
  induction cs generalizing pending with
  | nil => rw [respace, hf.oneLine pending hpending, append_nil]
  | cons c cs ih =>
    rw [mem_cons, not_or] at hcs
    rw [respace]
    split
    · rw [ih (by simpa using ⟨hpending, hcs.1⟩) hcs.2, append_assoc, singleton_append]
    · rw [hf.oneLine pending hpending, ih (by simp) hcs.2, nil_append]

lemma RunChange.respace_respace (hidem : ∀ w, f (f w) = f w) (hpending : Spaces pending) (cs : List Char) :
    respace f [] (respace f pending cs) = respace f pending cs := by
  have hspaces {w : List Char} (hw : Spaces w) : Spaces (f w) := by
    by_cases hne : w = []
    · rw [hne, hf.nil]
      exact spaces_nil
    · exact (hf.spaces w hne hw).2
  induction cs generalizing pending with
  | nil =>
    have hrun := respace_spaces (f := f) (hspaces hpending) [] []
    rw [append_nil, nil_append, respace, hidem] at hrun
    rw [respace, hrun]
  | cons c cs ih =>
    by_cases hc : isSpace c
    · rw [respace, if_pos hc]
      exact ih (spaces_append.2 ⟨hpending, spaces_cons.2 ⟨hc, spaces_nil⟩⟩)
    · rw [Bool.not_eq_true] at hc
      rw [respace_char hc, respace_spaces (hspaces hpending), nil_append, respace_char hc, hidem, ih spaces_nil]

end Respace

end DeviceForge.Text
