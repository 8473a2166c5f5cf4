import DeviceForge.Proofs.Code.Nesting
import DeviceForge.Proofs.Iteration.Layout
/-!
# Declarations of local variables

`Declares` is the grammar of declarations on tokens, whatever stands between the tokens. The variables that are found in
code of this form are the declared ones, in their order (`all_declares`).
-/

namespace DeviceForge.Declarator

open List Code Token

/-! ## The grammar -/

/-- The brackets of `stack` and those that tokens open are closed, each by one of its kind, and no comma or semicolon stands
outside of them. -/
def closes (stack : List Bracket) : List Token → Bool
  | [] => stack.isEmpty
  | t :: ts => (!stack.isEmpty || t.text ∉ [",", ";"]) && (nestBehind stack t).any (closes · ts)

def realWords : List String :=
  ["double", "float"]

def integerWords : List String :=
  ["int", "long", "short", "unsigned"]

/-- The words of a type. -/
inductive TypeWords : LocalType → List Token → Prop
  | real {t : Token} (h : t.text ∈ realWords) : TypeWords .real [t]
  | integer {t : Token} {ts : List Token} (h : ∀ u ∈ t :: ts, u.text ∈ integerWords) : TypeWords .integer (t :: ts)

/-- The name of a variable behind stars, and what follows the name, such as bounds and an initializer. -/
structure Item (stars : List Token) (name : Token) (tail : List Token) : Prop where
  stars : ∀ t ∈ stars, t.text = "*"
  identifier : name.kind = .identifier
  word : Token.isIdentifierText name.text = true
  noType : name.text ∉ realWords ++ integerWords
  tail : closes [] tail = true

/-- Variables between commas, up to the semicolon behind them. -/
inductive Items : List Token → List String → Prop
  | last {stars tail : List Token} {name semicolon : Token} (h : Item stars name tail) (hsemicolon : semicolon.text = ";") :
      Items (stars ++ name :: (tail ++ [semicolon])) [name.text]
  | more {stars tail ts : List Token} {name comma : Token} {words : List String} (h : Item stars name tail)
      (hcomma : comma.text = ",") (hmore : Items ts words) : Items (stars ++ name :: (tail ++ comma :: ts)) (name.text :: words)

/-- Statements that declare variables. -/
inductive Declares : List Token → List Declarator → Prop
  | nil : Declares [] []
  | statement {marks types ts rest : List Token} {type : LocalType} {words : List String} {found : List Declarator}
      (hmarks : ∀ t ∈ marks, t.text ∈ qualifiers) (htypes : TypeWords type types) (hitems : Items ts words)
      (hrest : Declares rest found) : Declares (marks ++ types ++ ts ++ rest) (words.map (⟨·, type⟩) ++ found)

variable {t next comma semicolon name : Token} {ts us rest stars tail marks types : List Token} {found : List Declarator}
  {words : List String} {type : LocalType} {b : Bracket} {stack : List Bracket}

/-! ## What follows a name -/

lemma isOpening_of_text (h : t.text = b.opening.toString) : t.isOpening := by
  cases b <;> simp [isOpening, h, Bracket.opening, Char.toString]

lemma isClosing_of_text (h : t.text = b.closing.toString) : t.isOpening = false ∧ t.isClosing := by
  cases b <;> simp [isOpening, isClosing, h, Bracket.closing, Char.toString]

lemma not_bracket_of_flat (h : IsFlat t) : t.isOpening = false ∧ t.isClosing = false := by
  have hopening (b : Bracket) : t.text ≠ b.opening.toString := by
    rw [Ne, ← opened?_eq_some_iff, h.1]
    simp
  have hclosing (b : Bracket) : t.text ≠ b.closing.toString := by
    rw [Ne, ← closed?_eq_some_iff, h.2]
    simp
  simp only [isOpening, isClosing, Bool.or_eq_false_iff, decide_eq_false_iff_not]
  exact ⟨⟨⟨hopening .round, hopening .square⟩, hopening .curly⟩, ⟨hclosing .round, hclosing .square⟩, hclosing .curly⟩

lemma extent_closes (h : closes stack ts) (hnext : next.text = "," ∨ next.text = ";") (rest : List Token) :
    extent stack.length (ts ++ next :: rest) = ts.length := by
  induction ts generalizing stack with
  | nil =>
    obtain rfl : stack = [] := isEmpty_iff.1 h
    rcases hnext with hnext | hnext <;> simp [extent, isOpening, isClosing, hnext]
  | cons t ts ih =>
    simp only [closes, Bool.and_eq_true, Option.any_eq_true] at h
    obtain ⟨hpass, mid, ht, hts⟩ := h
    have hbehind := ih hts
    rw [cons_append, extent, length_cons]
    rcases nestBehind_eq_some_iff.1 ht with ⟨b, hb, rfl⟩ | ⟨b, hb, rfl⟩ | ⟨hflat, rfl⟩
    · rw [length_cons] at hbehind
      rw [if_pos (isOpening_of_text hb), hbehind, Nat.add_comm]
    · obtain ⟨hopening, hclosing⟩ := isClosing_of_text hb
      rw [if_neg (by simp [hopening]), if_pos hclosing, if_neg (by simp), length_cons, Nat.add_sub_cancel, hbehind, Nat.add_comm]
    · obtain ⟨hopening, hclosing⟩ := not_bracket_of_flat hflat
      rw [if_neg (by simp [hopening]), if_neg (by simp [hclosing]), if_neg, hbehind, Nat.add_comm]
      -- outside of brackets the token is no separator
      cases mid with
      | nil => simpa using hpass
      | cons b mid => simp

/-! ## The names of a statement -/

lemma Item.names_first (h : Item stars name tail) (hnext : next.text = "," ∨ next.text = ";") (rest : List Token) :
    names (stars ++ name :: (tail ++ next :: rest)) =
      if next.text = "," then (name.text :: (names rest).1, (names rest).2) else ([name.text], next :: rest) := by
  have hname : name.text ≠ "*" := fun hstar => absurd h.word (by rw [hstar]; decide)
  have hdrop : (stars ++ name :: (tail ++ next :: rest)).dropWhile (·.text = "*") = name :: (tail ++ next :: rest) := by
    rw [dropWhile_append_of_pos (by simpa using h.stars), dropWhile_cons_of_neg (by simpa using hname)]
  have hbehind : (tail ++ next :: rest).drop (extent 0 (tail ++ next :: rest)) = next :: rest := by
    rw [show extent 0 _ = _ from extent_closes h.tail hnext rest, drop_left]
  rw [names_eq, hdrop]
  simp [isIdentifier, h.identifier, hbehind]

lemma Items.exists_semicolon (h : Items ts words) :
    ∃ us semicolon, ts = us ++ [semicolon] ∧ semicolon.text = ";" ∧ ∀ rest, names (ts ++ rest) = (words, semicolon :: rest) := by
  induction h with
  | @last stars tail name semicolon h hsemicolon =>
    refine ⟨stars ++ name :: tail, semicolon, by simp, hsemicolon, fun rest => ?_⟩
    have hnames := h.names_first (.inr hsemicolon) rest
    rw [if_neg (by simp [hsemicolon])] at hnames
    simpa using hnames
  | @more stars tail ts name comma words h hcomma hmore ih =>
    obtain ⟨us, semicolon, rfl, hsemicolon, hnames⟩ := ih
    refine ⟨stars ++ name :: (tail ++ comma :: us), semicolon, by simp, hsemicolon, fun rest => ?_⟩
    have hfirst := h.names_first (.inl hcomma) (us ++ [semicolon] ++ rest)
    rw [if_pos hcomma, hnames rest] at hfirst
    simpa using hfirst

/-! ## Statements -/

lemma ofWord?_real : ∀ w ∈ realWords, LocalType.ofWord? w = some .real ∧ w ∉ qualifiers := by
  decide

lemma ofWord?_integer : ∀ w ∈ integerWords, LocalType.ofWord? w = some .integer ∧ w ∉ qualifiers := by
  decide

lemma ofWord?_none {w : String} (h : w ∉ realWords ++ integerWords) : LocalType.ofWord? w = none := by
  unfold LocalType.ofWord?
  split <;> simp_all [realWords, integerWords]

lemma TypeWords.exists_first (h : TypeWords type types) :
    ∃ t us, types = t :: us ∧ LocalType.ofWord? t.text = some type ∧ t.text ∉ qualifiers ∧
      ∀ u ∈ us, (LocalType.ofWord? u.text).isSome := by
  cases h with
  | real h => exact ⟨_, [], rfl, (ofWord?_real _ h).1, (ofWord?_real _ h).2, by simp⟩
  | integer h =>
    obtain ⟨hfirst, hmore⟩ := forall_mem_cons.1 h
    exact ⟨_, _, rfl, (ofWord?_integer _ hfirst).1, (ofWord?_integer _ hfirst).2, fun u hu => by
      rw [(ofWord?_integer _ (hmore u hu)).1]
      rfl⟩

lemma Item.exists_first (h : Item stars name tail) (rest : List Token) :
    ∃ t us, stars ++ name :: rest = t :: us ∧ LocalType.ofWord? t.text = none := by
  have hname := ofWord?_none h.noType
  have hstars := h.stars
  cases stars with
  | nil => exact ⟨name, rest, rfl, hname⟩
  | cons t stars => exact ⟨t, _, rfl, by rw [hstars t mem_cons_self]; decide⟩

lemma Items.exists_first (h : Items ts words) : ∃ t us, ts = t :: us ∧ LocalType.ofWord? t.text = none := by
  cases h with
  | last h hsemicolon => exact h.exists_first _
  | more h hcomma hmore => exact h.exists_first _

lemma statement?_eq (hmarks : ∀ t ∈ marks, t.text ∈ qualifiers) (htypes : TypeWords type types) (hitems : Items ts words)
    (rest : List Token) :
    ∃ us semicolon, ts = us ++ [semicolon] ∧ semicolon.text = ";" ∧
      statement? (marks ++ types ++ ts ++ rest) = some (words.map (⟨·, type⟩), (marks ++ types ++ us).length) := by
  obtain ⟨t, more, rfl, htype, hmark, hmore⟩ := htypes.exists_first
  obtain ⟨first, behind, hfirst, hnone⟩ := hitems.exists_first
  obtain ⟨us, semicolon, hts, hsemicolon, hnames⟩ := hitems.exists_semicolon
  refine ⟨us, semicolon, hts, hsemicolon, ?_⟩
  have hdrop : (marks ++ t :: more ++ ts ++ rest).dropWhile (fun t => qualifiers.contains t.text) = t :: (more ++ (ts ++ rest)) := by
    rw [List.append_assoc, List.append_assoc, dropWhile_append_of_pos (by simpa using hmarks), cons_append,
      dropWhile_cons_of_neg (by simpa using hmark)]
  have hdrop' : (more ++ (ts ++ rest)).dropWhile (fun t => (LocalType.ofWord? t.text).isSome) = ts ++ rest := by
    rw [dropWhile_append_of_pos hmore, hfirst, cons_append, dropWhile_cons_of_neg (by simp [hnone])]
  have hlength : (marks ++ t :: more ++ ts ++ rest).length - (semicolon :: rest).length = (marks ++ t :: more ++ us).length := by
    rw [hts]
    simp
    omega
  rw [statement?, hdrop]
  dsimp only
  rw [htype, hdrop', hnames rest, hlength]
  rfl

lemma scan_skip (us : List Token) (previous : Option Token) (rest : List Token) :
    ∃ last, scan us.length previous (us ++ rest) = scan 0 last rest := by
  induction us generalizing previous with
  | nil => exact ⟨previous, rfl⟩
  | cons u us ih =>
    obtain ⟨last, hlast⟩ := ih (some u)
    exact ⟨last, hlast⟩

lemma scan_semicolon (h : semicolon.text = ";") (previous : Option Token) (rest : List Token) :
    scan 0 previous (semicolon :: rest) = scan 0 (some semicolon) rest := by
  have hnone : statement? (semicolon :: rest) = none := by
    rw [statement?, dropWhile_cons_of_neg (by rw [h]; decide)]
    dsimp only
    rw [h]
    rfl
  rw [scan, hnone, ite_self]

lemma scan_declares {previous : Option Token} (h : Declares ts found) (hprevious : startsBehind previous) :
    scan 0 previous ts = found := by
  induction h generalizing previous with
  | nil => rfl
  | @statement marks types ts rest type words found hmarks htypes hitems hrest ih =>
    obtain ⟨us, semicolon, rfl, hsemicolon, hstatement⟩ := statement?_eq hmarks htypes hitems rest
    obtain ⟨t, more, rfl, -⟩ := htypes.exists_first
    obtain ⟨first, body, hbody⟩ : ∃ first body, marks ++ t :: more ++ us = first :: body :=
      exists_cons_of_ne_nil (by simp)
    have htokens : marks ++ t :: more ++ (us ++ [semicolon]) ++ rest = first :: (body ++ semicolon :: rest) := by
      rw [← List.append_assoc, hbody]
      simp
    obtain ⟨last, hlast⟩ := scan_skip body (some first) (semicolon :: rest)
    rw [htokens] at hstatement ⊢
    rw [scan, if_pos hprevious, hstatement]
    dsimp only
    rw [hbody, length_cons, Nat.add_sub_cancel, hlast, scan_semicolon hsemicolon, ih (by simp [startsBehind, hsemicolon])]

/-- The variables that are found in statements that declare variables are the declared ones, in their order, and the type of
a variable is that of its first declaration: before the loops, in the model code or in the device code. -/
theorem all_declares {loops : Loops} {before model device : List Declarator}
    (hbefore : Declares (Code.ofString loops.definition).tokens before)
    (hmodel : Declares (Code.ofString loops.modelCode).tokens model)
    (hdevice : Declares (Code.ofString loops.deviceCode).tokens device) :
    all loops.definition = before ∧ all loops.modelCode = model ∧ all loops.deviceCode = device ∧
      ∀ name, loops.typeOf? name = ((before ++ model ++ device).find? (·.name = name)).map (·.type) := by
  have hall : all loops.definition = before := scan_declares hbefore rfl
  have hall' : all loops.modelCode = model := scan_declares hmodel rfl
  have hall'' : all loops.deviceCode = device := scan_declares hdevice rfl
  refine ⟨hall, hall', hall'', fun name => ?_⟩
  rw [Loops.typeOf?, findSome?_cons, findSome?_cons, findSome?_cons, findSome?_nil, hall, hall', hall'', find?_append, find?_append]
  cases before.find? (·.name = name) <;> cases model.find? (·.name = name) <;> cases device.find? (·.name = name) <;> rfl

def declaringLoops : Loops :=
  ⟨"static int *a[n];", "double a;", "", "model", "here", "ckt", []⟩

theorem all_declares_bounds :
    all declaringLoops.definition = [⟨"a", .integer⟩] ∧ declaringLoops.typeOf? "a" = some .integer ∧
      declaringLoops.typeOf? "n" = none := by
  have hbefore : Declares (Code.ofString declaringLoops.definition).tokens (["a"].map (⟨·, .integer⟩) ++ []) := by
    have htokens : (Code.ofString declaringLoops.definition).tokens = [⟨.identifier, "", "static"⟩] ++ [⟨.identifier, " ", "int"⟩] ++
        ([⟨.punct, " ", "*"⟩] ++ ⟨.identifier, "", "a"⟩ :: (⟨.punct, "", "["⟩ :: ([⟨.identifier, "", "n"⟩] ++
          [⟨.punct, "", "]"⟩]) ++ [⟨.punct, "", ";"⟩])) ++ [] := by decide +kernel
    rw [htokens]
    exact .statement (by decide) (.integer (by decide))
      (.last ⟨by decide, rfl, by decide, by decide, by decide⟩ rfl) .nil
  have hmodel : Declares (Code.ofString declaringLoops.modelCode).tokens (["a"].map (⟨·, .real⟩) ++ []) := by
    have htokens : (Code.ofString declaringLoops.modelCode).tokens =
        [] ++ [⟨.identifier, "", "double"⟩] ++ ([] ++ ⟨.identifier, " ", "a"⟩ :: ([] ++ [⟨.punct, "", ";"⟩])) ++ [] := by decide +kernel
    rw [htokens]
    exact .statement (by simp) (.real (by decide)) (.last ⟨by simp, rfl, by decide, by decide, rfl⟩ rfl) .nil
  have hdevice : (Code.ofString declaringLoops.deviceCode).tokens = [] := by decide +kernel
  obtain ⟨hall, -, -, htype⟩ := all_declares hbefore hmodel (hdevice ▸ Declares.nil)
  exact ⟨hall, htype "a", htype "n"⟩

end DeviceForge.Declarator
