import DeviceForge.Proofs.Code.Append
import DeviceForge.Pattern
/-!
# Rewriting words

Much of what patterns replace are words, alone or with a parenthesis or a field behind them, and dotted names come in
their place.
-/

namespace DeviceForge

open List Option String

/-- What stands behind a word: the parenthesis of a call, an arrow and a field, or something else. -/
inductive Follow where
  | call
  | arrow (field : String)
  | other
  deriving DecidableEq

def Follow.of : List Token → Follow
  | [] => .other
  | t :: ts =>
    if t.text = "(" then .call
    else if t.text = "->" then
      match ts with
      | u :: _ => if u.isIdentifier then .arrow u.text else .other
      | [] => .other
    else .other

/-- What a rule puts in the place of a word alone, of a word and the parenthesis behind it, or of a word and the field
that it reaches: a dotted name. -/
inductive Change where
  | word (name : List String)
  | call (name : List String)
  | field (name : List String)
  deriving DecidableEq

namespace Change

def name : Change → List String
  | .word name | .call name | .field name => name

def skipped : Change → Nat
  | .word _ => 0
  | .call _ => 1
  | .field _ => 2

def dotted (lead : String) : List String → List Token
  | [] => []
  | [w] => [⟨.identifier, lead, w⟩]
  | w :: ws => ⟨.identifier, lead, w⟩ :: ⟨.punct, "", "."⟩ :: dotted "" ws

lemma dotted_cons (lead w u : String) (us : List String) :
    dotted lead (w :: u :: us) = ⟨.identifier, lead, w⟩ :: ⟨.punct, "", "."⟩ :: dotted "" (u :: us) :=
  rfl

/-- The tokens that come in. -/
def tokens (lead : String) : Change → List Token
  | .word name | .field name => dotted lead name
  | .call name => dotted lead name ++ [⟨.punct, "", "("⟩]

def Fits (c : Change) (behind : Follow) : Prop :=
  (c.name ≠ [] ∧ ∀ w ∈ c.name, Token.isIdentifierText w = true) ∧
    match c with
    | .word _ => True
    | .call _ => behind = .call
    | .field _ => ∃ f, behind = .arrow f

end Change

/-- How words change: by whether they are members, by their text and by what stands behind them. -/
def WordRule :=
  Bool → String → Follow → Option Change

namespace WordRule

variable {r : WordRule} {member : Bool} {t : Token} {ts : List Token} {c : Change}

def change? (r : WordRule) (member : Bool) (t : Token) (ts : List Token) : Option Change :=
  if t.isIdentifier then r member t.text (.of ts) else none

/-- Rewrites tokens in one pass, of which the first `skip` have been rewritten already. -/
def rewriteFrom (r : WordRule) : Nat → Bool → List Token → List Token
  | _, _, [] => []
  | skip + 1, _, _ :: ts => rewriteFrom r skip false ts
  | 0, member, t :: ts =>
    match r.change? member t ts with
    | some c => c.tokens t.lead ++ rewriteFrom r c.skipped false ts
    | none => t :: rewriteFrom r 0 t.reachesMember ts

def rewrite (r : WordRule) (ts : List Token) : List Token :=
  r.rewriteFrom 0 false ts

def Valid (r : WordRule) : Prop :=
  ∀ member w behind c, (∀ f, behind = .arrow f → Token.isIdentifierText f = true) → r member w behind = some c → c.Fits behind

lemma rewriteFrom_drop (r : WordRule) (n : Nat) (ts : List Token) :
    r.rewriteFrom n false ts = r.rewriteFrom 0 false (ts.drop n) := by
  induction n generalizing ts with
  | zero => rfl
  | succ n ih =>
    cases ts with
    | nil => cases n <;> rfl
    | cons t ts => exact ih ts

lemma rewriteFrom_keep (h : r.change? member t ts = none) :
    r.rewriteFrom 0 member (t :: ts) = t :: r.rewriteFrom 0 t.reachesMember ts := by
  rw [rewriteFrom, h]

lemma rewriteFrom_change (h : r.change? member t ts = some c) :
    r.rewriteFrom 0 member (t :: ts) = c.tokens t.lead ++ r.rewriteFrom 0 false (ts.drop c.skipped) := by
  rw [rewriteFrom, h, ← rewriteFrom_drop]

lemma isIdentifier_of_change? (h : r.change? member t ts = some c) :
    t.isIdentifier ∧ r member t.text (.of ts) = some c := by
  unfold change? at h
  split at h
  · rename_i hid
    exact ⟨hid, h⟩
  · cases h

end WordRule

/-! ## Reading what has been rewritten -/

namespace Code

lemma Opens.isIdentifierText {ts : List Token} {rest : String} (h : Opens ts rest) {t : Token} (ht : t ∈ ts)
    (hid : t.isIdentifier) : Token.isIdentifierText t.text := by
  obtain ⟨cs, hreads⟩ := h.reads t ht
  exact Token.isIdentifierText_of_reads hreads (by simpa [Token.isIdentifier] using hid)

lemma opens_drop {ts : List Token} {rest : String} (h : Opens ts rest) (n : Nat) : Opens (ts.drop n) rest := by
  rw [← take_append_drop n ts, opens_append] at h
  exact h.2

end Code

namespace Follow

lemma of_cons (t : Token) (ts : List Token) : of (t :: ts) =
      if t.text = "(" then .call
      else if t.text = "->" then ts.head?.elim .other fun u => if u.isIdentifier then .arrow u.text else .other
      else .other := by
  cases ts <;> rfl

lemma of_eq_call {ts : List Token} (h : of ts = .call) : ∃ t us, ts = t :: us ∧ t.text = "(" := by
  revert h
  fun_cases of ts with
  | case2 t us hparen => exact fun _ => ⟨t, us, rfl, hparen⟩
  | case1 | case3 | case4 | case5 | case6 => exact (nomatch ·)

lemma of_eq_arrow {ts : List Token} {f : String} (h : of ts = .arrow f) :
    ∃ t u us, ts = t :: u :: us ∧ t.text = "->" ∧ u.isIdentifier ∧ u.text = f := by
  revert h
  fun_cases of ts with
  | case3 t _ harrow u us hid => exact fun h => ⟨t, u, us, rfl, harrow, hid, Follow.arrow.inj h⟩
  | case1 | case2 | case4 | case5 | case6 => exact (nomatch ·)

lemma isIdentifierText_of_arrow {ts : List Token} {rest : String} (h : Code.Opens ts rest) {f : String} (hf : of ts = .arrow f) :
    Token.isIdentifierText f := by
  obtain ⟨t, u, us, rfl, -, hid, rfl⟩ := of_eq_arrow hf
  exact h.isIdentifierText (mem_cons_of_mem _ mem_cons_self) hid

end Follow

namespace Token

def StartAlike (ys zs : List Char) : Prop :=
  ys.head? = zs.head? ∨
    ∃ c d, ys.head? = some c ∧ zs.head? = some d ∧ (c.isAlpha || c = '_') = true ∧ (d.isAlpha || d = '_') = true

lemma StartAlike.point {ys zs : List Char} (h : StartAlike ys zs) (hpoint : zs.head? = some '.') : ys.head? = some '.' := by
  rcases h with h | ⟨c, d, -, hd, -, hletter⟩
  · rw [h, hpoint]
  · obtain rfl : '.' = d := by simpa [hpoint] using hd
    cases hletter

lemma points_append {cs ys zs : List Char} (hne : cs ≠ []) (hpoint : zs.head? = some '.' → ys.head? = some '.')
    (h : (cs ++ zs).take 2 = ['.', '.']) : (cs ++ ys).take 2 = ['.', '.'] := by
  match cs with
  | [c] =>
    simp only [cons_append, nil_append, take_succ_cons, take_one, cons.injEq] at h ⊢
    refine ⟨h.1, ?_⟩
    rw [hpoint (by cases hz : zs.head? <;> simp_all)]
    rfl
  | c :: d :: cs => exact h

lemma wordChar_of_letter {c : Char} (h : (c.isAlpha || c = '_')) : Text.isWordChar c := by
  simp only [Bool.or_eq_true, decide_eq_true_eq] at h
  rcases h with h | rfl
  · simp [Text.isWordChar, Char.isAlphanum, h]
  · decide

lemma reads_startAlike {t : Token} {ys zs : List Char} (h : Reads t ys) (hcomment : t.isComment = false) (hempty : ys = [] → zs = [])
    (halike : StartAlike ys zs) (hpoints : zs.take 2 = ['.', '.'] → ys.take 2 = ['.', '.']) : Reads t zs := by
  by_cases hcode : t.kind.segment = .code
  · rcases halike with hhead | ⟨c, d, hc, hd, hletter, hletter'⟩
    · exact reads_of_follows h hcode (.inr ⟨hhead.symm, hpoints⟩)
    · have hpunct : t.kind = .punct := by
        by_contra hne
        have hkind : t.kind = .identifier ∨ t.kind = .number := by
          revert hcode hne
          cases t.kind <;> simp [Kind.segment]
        have hword := not_wordChar_behind h hkind c hc
        simp [wordChar_of_letter hletter] at hword
      obtain ⟨zs, rfl⟩ := head?_eq_some_iff.1 hd
      exact reads_letter h hpunct hletter' zs
  · by_cases hys : ys = []
    · rw [hempty hys, ← hys]
      exact h
    · have hclosed := isClosed_of_reads h hys
      exact reads_of_isClosed h hclosed hcode (not_isLineComment (by simpa [isComment] using hcomment)) zs

end Token

namespace Change

open Code

lemma spell_dotted (lead w : String) (ws : List String) : ∃ more, spell (dotted lead (w :: ws)) = lead ++ (w ++ more) := by
  cases ws with
  | nil => exact ⟨"", by simp [dotted, spell_cons, spell_nil]⟩
  | cons u us => exact ⟨"." ++ spell (dotted "" (u :: us)), by simp [dotted, spell_cons]⟩

lemma spell_tokens {c : Change} {behind : Follow} (h : c.Fits behind) (lead : String) :
    ∃ w more, Token.isIdentifierText w ∧ spell (c.tokens lead) = lead ++ (w ++ more) := by
  obtain ⟨⟨hne, hall⟩, -⟩ := h
  cases c with
  | word name | field name =>
    obtain ⟨w, ws, rfl⟩ := exists_cons_of_ne_nil hne
    obtain ⟨more, hmore⟩ := spell_dotted lead w ws
    exact ⟨w, more, hall w mem_cons_self, hmore⟩
  | call name =>
    obtain ⟨w, ws, rfl⟩ := exists_cons_of_ne_nil hne
    obtain ⟨more, hmore⟩ := spell_dotted lead w ws
    refine ⟨w, more ++ "(", hall w mem_cons_self, ?_⟩
    rw [tokens, spell_append, hmore]
    simp [spell_cons, spell_nil, String.append_assoc]

lemma opens_dotted {lead : String} (hlead : Trivia lead) {name : List String} (hname : ∀ w ∈ name, Token.isIdentifierText w)
    {rest : String} (hrest : ∀ c ∈ rest.toList.head?, Text.isWordChar c = false) : Opens (dotted lead name) rest := by
  match name with
  | [] => trivial
  | [w] =>
    refine ⟨hlead, rfl, ?_, trivial⟩
    rw [spell_nil, empty_append]
    exact Token.reads_identifier rfl (hname w mem_cons_self) hrest
  | w :: u :: us =>
    have hu := hname u (mem_cons_of_mem _ mem_cons_self)
    obtain ⟨d, ds, hds, hd⟩ := Token.exists_letter hu
    obtain ⟨more, hmore⟩ := spell_dotted "" u us
    refine ⟨hlead, rfl, ?_, trivia_empty, rfl, ?_, ?_⟩
    · refine Token.reads_identifier rfl (hname w mem_cons_self) fun c hc => ?_
      obtain rfl : '.' = c := by simpa [spell_cons] using hc
      decide
    · have hpoint : Token.Reads ⟨.punct, "", "."⟩ [] := Token.reads_of_isLexeme (by decide)
      have := Token.reads_letter hpoint rfl hd (ds ++ more.toList ++ rest.toList)
      simpa [hmore, hds] using this
    · exact opens_dotted trivia_empty (fun v hv => hname v (mem_cons_of_mem _ hv)) hrest

end Change

namespace WordRule

open Code

variable {t : Token} {r f g : WordRule} {c : Change} {ts us : List Token} {rest : String}

section
variable {r : WordRule} (hr : r.Valid)

include hr

lemma Valid.fits {member : Bool} (h : Opens ts rest) (hc : r.change? member t ts = some c) : c.Fits (.of ts) :=
  hr _ _ _ c (fun _ hf => Follow.isIdentifierText_of_arrow h hf) (isIdentifier_of_change? hc).2

lemma Valid.startAlike (h : Opens ts rest) (member : Bool) :
    Token.StartAlike (spell ts ++ rest).toList (spell (r.rewriteFrom 0 member ts) ++ rest).toList := by
  cases ts with
  | nil => exact .inl rfl
  | cons t ts =>
    obtain ⟨d, ds, htext, -⟩ := h.2.2.1
    cases hchange : r.change? member t ts with
    | none =>
      rw [rewriteFrom_keep hchange]
      exact .inl (by simp [spell_cons, htext])
    | some c =>
      obtain ⟨w, more, hw, hspell⟩ := Change.spell_tokens (hr.fits h.2.2.2 hchange) t.lead
      obtain ⟨e, es, hes, hletter'⟩ := Token.exists_letter hw
      obtain ⟨d, ds, htext, hletter⟩ := Token.exists_letter (h.isIdentifierText mem_cons_self (isIdentifier_of_change? hchange).1)
      rw [rewriteFrom_change hchange, spell_append, hspell]
      cases hlead : t.lead.toList with
      | nil => exact .inr ⟨d, e, by simp [spell_cons, htext, hlead], by simp [hes, hlead], hletter, hletter'⟩
      | cons b bs => exact .inl (by simp [spell_cons, hlead])

lemma Valid.points (h : Opens ts rest) (member : Bool)
    (hpoints : (spell (r.rewriteFrom 0 member ts) ++ rest).toList.take 2 = ['.', '.']) :
    (spell ts ++ rest).toList.take 2 = ['.', '.'] := by
  cases ts with
  | nil => exact hpoints
  | cons t ts =>
    obtain ⟨d, ds, htext, -⟩ := h.2.2.1
    cases hchange : r.change? member t ts with
    | none =>
      have halike := (hr.startAlike h.2.2.2 t.reachesMember).point
      rw [rewriteFrom_keep hchange] at hpoints
      have hsplit (us : List Token) : (spell (t :: us) ++ rest).toList = t.lead.toList ++ t.text.toList ++ (spell us ++ rest).toList := by
        simp [spell_cons]
      rw [hsplit] at hpoints ⊢
      exact Token.points_append (by simp [htext]) halike hpoints
    | some c =>
      obtain ⟨w, more, hw, hspell⟩ := Change.spell_tokens (hr.fits h.2.2.2 hchange) t.lead
      obtain ⟨e, es, hes, hletter⟩ := Token.exists_letter hw
      have hne : e ≠ '.' := by
        rintro rfl
        cases hletter
      rw [rewriteFrom_change hchange, spell_append, hspell] at hpoints
      cases hlead : t.lead.toList with
      | nil => simp [hlead, hes, hne] at hpoints
      | cons b bs =>
        cases bs with
        | nil => simp [hlead, hes, hne] at hpoints
        | cons b' bs =>
          simp only [toList_append, hlead, cons_append, take_succ_cons, take_zero] at hpoints
          simp [spell_cons, hlead, hpoints]

lemma Valid.reads (h : Opens (t :: ts) rest) (member : Bool) :
    Token.Reads t (spell (r.rewriteFrom 0 member ts) ++ rest).toList := by
  obtain ⟨-, hcomment, hreads, hopens⟩ := h
  refine Token.reads_startAlike hreads hcomment (fun hnil => ?_) (hr.startAlike hopens member) (hr.points hopens member)
  cases ts with
  | nil => exact hnil
  | cons u us =>
    obtain ⟨d, ds, htext, -⟩ := hopens.2.2.1
    simp [spell_cons, htext] at hnil

lemma Valid.not_wordChar (h : Opens (t :: ts) rest) (hid : t.isIdentifier) (member : Bool) :
    ∀ c ∈ (spell (r.rewriteFrom 0 member ts) ++ rest).toList.head?, Text.isWordChar c = false := by
  have hword := Token.not_wordChar_behind h.2.2.1 (.inl (by simpa [Token.isIdentifier] using hid))
  intro c hc
  rcases hr.startAlike h.2.2.2 member with hhead | ⟨d, -, hd, -, hletter, -⟩
  · exact hword c (by rw [hhead]; exact hc)
  · have := hword d hd
    simp [Token.wordChar_of_letter hletter] at this

lemma Valid.opens_rewriteFrom (n : Nat) (member : Bool) (h : Opens ts rest) :
    Opens (r.rewriteFrom n member ts) rest := by
  induction ts generalizing n member with
  | nil => cases n <;> trivial
  | cons t ts ih =>
    cases n with
    | succ n => exact ih n false h.2.2.2
    | zero =>
      cases hchange : r.change? member t ts with
      | none =>
        rw [rewriteFrom_keep hchange]
        exact ⟨h.1, h.2.1, hr.reads h _, ih 0 _ h.2.2.2⟩
      | some c =>
        obtain ⟨hid, -⟩ := isIdentifier_of_change? hchange
        obtain ⟨⟨-, hname⟩, hplace⟩ := hr.fits h.2.2.2 hchange
        rw [rewriteFrom_change hchange, opens_append, ← rewriteFrom_drop]
        refine ⟨?_, ih _ _ h.2.2.2⟩
        cases c with
        | word name => exact Change.opens_dotted h.1 hname (hr.not_wordChar h hid false)
        | field name =>
          obtain ⟨f, hf⟩ := hplace
          obtain ⟨a, u, us, rfl, -, hu, -⟩ := Follow.of_eq_arrow hf
          exact Change.opens_dotted h.1 hname (hr.not_wordChar h.2.2.2.2.2.2 hu false)
        | call name =>
          refine opens_append.2 ⟨Change.opens_dotted h.1 hname fun c hc => ?_, trivia_empty, rfl, ?_, trivial⟩
          · obtain rfl : '(' = c := by simpa [spell_cons] using hc
            decide
          · exact ⟨'(', [], rfl, by decide, Token.extent_bracket (by decide) _⟩

end

/-! ## One pass after the other -/

lemma not_reachesMember (h : Token.isIdentifierText t.text) : t.reachesMember = false := by
  have harrow : t.text ≠ "->" := by
    intro htext
    rw [htext] at h
    cases h
  have hpoint : t.text ≠ "." := by
    intro htext
    rw [htext] at h
    cases h
  simp [Token.reachesMember, harrow, hpoint]

lemma follow_word (h : Token.isIdentifierText t.text) (ts : List Token) : Follow.of (t :: ts) = .other := by
  have hparen : t.text ≠ "(" := by
    intro htext
    rw [htext] at h
    cases h
  have harrow : t.text ≠ "->" := by
    intro htext
    rw [htext] at h
    cases h
  rw [Follow.of_cons, if_neg hparen, if_neg harrow]

lemma change?_punct (r : WordRule) (member : Bool) (lead text : String) (ts : List Token) :
    r.change? member ⟨.punct, lead, text⟩ ts = none :=
  rfl

def Spares (r : WordRule) : Bool → List String → Prop
  | _, [] => True
  | member, [w] => ∀ behind, r member w behind = none
  | member, w :: u :: us => r member w .other = none ∧ Spares r true (u :: us)

lemma spares_of_forall {member : Bool} {name : List String} (hhead : ∀ w ∈ name.head?, ∀ behind, r member w behind = none)
    (htail : ∀ u ∈ name.tail, ∀ behind, r true u behind = none) : r.Spares member name := by
  match name with
  | [] => trivial
  | [w] => exact hhead w rfl
  | w :: u :: us =>
    obtain ⟨hu, hus⟩ := forall_mem_cons.1 htail
    refine ⟨hhead w rfl .other, spares_of_forall ?_ hus⟩
    rintro _ ⟨⟩
    exact hu

lemma Spares.imp (himp : ∀ member w behind, f member w behind = none → g member w behind = none) {member : Bool}
    {name : List String} (h : f.Spares member name) : g.Spares member name := by
  match name with
  | [] => trivial
  | [w] => exact fun behind => himp _ _ _ (h behind)
  | w :: u :: us => exact ⟨himp _ _ _ h.1, h.2.imp himp⟩

lemma rewriteFrom_dotted {name : List String} (hne : name ≠ []) (hname : ∀ w ∈ name, Token.isIdentifierText w)
    {member : Bool} (h : r.Spares member name) (lead : String) (ts : List Token) :
    r.rewriteFrom 0 member (Change.dotted lead name ++ ts) = Change.dotted lead name ++ r.rewriteFrom 0 false ts := by
  match name with
  | [w] =>
    have hkeep : r.change? member ⟨.identifier, lead, w⟩ ts = none := h _
    have hreach : Token.reachesMember ⟨.identifier, lead, w⟩ = false := not_reachesMember (hname w mem_cons_self)
    rw [Change.dotted, singleton_append, rewriteFrom_keep hkeep, hreach, singleton_append]
  | w :: u :: us =>
    have hkeep (rest : List Token) : r.change? member ⟨.identifier, lead, w⟩ (⟨.punct, "", "."⟩ :: rest) = none := h.1
    have ih := rewriteFrom_dotted (cons_ne_nil u us) (fun v hv => hname v (mem_cons_of_mem _ hv)) h.2 "" ts
    rw [Change.dotted_cons, cons_append, cons_append, rewriteFrom_keep (hkeep _), rewriteFrom_keep (change?_punct r _ _ _ _)]
    exact congrArg (fun us => (⟨.identifier, lead, w⟩ : Token) :: ⟨.punct, "", "."⟩ :: us) ih

lemma rewriteFrom_tokens {behind : Follow} (hc : c.Fits behind) {member : Bool}
    (h : r.Spares member c.name) (lead : String) (ts : List Token) :
    r.rewriteFrom 0 member (c.tokens lead ++ ts) = c.tokens lead ++ r.rewriteFrom 0 false ts := by
  obtain ⟨⟨hne, hname⟩, -⟩ := hc
  cases c with
  | word name | field name => exact rewriteFrom_dotted hne hname h lead ts
  | call name =>
    have hdotted : _ = Change.dotted lead name ++ _ := rewriteFrom_dotted hne hname h lead (⟨.punct, "", "("⟩ :: ts)
    rw [rewriteFrom_keep (change?_punct r _ _ _ _)] at hdotted
    rw [Change.tokens, List.append_assoc, List.append_assoc]
    exact hdotted

def Polite (r : WordRule) (ts : List Token) : Prop :=
  ∀ p u us, (p :: u :: us) <:+ ts → p.reachesMember = true → r.change? true u us = none

def Apart (ts : List Token) (f g : WordRule) : Prop :=
  ∀ member t us, (t :: us) <:+ ts → ∀ c, f.change? member t us = some c → g.Spares member c.name

lemma Polite.suffix (h : r.Polite ts) (hus : us <:+ ts) : r.Polite us :=
  fun p u vs hvs => h p u vs (hvs.trans hus)

lemma Apart.suffix (h : Apart ts f g) (hus : us <:+ ts) : Apart us f g :=
  fun member t vs hvs => h member t vs (hvs.trans hus)

lemma tokens_eq {behind : Follow} (hc : c.Fits behind) (lead : String) :
    ∃ w more, c.name.head? = some w ∧ Token.isIdentifierText w ∧ c.tokens lead = ⟨.identifier, lead, w⟩ :: more := by
  obtain ⟨⟨hne, hname⟩, -⟩ := hc
  obtain ⟨w, ws, hw⟩ := exists_cons_of_ne_nil hne
  have hword : Token.isIdentifierText w = true := hname w (by rw [hw]; exact mem_cons_self)
  cases c with
  | word name | call name | field name =>
    obtain rfl : name = w :: ws := hw
    cases ws <;> exact ⟨w, _, rfl, hword, rfl⟩

lemma Valid.follow_rewriteFrom (hf : f.Valid) (h : Opens ts rest) :
    Follow.of (f.rewriteFrom 0 false ts) = Follow.of ts ∨
      ∃ a u us c w, ts = a :: u :: us ∧ a.reachesMember = true ∧ f.change? true u us = some c ∧ c.name.head? = some w ∧
        Follow.of ts = .arrow u.text ∧ Follow.of (f.rewriteFrom 0 false ts) = .arrow w := by
  cases ts with
  | nil => exact .inl rfl
  | cons a us =>
    cases hchange : f.change? false a us with
    | some c =>
      obtain ⟨hid, -⟩ := isIdentifier_of_change? hchange
      obtain ⟨w, more, -, hword, hmore⟩ := tokens_eq (hf.fits h.2.2.2 hchange) a.lead
      rw [rewriteFrom_change hchange, hmore, follow_word (h.isIdentifierText mem_cons_self hid), cons_append,
        follow_word (t := ⟨.identifier, a.lead, w⟩) hword]
      exact .inl rfl
    | none =>
      rw [rewriteFrom_keep hchange, Follow.of_cons, Follow.of_cons]
      split
      · exact .inl rfl
      split_ifs with harrow
      · have hreach : a.reachesMember = true := by simp [Token.reachesMember, harrow]
        cases us with
        | nil => exact .inl rfl
        | cons u us =>
          rw [hreach]
          cases hmember : f.change? true u us with
          | none =>
            rw [rewriteFrom_keep hmember]
            exact .inl rfl
          | some c =>
            obtain ⟨hid, -⟩ := isIdentifier_of_change? hmember
            obtain ⟨w, more, hw, -, hmore⟩ := tokens_eq (hf.fits h.2.2.2.2.2.2 hmember) u.lead
            refine .inr ⟨a, u, us, c, w, rfl, hreach, hmember, hw, if_pos hid, ?_⟩
            rw [rewriteFrom_change hmember, hmore]
            rfl
      · exact .inl rfl

lemma Valid.follow_rewrite (hf : f.Valid) (h : Opens ts rest) (hpolite : f.Polite ts) :
    Follow.of (f.rewriteFrom 0 false ts) = Follow.of ts := by
  rcases hf.follow_rewriteFrom h with hsame | ⟨a, u, us, c, w, rfl, hreach, hchange, -⟩
  · exact hsame
  · simp [hpolite a u us (suffix_refl _) hreach] at hchange

lemma drop_rewriteFrom (h : Opens ts rest) (hpolite : f.Polite ts) (hc : c.Fits (.of ts)) :
    (f.rewriteFrom 0 false ts).drop c.skipped = f.rewriteFrom 0 false (ts.drop c.skipped) := by
  have hpunct {t : Token} {text : String} (ht : t ∈ ts) (htext : t.text = text) (hne : Token.isIdentifierText text = false)
      (member : Bool) (us : List Token) : f.change? member t us = none := by
    refine if_neg fun hid => ?_
    have := h.isIdentifierText ht hid
    simp [htext, hne] at this
  cases c with
  | word name => rfl
  | call name =>
    obtain ⟨t, us, rfl, htext⟩ := Follow.of_eq_call hc.2
    have hreach : t.reachesMember = false := by simp [Token.reachesMember, htext]
    rw [rewriteFrom_keep (hpunct mem_cons_self htext (by decide) _ _), hreach]
    rfl
  | field name =>
    obtain ⟨f', hf'⟩ := hc.2
    obtain ⟨t, u, us, rfl, htext, hid, -⟩ := Follow.of_eq_arrow hf'
    have hreach : t.reachesMember = true := by simp [Token.reachesMember, htext]
    have hword := h.isIdentifierText (mem_cons_of_mem _ mem_cons_self) hid
    rw [rewriteFrom_keep (hpunct mem_cons_self htext (by decide) _ _), hreach,
      rewriteFrom_keep (hpolite t u us (suffix_refl _) hreach), not_reachesMember hword]
    rfl

def orElse (f g : WordRule) : WordRule :=
  fun member w behind => (f member w behind).or (g member w behind)

lemma change?_orElse (f g : WordRule) (member : Bool) (t : Token) (ts : List Token) :
    (f.orElse g).change? member t ts = (f.change? member t ts).or (g.change? member t ts) := by
  unfold change?
  split <;> rfl

lemma Valid.orElse (hf : f.Valid) (hg : g.Valid) : (f.orElse g).Valid := by
  intro member w behind c hbehind hc
  rcases or_eq_some_iff.1 hc with hc | ⟨-, hc⟩
  · exact hf member w behind c hbehind hc
  · exact hg member w behind c hbehind hc

lemma Polite.orElse (hf : f.Polite ts) (hg : g.Polite ts) : (f.orElse g).Polite ts := by
  intro p u us hus hreach
  rw [change?_orElse, hf p u us hus hreach, hg p u us hus hreach]
  rfl

lemma Apart.orElse {k : WordRule} (hf : Apart ts f k) (hg : Apart ts g k) : Apart ts (f.orElse g) k := by
  intro member t us hus c hc
  rw [change?_orElse] at hc
  rcases or_eq_some_iff.1 hc with hc | ⟨-, hc⟩
  · exact hf member t us hus c hc
  · exact hg member t us hus c hc

lemma rewriteFrom_rewriteFrom (hf : f.Valid) (hg : g.Valid) (h : Opens ts rest) (hpolite : f.Polite ts)
    (hapart : Apart ts f g) (member : Bool) :
    g.rewriteFrom 0 member (f.rewriteFrom 0 member ts) = (f.orElse g).rewriteFrom 0 member ts := by
  -- on the number of tokens, because a change passes over tokens behind the one it is made at
  induction hn : ts.length using Nat.strongRecOn generalizing ts member with
  | ind n ih =>
    cases ts with
    | nil => rfl
    | cons t ts =>
      have hrest (k : Nat) (m : Bool) :
          g.rewriteFrom 0 m (f.rewriteFrom 0 m (ts.drop k)) = (f.orElse g).rewriteFrom 0 m (ts.drop k) := by
        have hsuffix : ts.drop k <:+ t :: ts := (drop_suffix k ts).trans (suffix_cons t ts)
        refine ih (ts.drop k).length ?_ (opens_drop h.2.2.2 k) (hpolite.suffix hsuffix) (hapart.suffix hsuffix) m rfl
        rw [← hn, length_cons, length_drop]
        omega
      have hboth := change?_orElse f g member t ts
      cases hchange : f.change? member t ts with
      | some c =>
        -- the second pass leaves alone what the first one has put there
        rw [hchange] at hboth
        rw [rewriteFrom_change hchange, rewriteFrom_tokens (hf.fits h.2.2.2 hchange) (hapart _ _ _ (suffix_refl _) c hchange),
          hrest, rewriteFrom_change hboth]
      | none =>
        -- the second pass sees behind the token what was there before the first
        have hsame : g.change? member t (f.rewriteFrom 0 t.reachesMember ts) = g.change? member t ts := by
          unfold change?
          split_ifs with hid
          · rw [not_reachesMember (h.isIdentifierText mem_cons_self hid),
              hf.follow_rewrite h.2.2.2 (hpolite.suffix (suffix_cons t ts))]
          · rfl
        rw [hchange, none_or] at hboth
        rw [rewriteFrom_keep hchange]
        cases hchange' : g.change? member t ts with
        | none =>
          rw [hchange'] at hsame hboth
          rw [rewriteFrom_keep hsame, rewriteFrom_keep hboth]
          exact congrArg (t :: ·) (hrest 0 _)
        | some c =>
          obtain ⟨hid, -⟩ := isIdentifier_of_change? hchange'
          have hfits := hg.fits h.2.2.2 hchange'
          rw [hchange'] at hsame hboth
          rw [rewriteFrom_change hsame, rewriteFrom_change hboth, not_reachesMember (h.isIdentifierText mem_cons_self hid),
            drop_rewriteFrom h.2.2.2 (hpolite.suffix (suffix_cons t ts)) hfits, hrest]

lemma rewriteFrom_self (hr : r.Valid) (h : Opens ts rest) (hapart : Apart ts r r)
    (hkept : ∀ member t us, (t :: us) <:+ ts → r.change? member t us = none → r.change? member t (r.rewriteFrom 0 false us) = none)
    (member : Bool) : r.rewriteFrom 0 member (r.rewriteFrom 0 member ts) = r.rewriteFrom 0 member ts := by
  induction hn : ts.length using Nat.strongRecOn generalizing ts member with
  | ind n ih =>
    cases ts with
    | nil => rfl
    | cons t ts =>
      have hrest (k : Nat) (m : Bool) : r.rewriteFrom 0 m (r.rewriteFrom 0 m (ts.drop k)) = r.rewriteFrom 0 m (ts.drop k) := by
        have hsuffix : ts.drop k <:+ t :: ts := (drop_suffix k ts).trans (suffix_cons t ts)
        refine ih (ts.drop k).length ?_ (opens_drop h.2.2.2 k) (hapart.suffix hsuffix)
          (fun member u us hus => hkept member u us (hus.trans hsuffix)) m rfl
        rw [← hn, length_cons, length_drop]
        omega
      cases hchange : r.change? member t ts with
      | some c =>
        rw [rewriteFrom_change hchange, rewriteFrom_tokens (hr.fits h.2.2.2 hchange) (hapart _ _ _ (suffix_refl _) c hchange),
          hrest]
      | none =>
        have hagain : r.change? member t (r.rewriteFrom 0 t.reachesMember ts) = none := by
          by_cases hid : t.isIdentifier
          · rw [not_reachesMember (h.isIdentifierText mem_cons_self hid)]
            exact hkept member t ts (suffix_refl _) hchange
          · exact if_neg hid
        rw [rewriteFrom_keep hchange, rewriteFrom_keep hagain]
        exact congrArg (t :: ·) (hrest 0 _)

lemma foldl_rewrite {rs : List WordRule} (hf : f.Valid) (hrs : ∀ r ∈ rs, r.Valid) (h : Opens ts rest)
    (hpolite : f.Polite ts) (hpolites : ∀ r ∈ rs, r.Polite ts) (hapart : ∀ r ∈ rs, Apart ts f r)
    (haparts : rs.Pairwise (Apart ts)) :
    rs.foldl (fun us r => r.rewrite us) (f.rewrite ts) = (rs.foldl WordRule.orElse f).rewrite ts := by
  induction rs generalizing f with
  | nil => rfl
  | cons r rs ih =>
    obtain ⟨hr, hrs⟩ := forall_mem_cons.1 hrs
    obtain ⟨hpr, hprs⟩ := forall_mem_cons.1 hpolites
    obtain ⟨har, hars⟩ := forall_mem_cons.1 hapart
    obtain ⟨hfirst, haparts⟩ := pairwise_cons.1 haparts
    have htwo : r.rewrite (f.rewrite ts) = (f.orElse r).rewrite ts := rewriteFrom_rewriteFrom hf hr h hpolite har false
    rw [foldl_cons, foldl_cons, htwo]
    exact ih (hf.orElse hr) hrs (hpolite.orElse hpr) hprs (fun k hk => (hars k hk).orElse (hfirst k hk)) haparts

end WordRule

/-! ## Patterns that rewrite words -/

namespace Pattern

open Code

def replacement? {σ : Type} (p : Pattern) (rule : σ → Match → σ × Option String) (state : σ) (before ts : List Token) :
    Option (String × Nat) :=
  (p.matchAt? before ts).bind fun m => (rule state m).2.map (·, m.window.length - 1)

def Rewrites {σ : Type} (p : Pattern) (rule : σ → Match → σ × Option String) (r : WordRule) : Prop :=
  ∀ state before t ts rest, Opens (t :: ts) rest →
    p.replacement? rule state before (t :: ts) =
      (r.change? (followsMember before) t ts).map fun c => (spell (c.tokens ""), c.skipped)

end Pattern

namespace Change

open Code

lemma spell_dotted_lead {name : List String} (hne : name ≠ []) (lead : String) :
    spell (dotted lead name) = lead ++ spell (dotted "" name) := by
  match name with
  | [w] => simp [dotted, spell_cons]
  | w :: u :: us => simp [dotted_cons, spell_cons]

lemma spell_tokens_lead {c : Change} {behind : Follow} (h : c.Fits behind) (lead : String) :
    spell (c.tokens lead) = lead ++ spell (c.tokens "") := by
  cases c with
  | word name | field name => exact spell_dotted_lead h.1.1 lead
  | call name =>
    have hdotted : spell (dotted lead name) = lead ++ spell (dotted "" name) := spell_dotted_lead h.1.1 lead
    rw [tokens, tokens, spell_append, spell_append, hdotted, String.append_assoc]

lemma Fits.not_followsMember {c : Change} {t : Token} {ts : List Token} (h : c.Fits (.of ts)) {rest : String}
    (hopens : Opens (t :: ts) rest) (hid : t.isIdentifier) (before : List Token) :
    followsMember ((ts.take c.skipped).reverse ++ t :: before) = false := by
  cases c with
  | word name => exact WordRule.not_reachesMember (hopens.isIdentifierText mem_cons_self hid)
  | call name =>
    obtain ⟨u, us, rfl, htext⟩ := Follow.of_eq_call h.2
    simp [skipped, followsMember, Token.reachesMember, htext]
  | field name =>
    obtain ⟨f, hf⟩ := h.2
    obtain ⟨a, u, us, rfl, -, hu, -⟩ := Follow.of_eq_arrow hf
    exact WordRule.not_reachesMember (hopens.isIdentifierText (by simp) hu)

end Change

namespace Pattern

open Code

section
variable {σ : Type} {p : Pattern} {rule : σ → Match → σ × Option String} {r : WordRule} (h : p.Rewrites rule r) (hr : r.Valid)

include h hr

lemma Rewrites.join_pieces {n : Nat} {before ts : List Token} {rest : String} (hopens : Opens ts rest) {member : Bool}
    (hmember : followsMember ((ts.take n).reverse ++ before) = member) (hskip : n ≠ 0 → member = false) (state : σ) :
    String.join (p.replacePieces rule state n before ts).2 = spell (r.rewriteFrom n member ts) := by
  induction ts generalizing n before member state with
  | nil => cases n <;> rfl
  | cons t ts ih =>
    cases n with
    | succ n =>
      obtain rfl := hskip (by simp)
      exact ih hopens.2.2.2 (by simpa using hmember) (fun _ => rfl) state
    | zero =>
      obtain rfl : followsMember before = member := hmember
      have hreplacement := h state before t ts rest hopens
      -- a token that stays is followed by what comes of the tokens behind it
      have hkeep (state : σ) : String.join (t.lead :: t.text :: (p.replacePieces rule state 0 (t :: before) ts).2) =
          spell (t :: r.rewriteFrom 0 t.reachesMember ts) := by
        have hrest : String.join (p.replacePieces rule state 0 (t :: before) ts).2 = spell (r.rewriteFrom 0 t.reachesMember ts) :=
          ih (n := 0) hopens.2.2.2 rfl (by simp) state
        rw [spell_cons, ← hrest]
        simp
      cases hmatch : p.matchAt? before (t :: ts) with
      | none =>
        simp only [replacement?, hmatch, bind_none] at hreplacement
        have hchange : r.change? (followsMember before) t ts = none := by simpa using hreplacement.symm
        rw [WordRule.rewriteFrom_keep hchange, replacePieces, hmatch]
        exact hkeep state
      | some m =>
        simp only [replacement?, hmatch, bind_some] at hreplacement
        cases hrule : rule state m with
        | mk state' new =>
          rw [hrule] at hreplacement
          cases new with
          | none =>
            have hchange : r.change? (followsMember before) t ts = none := by simpa using hreplacement.symm
            rw [WordRule.rewriteFrom_keep hchange, replacePieces, hmatch]
            simp only [hrule]
            exact hkeep state'
          | some new =>
            obtain ⟨c, hchange, hc⟩ := map_eq_some_iff.1 hreplacement.symm
            obtain ⟨rfl, hlength⟩ := Prod.mk.inj hc
            have hfits := hr.fits hopens.2.2.2 hchange
            have hlast := hfits.not_followsMember hopens (WordRule.isIdentifier_of_change? hchange).1 before
            have hrest := ih hopens.2.2.2 hlast (fun _ => rfl) state'
            rw [WordRule.rewriteFrom_change hchange, ← WordRule.rewriteFrom_drop, spell_append, Change.spell_tokens_lead hfits,
              ← hrest, replacePieces, hmatch]
            simp only [hrule, hlength]
            simp [String.append_assoc]

lemma Rewrites.replaceWith_eq (state : σ) (s : String) :
    (p.replaceWith rule state s).2 = Code.toString ⟨r.rewrite (Code.ofString s).tokens, (Code.ofString s).tail⟩ := by
  have hjoin : join (p.replacePieces rule state 0 [] (Code.ofString s).tokens).2 = spell (r.rewrite (Code.ofString s).tokens) :=
    h.join_pieces hr (opens_ofString s) rfl (by simp) state
  exact congrArg (· ++ (Code.ofString s).tail) hjoin

lemma Rewrites.ofString_replaceWith (state : σ) (s : String) :
    Code.ofString (p.replaceWith rule state s).2 = ⟨r.rewrite (Code.ofString s).tokens, (Code.ofString s).tail⟩ := by
  have hopens := hr.opens_rewriteFrom 0 false (opens_ofString s)
  rw [h.replaceWith_eq hr, Code.toString, WordRule.rewrite, ofString_opens hopens, ofString_tail, append_nil]

end

end Pattern

end DeviceForge
