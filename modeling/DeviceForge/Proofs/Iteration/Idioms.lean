import DeviceForge.Iteration
import DeviceForge.Proofs.Iteration.Fields
import Mathlib.Data.List.Infix
/-!
# Device code as code of a class

The device code goes through four kinds of passes: idioms, fields of the instance, fields of the model, and shared
variables.
-/

namespace DeviceForge

open List Option

open Parameter Code

namespace WordRule

def keep : WordRule :=
  fun _ _ _ => none

lemma valid_keep : keep.Valid :=
  fun _ _ _ _ _ h => nomatch h

lemma change?_keep (member : Bool) (t : Token) (ts : List Token) : keep.change? member t ts = none := by
  unfold WordRule.change?
  split <;> rfl

lemma rewriteFrom_none (member : Bool) (ts : List Token) : keep.rewriteFrom 0 member ts = ts := by
  induction ts generalizing member with
  | nil => rfl
  | cons t ts ih => rw [rewriteFrom_keep (change?_keep member t ts), ih]

lemma polite_keep (ts : List Token) : keep.Polite ts :=
  fun _ u us _ _ => change?_keep true u us

lemma apart_keep (ts : List Token) (r : WordRule) : Apart ts keep r := by
  intro member t us _ c hc
  simp [change?_keep] at hc

/-- The first of several rules that changes a word. -/
def first (rs : List WordRule) : WordRule :=
  rs.foldl WordRule.orElse keep

lemma foldl_orElse (rs : List WordRule) (f : WordRule) (member : Bool) (w : String) (behind : Follow) :
    rs.foldl orElse f member w behind = (f member w behind).or (rs.findSome? (· member w behind)) := by
  induction rs generalizing f with
  | nil => simp
  | cons r rs ih =>
    rw [List.foldl_cons, ih, orElse, Option.or_assoc, findSome?_cons]
    cases r member w behind <;> rfl

lemma first_eq (rs : List WordRule) (member : Bool) (w : String) (behind : Follow) :
    first rs member w behind = rs.findSome? (· member w behind) := by
  rw [first, foldl_orElse]
  rfl

lemma findSome?_word (qualifier : String) (names : List String) (member : Bool) (w : String) (behind : Follow) :
    (names.map fun name => word name [qualifier, name]).findSome? (· member w behind) =
      if member = false ∧ w ∈ names then some (.word [qualifier, w]) else none := by
  induction names with
  | nil => simp
  | cons name names ih =>
    rw [map_cons, findSome?_cons, ih, word]
    by_cases hmember : member = false <;> by_cases hw : w = name <;> simp [hmember, hw]

lemma KeyedBy.apart {f g : WordRule} {key : String} (hkey : g.KeyedBy key) {ts : List Token}
    (h : ∀ member t us, (t :: us) <:+ ts → ∀ c, f.change? member t us = some c →
      (∀ w ∈ c.name.head?, w ≠ key) ∧ (g.SparesMembers ∨ key ∉ c.name)) : Apart ts f g := by
  intro member t us hus c hc
  obtain ⟨hhead, htail⟩ := h member t us hus c hc
  exact hkey.spares member hhead htail

def Puts (r : WordRule) (P : List String → Prop) : Prop :=
  ∀ member w behind c, r member w behind = some c → P c.name

lemma puts_call (function : String) (name : List String) : (call function name).Puts (· = name) := by
  intro member w behind c hc
  obtain ⟨-, hc⟩ := ite_none_right_eq_some.1 hc
  exact (some.inj hc ▸ rfl : c.name = name)

lemma puts_word (old : String) (name : List String) : (word old name).Puts (· = name) := by
  intro member w behind c hc
  obtain ⟨-, hc⟩ := ite_none_right_eq_some.1 hc
  exact (some.inj hc ▸ rfl : c.name = name)

lemma puts_reached (object f : String) (name : List String) : (reached object f name).Puts (· = name) := by
  intro member w behind c hc
  obtain ⟨-, hc⟩ := ite_none_right_eq_some.1 hc
  exact (some.inj hc ▸ rfl : c.name = name)

lemma Puts.change? {r : WordRule} {P : List String → Prop} (h : r.Puts P) {member : Bool} {t : Token} {ts : List Token} {c : Change}
    (hc : r.change? member t ts = some c) : P c.name :=
  h _ _ _ c (isIdentifier_of_change? hc).2

end WordRule

/-! ## Idioms -/

namespace Reference

/-- The functions with their names in the class of mathematical functions. -/
def mathNames : List (String × String) :=
  [("log", "Log"), ("exp", "Exp"), ("FABS", "Abs"), ("MAX", "Max"), ("MIN", "Min"), ("sqrt", "Sqrt"), ("pow", "Pow"), ("sin", "Sin"),
    ("cos", "Cos"), ("tan", "Tan"), ("atan", "Atan"), ("atan2", "Atan2")]

lemma mathFunctions_eq : mathFunctions = mathNames.map fun e => (e.1, "Math." ++ e.2) := by
  decide

def idiomRules : List WordRule :=
  mathNames.map (fun e => .call e.1 ["Math", e.2]) ++
    (constants.map (fun e => .word e.1 ["Circuit", e.2]) ++ literals.map fun e => .word e.1 [e.2])

def idioms : List String :=
  (mathNames ++ (constants ++ literals)).map (·.1)

def idiomWords : List String :=
  ["Math", "Circuit", "state", "Gmin"] ++ (mathNames ++ (constants ++ literals)).map (·.2)

def gminRule (circuit : String) : WordRule :=
  .reached circuit "CKTgmin" ["state", "Gmin"]

def generalRules (circuit : String) : List WordRule :=
  idiomRules ++ [gminRule circuit]

lemma ofString_general {circuit : String} (hcircuit : Token.isIdentifierText circuit) (code : String) :
    ofString (general circuit code) =
      ⟨(generalRules circuit).foldl (fun ts r => r.rewrite ts) (ofString code).tokens, (ofString code).tail⟩ := by
  have hmath : ∀ e ∈ mathNames, Token.isIdentifierText e.1 ∧ ∀ w ∈ ["Math", e.2], Token.isIdentifierText w := by decide
  have hconstants : ∀ e ∈ constants, Token.isIdentifierText e.1 ∧ ∀ w ∈ ["Circuit", e.2], Token.isIdentifierText w := by
    decide
  have hliterals : ∀ e ∈ literals, Token.isIdentifierText e.1 ∧ ∀ w ∈ [e.2], Token.isIdentifierText w := by decide
  unfold general
  rw [mathFunctions_eq, foldl_map, (pass_gmin hcircuit).ofString_eq]
  rw [ofString_foldl (r := fun e => .word e.1 [e.2]) fun e he =>
    pass_renameWord (hliterals e he).1 ⟨by simp, (hliterals e he).2⟩ (by simp)]
  rw [ofString_foldl (r := fun e => .word e.1 ["Circuit", e.2]) fun e he =>
    pass_renameWord (hconstants e he).1 ⟨by simp, (hconstants e he).2⟩ (by simp [String.intercalate_cons_cons, toString])]
  rw [ofString_foldl (r := fun e => .call e.1 ["Math", e.2]) fun e he =>
    pass_call (hmath e he).1 ⟨by simp, (hmath e he).2⟩ (by simp [String.intercalate_cons_cons])]
  simp only [generalRules, idiomRules, foldl_append, foldl_cons, foldl_nil]
  rfl

structure IsIdiomName (name : List String) : Prop where
  head : ∀ w ∈ name.head?, w ∈ ["Math", "Circuit", "true", "false"]
  last : ∀ w ∈ name.getLast?, w ∈ (mathNames ++ (constants ++ literals)).map (·.2)
  words : ∀ w ∈ name, Token.isIdentifierText w = true ∧ w ∈ idiomWords

instance (name : List String) : Decidable (IsIdiomName name) :=
  decidable_of_iff (_ ∧ _ ∧ _) ⟨fun h => ⟨h.1, h.2.1, h.2.2⟩, fun h => ⟨h.1, h.2, h.3⟩⟩

structure IsIdiom (r : WordRule) : Prop where
  valid : r.Valid
  sparesMembers : r.SparesMembers
  keyed : ∃ key ∈ idioms, r.KeyedBy key
  puts : r.Puts IsIdiomName

lemma isIdiom_of_puts {r : WordRule} {key : String} {name : List String} (hname : IsIdiomName name) (hvalid : r.Valid)
    (hmembers : r.SparesMembers) (hkey : key ∈ idioms) (hkeyed : r.KeyedBy key) (hputs : r.Puts (· = name)) : IsIdiom r := by
  refine ⟨hvalid, hmembers, ⟨key, hkey, hkeyed⟩, fun member w behind c hc => ?_⟩
  obtain rfl : c.name = name := hputs member w behind c hc
  exact hname

lemma IsIdiomName.isName {name : List String} (h : IsIdiomName name) (hne : name ≠ []) : WordRule.IsName name :=
  ⟨hne, fun w hw => (h.words w hw).1⟩

lemma isIdiom_of_mem {r : WordRule} (h : r ∈ idiomRules) : IsIdiom r := by
  have hmath : ∀ e ∈ mathNames, e.1 ∈ idioms ∧ IsIdiomName ["Math", e.2] := by decide
  have hconstants : ∀ e ∈ constants, e.1 ∈ idioms ∧ IsIdiomName ["Circuit", e.2] := by decide
  have hliterals : ∀ e ∈ literals, e.1 ∈ idioms ∧ IsIdiomName [e.2] := by decide
  have hword {w : String} {name : List String} (h : w ∈ idioms ∧ IsIdiomName name) (hne : name ≠ []) : IsIdiom (.word w name) :=
    isIdiom_of_puts h.2 (WordRule.valid_word (h.2.isName hne)) (WordRule.sparesMembers_word _ _) h.1 (WordRule.keyedBy_word _ _)
      (WordRule.puts_word _ _)
  simp only [idiomRules, mem_append, List.mem_map] at h
  rcases h with ⟨e, he, rfl⟩ | ⟨e, he, rfl⟩ | ⟨e, he, rfl⟩
  · obtain ⟨hkey, hname⟩ := hmath e he
    exact isIdiom_of_puts hname (WordRule.valid_call (hname.isName (by simp))) (WordRule.sparesMembers_call _ _) hkey
      (WordRule.keyedBy_call _ _) (WordRule.puts_call _ _)
  · exact hword (hconstants e he) (by simp)
  · exact hword (hliterals e he) (by simp)

lemma valid_gminRule (circuit : String) : (gminRule circuit).Valid :=
  WordRule.valid_reached ⟨by simp, by decide⟩

lemma IsIdiom.apart {r g : WordRule} (hr : IsIdiom r) {key : String} (hg : g.KeyedBy key) (hkey : key ∉ idiomWords) (ts : List Token) :
    WordRule.Apart ts r g := by
  refine hg.apart fun member t us _ c hc => ?_
  have hwords := (hr.puts.change? hc).words
  exact ⟨fun w hw heq => hkey (heq ▸ (hwords w (mem_of_head? hw)).2), .inr fun hmem => hkey (hwords key hmem).2⟩

lemma pairwise_idiomRules (ts : List Token) : idiomRules.Pairwise (WordRule.Apart ts) := by
  refine pairwise_of_forall_mem_list fun r hr g hg => ?_
  obtain ⟨key, hkey, hkeyed⟩ := (isIdiom_of_mem hg).keyed
  have hheads : ∀ w ∈ ["Math", "Circuit", "true", "false"], w ∉ idioms := by decide
  refine hkeyed.apart fun member t us _ c hc => ⟨fun w hw heq => ?_, .inl (isIdiom_of_mem hg).sparesMembers⟩
  exact hheads w (((isIdiom_of_mem hr).puts.change? hc).head w hw) (heq ▸ hkey)

end Reference

/-! ## Device code -/

namespace Iteration

open Reference WordRule

/-- The tokens of the device code. -/
def deviceTokens (it : Iteration) : List Token :=
  (ofString (Text.trim it.loops.deviceCode)).tokens

/-- A shared variable becomes a member of the model. -/
def sharedRule (names : List String) : WordRule :=
  fun member w _ => if member = false ∧ w ∈ names then some (.word [modelQualifier, w]) else none

def instanceRule (it : Iteration) (device : Accessors) : WordRule :=
  .field it.loops.instanceVariable (memberName device [])

def modelRule (it : Iteration) (model : Accessors) : WordRule :=
  .field it.loops.modelVariable (memberName model [modelQualifier])

/-- What becomes of the words of the device code: a field of the instance is a member without qualifier, a field of the model
and a shared variable are members of the model, and idioms are changed as everywhere. -/
def deviceRule (it : Iteration) (model device : Accessors) : WordRule :=
  ((it.instanceRule device).orElse (it.modelRule model)).orElse
    ((sharedRule it.locals.shared.keys).orElse (first (generalRules it.circuit)))

/-- The tokens start with a field of the instance that becomes a member of which the name starts like another reference. -/
def captures (it : Iteration) (device : Accessors) : List Token → Bool
  | [] => false
  | t :: ts =>
    t.text = it.loops.instanceVariable &&
      match Follow.of ts with
      | .arrow f => (memberName device [] f).head?.any (it.loops.modelVariable :: it.locals.shared.keys).contains
      | _ => false

/-- The tokens start with the least conductance as a member of a member. -/
def reachesGmin (circuit : String) : List Token → Bool
  | p :: t :: ts => p.reachesMember && t.text = circuit && Follow.of ts = .arrow "CKTgmin"
  | _ => false

/-- No pass over the device code takes up what the ones before it wrote. -/
structure Separate (it : Iteration) (model device : Accessors) : Prop where
  words : ∀ w ∈ it.circuit :: it.loops.instanceVariable :: it.loops.modelVariable :: it.locals.shared.keys,
    Token.isIdentifierText w = true
  targets : HasTargets model ∧ HasTargets device
  circuit : it.circuit ∉ idiomWords
  names : ∀ w ∈ it.loops.instanceVariable :: it.loops.modelVariable :: it.locals.shared.keys,
    w ∉ idioms ∧ w ∉ idiomWords ∧ w ≠ it.circuit
  qualifier : modelQualifier ∉ it.locals.shared.keys
  fields : ∀ us ∈ it.deviceTokens.tails, it.captures device us = false
  gmin : ∀ us ∈ it.deviceTokens.tails, reachesGmin it.circuit us = false

def passRules (it : Iteration) (model device : Accessors) : List WordRule :=
  generalRules it.circuit ++
    ([it.instanceRule device, it.modelRule model] ++ it.locals.shared.keys.map fun name => .word name [modelQualifier, name])

lemma first_generalRules_eq_none {circuit w : String} (hidiom : w ∉ idioms) (hcircuit : w ≠ circuit) (member : Bool) (behind : Follow) :
    first (generalRules circuit) member w behind = none := by
  rw [first_eq, findSome?_eq_none_iff]
  intro r hr
  rcases mem_append.1 hr with hr | hr
  · obtain ⟨key, hkey, hkeyed⟩ := (isIdiom_of_mem hr).keyed
    exact hkeyed _ _ _ fun heq => hidiom (heq ▸ hkey)
  · obtain rfl := mem_singleton.1 hr
    exact keyedBy_reached _ _ _ _ _ _ hcircuit

lemma Separate.first_passRules {it : Iteration} {model device : Accessors} (h : it.Separate model device) :
    first (it.passRules model device) = it.deviceRule model device := by
  funext member w behind
  have hgeneral := first_eq (generalRules it.circuit) member w behind
  have hnames : _ = sharedRule it.locals.shared.keys member w behind := findSome?_word modelQualifier _ member w behind
  rw [first_eq, passRules, findSome?_append, findSome?_append, ← hgeneral, hnames]
  have htwo : [it.instanceRule device, it.modelRule model].findSome? (· member w behind) =
      (it.instanceRule device member w behind).or (it.modelRule model member w behind) := by
    rw [findSome?_cons]
    cases it.instanceRule device member w behind <;> simp
  rw [htwo]
  change _ = ((it.instanceRule device member w behind).or (it.modelRule model member w behind)).or
    ((sharedRule it.locals.shared.keys member w behind).or (first (generalRules it.circuit) member w behind))
  by_cases hw : w ∈ it.loops.instanceVariable :: it.loops.modelVariable :: it.locals.shared.keys
  · obtain ⟨hidiom, -, hcircuit⟩ := h.names w hw
    rw [first_generalRules_eq_none hidiom hcircuit, none_or, or_none]
  · simp only [mem_cons, not_or] at hw
    have hinstance : it.instanceRule device member w behind = none := keyedBy_field _ _ _ _ _ hw.1
    have hmodel : it.modelRule model member w behind = none := keyedBy_field _ _ _ _ _ hw.2.1
    have hshared : sharedRule it.locals.shared.keys member w behind = none := if_neg fun hc => hw.2.2 hc.2
    rw [hinstance, hmodel, hshared]
    simp

lemma puts_modelRule (it : Iteration) (model : Accessors) : (it.modelRule model).Puts fun name => name.head? = some modelQualifier := by
  intro member w behind c hc
  cases behind with
  | arrow f =>
    obtain ⟨-, hc⟩ := ite_none_right_eq_some.1 hc
    obtain rfl := some.inj hc
    rfl
  | call | other => cases hc

section
variable {it : Iteration} {model device : Accessors} (h : it.Separate model device)

include h

lemma Separate.apart_instance {g : WordRule} {key : String} (hkey : key ∈ it.loops.modelVariable :: it.locals.shared.keys)
    (hg : g.KeyedBy key) (hmembers : g.SparesMembers) : Apart it.deviceTokens (it.instanceRule device) g := by
  refine hg.apart fun member t us hus c hc => ⟨fun w hw heq => ?_, .inl hmembers⟩
  have hfields := h.fields (t :: us) ((mem_tails _ _).2 hus)
  obtain ⟨-, hrule⟩ := isIdentifier_of_change? hc
  cases hbehind : Follow.of us with
  | call | other => simp [hbehind, instanceRule, WordRule.field] at hrule
  | arrow f =>
    rw [hbehind] at hrule
    obtain ⟨⟨-, htext⟩, hrule⟩ := ite_none_right_eq_some.1 hrule
    obtain rfl := some.inj hrule
    rw [captures, hbehind] at hfields
    have hhead : (memberName device [] f).head? = some w := hw
    subst heq
    simp [htext, hhead] at hfields
    simp [hfields] at hkey

lemma Separate.apart_qualified {r g : WordRule} (hr : r.Puts fun name => name.head? = some modelQualifier)
    (hg : g ∈ it.locals.shared.keys.map fun name => word name [modelQualifier, name]) : Apart it.deviceTokens r g := by
  obtain ⟨name, hname, rfl⟩ := mem_map.1 hg
  refine (keyedBy_word _ _).apart fun member t us _ c hc => ⟨fun w hw heq => ?_, .inl (sparesMembers_word _ _)⟩
  have hhead : c.name.head? = some modelQualifier := hr.change? hc
  obtain rfl : modelQualifier = w := some.inj (hhead.symm.trans hw)
  exact h.qualifier (heq ▸ hname)

lemma Separate.pairwise : (it.passRules model device).Pairwise (Apart it.deviceTokens) := by
  have hlater : ∀ g ∈ [it.instanceRule device, it.modelRule model] ++
      it.locals.shared.keys.map (fun name => word name [modelQualifier, name]),
      ∃ key ∈ it.loops.instanceVariable :: it.loops.modelVariable :: it.locals.shared.keys, g.KeyedBy key ∧ g.SparesMembers := by
    intro g hg
    simp only [mem_append, mem_cons, not_mem_nil, or_false, List.mem_map] at hg
    rcases hg with (rfl | rfl) | ⟨name, hname, rfl⟩
    · exact ⟨_, by simp, keyedBy_field _ _, sparesMembers_field _ _⟩
    · exact ⟨_, by simp, keyedBy_field _ _, sparesMembers_field _ _⟩
    · exact ⟨name, by simp [hname], keyedBy_word _ _, sparesMembers_word _ _⟩
  have hstate : "state" ∈ idiomWords := by decide
  rw [passRules, generalRules, pairwise_append, pairwise_append, pairwise_append]
  refine ⟨⟨pairwise_idiomRules _, pairwise_singleton _ _, ?_⟩, ⟨?_, ?_, ?_⟩, ?_⟩
  · intro r hr g hg
    obtain rfl := mem_singleton.1 hg
    exact (isIdiom_of_mem hr).apart (keyedBy_reached _ _ _) h.circuit _
  · exact pairwise_pair.2 (h.apart_instance mem_cons_self (keyedBy_field _ _) (sparesMembers_field _ _))
  · refine pairwise_of_forall_mem_list fun r hr g hg => h.apart_qualified ?_ hg
    obtain ⟨name, -, rfl⟩ := mem_map.1 hr
    intro member w behind c hc
    rw [puts_word _ _ _ _ _ _ hc]
    rfl
  · intro r hr g hg
    simp only [mem_cons, not_mem_nil, or_false] at hr
    rcases hr with rfl | rfl
    · obtain ⟨name, hname, rfl⟩ := mem_map.1 hg
      exact h.apart_instance (mem_cons_of_mem _ hname) (keyedBy_word _ _) (sparesMembers_word _ _)
    · exact h.apart_qualified (puts_modelRule it model) hg
  · intro r hr g hg
    obtain ⟨key, hkey, hkeyed, hmembers⟩ := hlater g hg
    obtain ⟨-, hword, -⟩ := h.names key hkey
    rcases mem_append.1 hr with hr | hr
    · exact (isIdiom_of_mem hr).apart hkeyed hword _
    · obtain rfl := mem_singleton.1 hr
      refine hkeyed.apart fun member t us _ c hc => ⟨fun w hw heq => ?_, .inl hmembers⟩
      rw [(puts_reached _ _ _).change? hc] at hw
      obtain rfl : "state" = w := by simpa using hw
      exact hword (heq ▸ hstate)

lemma Separate.polite : ∀ r ∈ it.passRules model device, r.Polite it.deviceTokens := by
  intro r hr
  simp only [passRules, generalRules, mem_append, mem_cons, not_mem_nil, or_false, List.mem_map] at hr
  rcases hr with (hr | rfl) | (rfl | rfl) | ⟨name, -, rfl⟩
  · exact (isIdiom_of_mem hr).sparesMembers.polite _
  · intro p u us hus hreach
    have hgmin := h.gmin _ ((mem_tails _ _).2 hus)
    unfold WordRule.change?
    split
    · refine if_neg fun hc => ?_
      simp [reachesGmin, hreach, hc] at hgmin
    · rfl
  · exact (sparesMembers_field _ _).polite _
  · exact (sparesMembers_field _ _).polite _
  · exact (sparesMembers_word _ _).polite _

lemma Separate.valid : ∀ r ∈ it.passRules model device, r.Valid := by
  have hqualifier : Token.isIdentifierText modelQualifier := by decide
  intro r hr
  simp only [passRules, generalRules, mem_append, mem_cons, not_mem_nil, or_false, List.mem_map] at hr
  rcases hr with (hr | rfl) | (rfl | rfl) | ⟨name, hname, rfl⟩
  · exact (isIdiom_of_mem hr).valid
  · exact valid_gminRule _
  · exact valid_field fun f hf => isName_memberName h.targets.2 (by simp) hf
  · exact valid_field fun f hf => isName_memberName h.targets.1 (by simpa using hqualifier) hf
  · have hword := h.words name (by simp [hname])
    exact valid_word ⟨by simp, by simp [hqualifier, hword]⟩

lemma Separate.ofString_passes : ofString (it.exportDevice model device).2 =
      ⟨(it.passRules model device).foldl (fun ts r => r.rewrite ts) it.deviceTokens, (ofString (Text.trim it.loops.deviceCode)).tail⟩ := by
  have hqualifier : Token.isIdentifierText modelQualifier := by decide
  have hshared : ∀ name ∈ it.locals.shared.keys,
      Pass (renameWord name s!"{modelQualifier}.{name}" true) (.word name [modelQualifier, name]) := by
    intro name hname
    have hword := h.words name (by simp [hname])
    refine pass_renameWord hword ⟨by simp, by simp [hqualifier, hword]⟩ ?_
    apply String.toList_injective
    simp [toString, String.intercalate_cons_cons]
  have hinstance := pass_fields (h.words it.loops.instanceVariable (by simp)) h.targets.2 (by simp)
    (fun f => (field_eq device f).1) it.deviceExtra
  have hmodel := pass_fields (h.words it.loops.modelVariable (by simp)) h.targets.1 (forall_mem_singleton.2 hqualifier)
    (fun f => (field_eq model f).2 modelQualifier) it.modelExtra
  change ofString (Reference.shared _ modelQualifier (Reference.fields _ model _ it.modelExtra
    (Reference.fields _ device "" it.deviceExtra (Reference.general it.circuit (Text.trim it.loops.deviceCode))).2).2) = _
  rw [Reference.shared, ofString_foldl hshared, hmodel.ofString_eq, hinstance.ofString_eq, ofString_general (h.words it.circuit (by simp))]
  simp only [passRules, foldl_append, foldl_cons, foldl_nil]
  rfl

lemma Separate.exportDevice_text : (it.exportDevice model device).2 = Code.toString
      ⟨(it.passRules model device).foldl (fun ts r => r.rewrite ts) it.deviceTokens, (ofString (Text.trim it.loops.deviceCode)).tail⟩ := by
  rw [← h.ofString_passes, toString_ofString]

end

/-- The passes over the device code are one pass by the rules for references, shared variables and idioms, as long as none of
them takes up what the ones before it wrote. All other tokens and everything between them stay as they are. -/
theorem ofString_exportDevice {it : Iteration} {model device : Accessors} (h : it.Separate model device) :
    ofString (it.exportDevice model device).2 =
      ⟨(it.deviceRule model device).rewrite it.deviceTokens, (ofString (Text.trim it.loops.deviceCode)).tail⟩ := by
  have hopens : Opens it.deviceTokens (ofString (Text.trim it.loops.deviceCode)).tail := opens_ofString _
  have hone := foldl_rewrite valid_keep h.valid hopens (polite_keep _) h.polite (fun r _ => apart_keep _ r) h.pairwise
  rw [rewrite, rewriteFrom_none] at hone
  rw [h.ofString_passes, hone, ← h.first_passRules]
  rfl

/-- An iteration over instances `h` of models `m` with the shared variable `v`. -/
def sharing (deviceCode : String) : Iteration :=
  ⟨⟨"", "", deviceCode, "m", "h", "c", []⟩, ⟨[], [], [("v", .real)]⟩, [], []⟩

/-- References to a given flag, to a field of the instance and to one of the model, and a shared variable in an idiom. -/
def referring : Iteration :=
  sharing "if(h->g)h->v1=m->v*log(v);"

def givenAccessors : Accessors :=
  { Accessors.empty with given := [("g", "y")] }

theorem ofString_exportDevice_referring :
    referring.Separate .empty givenAccessors ∧
      ofString (referring.exportDevice .empty givenAccessors).2 =
        ⟨(referring.deviceRule .empty givenAccessors).rewrite referring.deviceTokens, ""⟩ ∧
      Code.toString ⟨(referring.deviceRule .empty givenAccessors).rewrite referring.deviceTokens, ""⟩ =
        "if(y.Given)v1=Model.v*Math.Log(Model.v);" := by
  have hseparate : referring.Separate .empty givenAccessors := by
    refine ⟨by decide, ⟨by decide, by decide⟩, by decide, by decide, by decide, ?_, ?_⟩
    · decide +kernel
    · decide +kernel
  have htail : (ofString (Text.trim referring.loops.deviceCode)).tail = "" := by decide +kernel
  have hone := ofString_exportDevice hseparate
  rw [htail] at hone
  exact ⟨hseparate, hone, by decide +kernel⟩

/-- A field of the instance with the name of a shared variable becomes a member of the model, and not of the device. -/
theorem not_exportDevice_shared_field :
    ((sharing "h->v=v;").exportDevice .empty .empty).2 = "Model.v=Model.v;" ∧
      Code.toString ⟨((sharing "h->v=v;").deviceRule .empty .empty).rewrite (sharing "h->v=v;").deviceTokens, ""⟩ = "v=Model.v;" := by
  decide +kernel

end Iteration

end DeviceForge

/-!
# Passes over loop code that are one

`shared` goes over the code once for each variable and `general` once for each idiom, and every time the code is read
again.
-/

namespace DeviceForge.Reference

open List WordRule Code Option

/-! ## Shared variables -/

section
variable {names : List String} {qualifier : String}

/-- A shared variable becomes a member of what the qualifier names. -/
def sharedRule (qualifier : String) (names : List String) : WordRule :=
  fun member w _ => if member = false ∧ w ∈ names then some (.word [qualifier, w]) else none

section
variable (hqualifier : Token.isIdentifierText qualifier) (hnames : ∀ w ∈ names, Token.isIdentifierText w)

include hqualifier hnames

lemma valid_sharedRule : (sharedRule qualifier names).Valid := by
  intro member w behind c _ hc
  obtain ⟨⟨-, hw⟩, hc⟩ := ite_none_right_eq_some.1 hc
  obtain rfl := some.inj hc
  exact ⟨⟨by simp [Change.name], by simp [Change.name, hqualifier, hnames w hw]⟩, trivial⟩

lemma ofString_shared (hne : qualifier ∉ names) (code : String) :
    ofString (shared names qualifier code) =
      ⟨(sharedRule qualifier names).rewrite (ofString code).tokens, (ofString code).tail⟩ := by
  have hname : ∀ w ∈ names, IsName [qualifier, w] := fun w hw => ⟨by simp, by simp [hqualifier, hnames w hw]⟩
  have hpass : ∀ w ∈ names, Pass (renameWord w s!"{qualifier}.{w}" true) (.word w [qualifier, w]) := by
    intro w hw
    refine pass_renameWord (hnames w hw) (hname w hw) ?_
    apply String.toList_injective
    simp [toString, String.intercalate_cons_cons]
  have hpairwise : (names.map fun w => word w [qualifier, w]).Pairwise (Apart (ofString code).tokens) := by
    rw [pairwise_map]
    refine pairwise_of_forall_mem_list fun w _ v hv => ?_
    refine (keyedBy_word _ _).apart fun member t us _ c hc => ⟨fun u hu heq => hne ?_, .inl (sparesMembers_word _ _)⟩
    rw [(puts_word _ _).change? hc] at hu
    exact some.inj hu ▸ heq ▸ hv
  have hone : _ = (first _).rewrite _ := foldl_rewrite valid_keep (forall_mem_map.2 fun w hw => valid_word (hname w hw))
    (opens_ofString code) (polite_keep _) (forall_mem_map.2 fun w _ => (sparesMembers_word _ _).polite _)
    (fun r _ => apart_keep _ r) hpairwise
  have hrule : first (names.map fun w => word w [qualifier, w]) = sharedRule qualifier names := by
    funext member w behind
    rw [first_eq]
    exact findSome?_word qualifier names member w behind
  rw [rewrite, rewriteFrom_none] at hone
  rw [shared, ofString_foldl hpass, hone, hrule]

lemma rewrite_sharedRule (hne : qualifier ∉ names) {ts : List Token} {rest : String} (hopens : Opens ts rest) :
    (sharedRule qualifier names).rewrite ((sharedRule qualifier names).rewrite ts) = (sharedRule qualifier names).rewrite ts := by
  refine rewriteFrom_self (valid_sharedRule hqualifier hnames) hopens ?_ (fun member t us _ hnone => hnone) false
  intro member t us _ c hc
  obtain ⟨-, hc⟩ := ite_none_right_eq_some.1 (isIdentifier_of_change? hc).2
  obtain rfl := some.inj hc
  exact ⟨if_neg fun hmem => hne hmem.2, fun behind => if_neg (by simp)⟩

end

/-- Qualifying shared variables is one pass over the code, in which each word that is one of them and no member gets the
qualifier and all else stays as it is. So the order of the variables does not matter, nor whether one comes twice, and
qualifying them again changes nothing. -/
theorem shared_simultaneous (hqualifier : Token.isIdentifierText qualifier = true)
    (hnames : ∀ w ∈ names, Token.isIdentifierText w = true) (hne : qualifier ∉ names) (code : String) :
    shared names qualifier code =
        Code.toString ⟨(sharedRule qualifier names).rewrite (ofString code).tokens, (ofString code).tail⟩ ∧
      (∀ others, (∀ w, w ∈ others ↔ w ∈ names) → shared others qualifier code = shared names qualifier code) ∧
      shared names qualifier (shared names qualifier code) = shared names qualifier code := by
  have htokens := ofString_shared hqualifier hnames hne
  refine ⟨by rw [← htokens, toString_ofString], fun others hothers => ?_, ?_⟩
  · have hsame : sharedRule qualifier others = sharedRule qualifier names := by
      funext member w behind
      simp only [sharedRule, hothers w]
    rw [← toString_ofString (shared others _ _), ← toString_ofString (shared names _ _), htokens,
      ofString_shared hqualifier (fun w hw => hnames w ((hothers w).1 hw)) (fun h => hne ((hothers _).1 h)), hsame]
  · rw [← toString_ofString (shared names _ (shared _ _ _)), htokens, htokens,
      rewrite_sharedRule hqualifier hnames hne (opens_ofString code), ← htokens, toString_ofString]

/-- Variables given twice, members of both kinds and a comment between a variable and its member. -/
theorem shared_simultaneous_members :
    (∀ w ∈ ["a", "b", "a"], Token.isIdentifierText w = true) ∧
      shared ["a", "b", "a"] "M" "p->a=a+b/* a */.a*ab;" = "p->a=M.a+M.b/* a */.a*ab;" ∧
      shared ["b", "a"] "M" "p->a=a+b/* a */.a*ab;" = "p->a=M.a+M.b/* a */.a*ab;" ∧
      shared ["a", "b", "a"] "M" "p->a=M.a+M.b/* a */.a*ab;" = "p->a=M.a+M.b/* a */.a*ab;" := by
  have hnames : ∀ w ∈ ["a", "b", "a"], Token.isIdentifierText w = true := by decide
  obtain ⟨hone, hsame, hagain⟩ := shared_simultaneous (by decide : Token.isIdentifierText "M" = true) hnames (by decide)
    "p->a=a+b/* a */.a*ab;"
  have hwritten : Code.toString ⟨(sharedRule "M" ["a", "b", "a"]).rewrite (ofString "p->a=a+b/* a */.a*ab;").tokens,
      (ofString "p->a=a+b/* a */.a*ab;").tail⟩ = "p->a=M.a+M.b/* a */.a*ab;" := by
    decide +kernel
  rw [hwritten] at hone
  rw [hone] at hsame hagain
  exact ⟨hnames, hone, hsame _ (by simp [or_comm]), hagain⟩

end

/-! ## Idioms -/

section
variable {circuit w : String} {member : Bool} {behind : Follow} {name : List String}

/-- The words of the tables of functions, constants and truth values. -/
def tableWords : List String :=
  (mathFunctions ++ (constants ++ literals)).flatMap fun e => e.1 :: (ofString e.2).tokens.map (·.text)

/-- What becomes of a word in one pass. -/
def generalRule (circuit : String) : WordRule :=
  first (generalRules circuit)

lemma mem_generalRules {r : WordRule} (h : r ∈ generalRules circuit) : IsIdiom r ∨ r = gminRule circuit := by
  rcases mem_append.1 h with h | h
  · exact .inl (isIdiom_of_mem h)
  · exact .inr (mem_singleton.1 h)

lemma valid_generalRule (circuit : String) : (generalRule circuit).Valid := by
  intro member w behind c hbehind hc
  rw [generalRule, first_eq] at hc
  obtain ⟨r, hr, hc⟩ := exists_of_findSome?_eq_some hc
  rcases mem_generalRules hr with h | rfl
  · exact h.valid member w behind c hbehind hc
  · exact valid_gminRule circuit member w behind c hbehind hc

lemma generalRule_eq_gminRule (h : member ∨ w ∉ idioms) :
    generalRule circuit member w behind = gminRule circuit member w behind := by
  have hidioms : idiomRules.findSome? (· member w behind) = none := by
    refine findSome?_eq_none_iff.2 fun r hr => ?_
    rcases h with rfl | hw
    · exact (isIdiom_of_mem hr).sparesMembers w behind
    · obtain ⟨key, hkey, hkeyed⟩ := (isIdiom_of_mem hr).keyed
      exact hkeyed _ _ _ fun heq => hw (heq ▸ hkey)
  rw [generalRule, first_eq, generalRules, findSome?_append, hidioms]
  simp

lemma generalRule_arrow {field : String} (h : field ≠ "CKTgmin") :
    generalRule circuit member w (.arrow field) = generalRule circuit member w .other := by
  simp [generalRule, first_eq, generalRules, idiomRules, findSome?_append, findSome?_map, Function.comp_def, gminRule, reached,
    call, word, h]

lemma spares_generalRule (hhead : member ∨ ∀ w ∈ name.head?, w ∉ idioms) (hlast : ∀ w ∈ name.getLast?, w ≠ circuit) :
    (generalRule circuit).Spares member name := by
  induction name generalizing member with
  | nil => trivial
  | cons w ws ih =>
    have hrule (behind : Follow) : generalRule circuit member w behind = gminRule circuit member w behind :=
      generalRule_eq_gminRule (hhead.imp_right fun h => h w rfl)
    cases ws with
    | nil =>
      intro behind
      rw [hrule]
      exact keyedBy_reached _ _ _ _ _ _ (hlast w rfl)
    | cons u us =>
      refine ⟨?_, ih (.inl rfl) (by simpa [getLast?_cons_cons] using hlast)⟩
      rw [hrule]
      exact if_neg (by simp)

lemma spares_idiomName (hcircuit : circuit ∉ tableWords) (hname : IsIdiomName name) :
    (generalRule circuit).Spares member name := by
  have hheads : ∀ w ∈ ["Math", "Circuit", "true", "false"], w ∉ idioms := by decide
  have hlasts : ∀ w ∈ (mathNames ++ (constants ++ literals)).map (·.2), w ∈ tableWords := by decide +kernel
  refine spares_generalRule (.inr fun w hw => hheads w (hname.head w hw)) fun w hw heq => ?_
  exact hcircuit (heq ▸ hlasts w (hname.last w hw))

lemma apart_generalRule (hcircuit : circuit ∉ tableWords) (hgmin : circuit ≠ "Gmin") (ts : List Token) :
    Apart ts (generalRule circuit) (generalRule circuit) := by
  intro member t us _ c hc
  obtain ⟨-, hc⟩ := isIdentifier_of_change? hc
  rw [generalRule, first_eq] at hc
  obtain ⟨r, hr, hc⟩ := exists_of_findSome?_eq_some hc
  rcases mem_generalRules hr with h | rfl
  · exact spares_idiomName hcircuit (h.puts _ _ _ c hc)
  · rw [puts_reached _ _ _ _ _ _ c hc]
    refine spares_generalRule (.inr ?_) ?_
    · rintro _ ⟨⟩
      decide
    · rintro _ ⟨⟩
      exact hgmin.symm

lemma ofString_general_eq (hword : Token.isIdentifierText circuit) (hcircuit : circuit ∉ tableWords) (code : String) :
    ofString (general circuit code) = ⟨(generalRule circuit).rewrite (ofString code).tokens, (ofString code).tail⟩ := by
  have hopens := opens_ofString code
  have hidiom : ∀ r ∈ idiomRules, IsIdiom r := fun r hr => isIdiom_of_mem hr
  have hone : _ = (first idiomRules).rewrite _ := foldl_rewrite valid_keep (fun r hr => (hidiom r hr).valid) hopens (polite_keep _)
    (fun r hr => (hidiom r hr).sparesMembers.polite _) (fun r _ => apart_keep _ r) (pairwise_idiomRules _)
  rw [rewrite, rewriteFrom_none] at hone
  have hchosen {member : Bool} {w : String} {behind : Follow} {c : Change} (hc : first idiomRules member w behind = some c) :
      ∃ r ∈ idiomRules, r member w behind = some c := by
    rw [first_eq] at hc
    exact exists_of_findSome?_eq_some hc
  have hvalid : (first idiomRules).Valid := by
    intro member w behind c hbehind hc
    obtain ⟨r, hr, hc⟩ := hchosen hc
    exact (hidiom r hr).valid member w behind c hbehind hc
  have hmembers : (first idiomRules).SparesMembers := by
    intro w behind
    rw [first_eq, findSome?_eq_none_iff]
    exact fun r hr => (hidiom r hr).sparesMembers w behind
  have hapart : Apart (ofString code).tokens (first idiomRules) (gminRule circuit) := by
    intro member t us _ c hc
    obtain ⟨r, hr, hc⟩ := hchosen (isIdentifier_of_change? hc).2
    have hspares : (generalRule circuit).Spares member c.name := spares_idiomName hcircuit ((hidiom r hr).puts _ _ _ c hc)
    refine hspares.imp fun member w behind hnone => ?_
    rw [generalRule, first_eq, findSome?_eq_none_iff] at hnone
    exact hnone _ (mem_append_right _ mem_cons_self)
  have hboth : (first idiomRules).orElse (gminRule circuit) = generalRule circuit := by
    rw [generalRule, generalRules, first, first, foldl_append]
    rfl
  rw [ofString_general hword, generalRules, foldl_append, hone, ← hboth]
  exact congrArg (mk · _) (rewriteFrom_rewriteFrom hvalid (valid_gminRule circuit) hopens (hmembers.polite _) hapart false)

lemma rewrite_generalRule (hcircuit : circuit ∉ tableWords) (hgmin : circuit ≠ "Gmin") (hfield : circuit ≠ "CKTgmin")
    {ts : List Token} {rest : String} (hopens : Opens ts rest) :
    (generalRule circuit).rewrite ((generalRule circuit).rewrite ts) = (generalRule circuit).rewrite ts := by
  have hvalid := valid_generalRule circuit
  refine rewriteFrom_self hvalid hopens (apart_generalRule hcircuit hgmin ts) (fun member t us hus hnone => ?_) false
  obtain ⟨before, rfl⟩ := hus
  obtain ⟨-, -, -, -, hopens⟩ := opens_append.1 hopens
  unfold WordRule.change? at hnone ⊢
  split_ifs with hid
  · rw [if_pos hid] at hnone
    rcases hvalid.follow_rewriteFrom hopens with hsame | ⟨a, u, vs, c, w, -, -, hchange, hw, hbefore, hafter⟩
    · rwa [hsame]
    · obtain ⟨-, hrule⟩ := isIdentifier_of_change? hchange
      rw [generalRule_eq_gminRule (.inl rfl)] at hrule
      obtain ⟨⟨hu, -⟩, -⟩ := ite_none_right_eq_some.1 hrule
      rw [puts_reached _ _ _ _ _ _ c hrule] at hw
      obtain rfl : "state" = w := some.inj hw
      rw [hbefore, generalRule_arrow (hu ▸ hfield)] at hnone
      rwa [hafter, generalRule_arrow (by decide)]
  · rfl

/-- Naming idioms is one pass over the code: a function that is called, a constant and a truth value get their new names
where they are no members, the least conductance of the circuit gets its own everywhere, and all else stays as it is. Naming
them again changes nothing. -/
theorem general_simultaneous (hword : Token.isIdentifierText circuit = true) (hcircuit : circuit ∉ tableWords)
    (hgmin : circuit ≠ "Gmin") (hfield : circuit ≠ "CKTgmin") (code : String) :
    general circuit code = Code.toString ⟨(generalRule circuit).rewrite (ofString code).tokens, (ofString code).tail⟩ ∧
      general circuit (general circuit code) = general circuit code := by
  have htokens := ofString_general_eq hword hcircuit
  refine ⟨by rw [← htokens, toString_ofString], ?_⟩
  rw [← toString_ofString (general _ (general _ _)), htokens, htokens,
    rewrite_generalRule hcircuit hgmin hfield (opens_ofString code), ← htokens, toString_ofString]

/-- A circuit with the name that its least conductance gets, which a member reaches too, and an idiom within an idiom. -/
theorem general_simultaneous_state :
    "state" ∉ tableWords ∧
      general "state" "p->state->CKTgmin*exp(CHARGE)-q.log(TRUE)/state->CKTgmin;" =
        "p->state.Gmin*Math.Exp(Circuit.CHARGE)-q.log(true)/state.Gmin;" ∧
      general "state" "p->state.Gmin*Math.Exp(Circuit.CHARGE)-q.log(true)/state.Gmin;" =
        "p->state.Gmin*Math.Exp(Circuit.CHARGE)-q.log(true)/state.Gmin;" := by
  have hcircuit : "state" ∉ tableWords := by decide +kernel
  have hone := general_simultaneous (by decide) hcircuit (by decide) (by decide)
    "p->state->CKTgmin*exp(CHARGE)-q.log(TRUE)/state->CKTgmin;"
  have hwritten : Code.toString
      ⟨(generalRule "state").rewrite (ofString "p->state->CKTgmin*exp(CHARGE)-q.log(TRUE)/state->CKTgmin;").tokens,
        (ofString "p->state->CKTgmin*exp(CHARGE)-q.log(TRUE)/state->CKTgmin;").tail⟩ =
      "p->state.Gmin*Math.Exp(Circuit.CHARGE)-q.log(true)/state.Gmin;" := by
    decide +kernel
  rw [hwritten] at hone
  exact ⟨hcircuit, hone.1, hone.1 ▸ hone.2⟩

end

end DeviceForge.Reference
