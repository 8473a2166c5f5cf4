import DeviceForge.Iteration.Loops
import DeviceForge.Proofs.Code.Nesting
import DeviceForge.Proofs.Pattern.Fixed
/-!
# Cutting a function at its loops

`LoopMethod` is the text of a function with a loop over the models and in it a loop over the instances, with
whatever code around the loops and in any layout.
-/

namespace DeviceForge

open List Text

/-! ## Words in any layout -/

namespace Token

variable {op w u : String} {gap : Nat → String} {ws : List String}

def ofWord (lead w : String) : Token :=
  ⟨if isIdentifierText w then .identifier else .punct, lead, w⟩

def laid (gap : Nat → String) : List String → List Token
  | [] => []
  | w :: ws => ofWord (gap ws.length) w :: laid gap ws

def Meets (w w' : String) : Prop :=
  ∀ lead rest, Reads (ofWord lead w) (w'.toList ++ rest)

def loopOperators : List String :=
  ["(", ";", "!=", "=", "->", ")", "\x7b"]

lemma reads_loopOperator (h : op ∈ loopOperators) (lead : String) :
    (ofWord lead op).kind = .punct ∧ Reads (ofWord lead op) [] := by
  have hall : loopOperators.all (fun op => !isIdentifierText op && isLexeme .punct op) := by decide
  have hop := all_eq_true.1 hall op h
  simp only [Bool.and_eq_true, Bool.not_eq_true'] at hop
  have hkind : (ofWord lead op).kind = .punct := by simp [ofWord, hop.1]
  exact ⟨hkind, reads_of_isLexeme (by rw [hkind]; exact hop.2)⟩

lemma meets_word (hop : op ∈ loopOperators) (hw : isIdentifierText w) : Meets op w := by
  intro lead rest
  obtain ⟨c, cs, hcs, hc⟩ := exists_letter hw
  obtain ⟨hkind, hreads⟩ := reads_loopOperator hop lead
  rw [hcs, cons_append]
  exact reads_letter hreads hkind hc _

lemma meets_operator (hw : isIdentifierText w) (hop : op ∈ loopOperators) : Meets w op := by
  intro lead rest
  have hall : loopOperators.all (fun op => op.toList.head?.any (!isWordChar ·)) := by decide
  have hhead := all_eq_true.1 hall op hop
  refine reads_identifier (by simp [ofWord, hw]) hw fun c hc => ?_
  cases hcs : op.toList with
  | nil => simp [hcs] at hhead
  | cons d ds =>
    obtain rfl : d = c := by simpa [hcs] using hc
    simpa [hcs] using hhead

lemma meets_stop (hop : op ∈ loopOperators) {c : Char} {cs : List Char} (hw : w.toList = c :: cs)
    (hc : isStop c) : Meets op w := by
  intro lead rest
  obtain ⟨hkind, hreads⟩ := reads_loopOperator hop lead
  rw [hw, cons_append]
  exact reads_stop hreads (by rw [hkind]; rfl) hc _

lemma meets_of_words (h : isIdentifierText w ∧ u ∈ loopOperators ∨
    w ∈ loopOperators ∧ (isIdentifierText u ∨ u = ";" ∨ u = "\x7b")) : Meets w u := by
  rcases h with ⟨hw, hu⟩ | ⟨hw, hu | rfl | rfl⟩
  · exact meets_operator hw hu
  · exact meets_word hw hu
  · exact meets_stop hw rfl (by decide)
  · exact meets_stop hw rfl (by decide)

lemma segment_ofWord (lead w : String) : (ofWord lead w).kind.segment = .code := by
  unfold ofWord
  split <;> rfl

lemma reads_laid (hgap : ∀ i, Blank (gap i).toList) (h : Meets w u) (lead : String) (us : List String)
    (rest : List Char) : Reads (ofWord lead w) (chars (laid gap (u :: us)) ++ rest) := by
  have hmeets := h lead (chars (laid gap us) ++ rest)
  rw [laid, chars_cons, append_assoc, append_assoc]
  by_cases hnil : (gap us.length).toList = []
  · rw [show (ofWord (gap us.length) u).lead.toList = [] from hnil]
    exact hmeets
  · obtain ⟨c, cs, hcs⟩ := exists_cons_of_ne_nil hnil
    rw [show (ofWord (gap us.length) u).lead.toList = c :: cs from hcs]
    have hblank := hgap us.length c (by rw [hcs]; exact mem_cons_self)
    exact reads_of_follows hmeets (segment_ofWord _ _) (.inl (Lexeme.apart_cons hblank _))

lemma opens_laid (hgap : ∀ i, Blank (gap i).toList) (hchain : ws.IsChain Meets) {rest : List Char}
    (hlast : ∀ w ∈ ws.getLast?, ∀ lead, Reads (ofWord lead w) rest) : Opens (laid gap ws) rest := by
  induction ws with
  | nil => trivial
  | cons w ws ih =>
    refine ⟨hgap _, ?_, ih (isChain_of_isChain_cons hchain) fun u hu => hlast u ?_⟩
    · cases ws with
      | nil => exact hlast w rfl _
      | cons u us => exact reads_laid hgap (isChain_cons_cons.1 hchain).1 _ us rest
    · rw [getLast?_cons, show ws.getLast? = some u from hu]
      rfl

lemma not_comment_laid : ∀ t ∈ laid gap ws, t.isComment = false := by
  induction ws with
  | nil => simp [laid]
  | cons w ws ih =>
    refine forall_mem_cons.2 ⟨?_, ih⟩
    unfold ofWord
    split <;> rfl

end Token

/-- Words one behind the other, each after its gap; gaps are counted from the last word. -/
def Text.spread (gap : Nat → String) : List String → String
  | [] => ""
  | w :: ws => gap ws.length ++ w ++ spread gap ws

lemma Code.spell_laid (gap : Nat → String) (ws : List String) : spell (Token.laid gap ws) = spread gap ws := by
  induction ws with
  | nil => rfl
  | cons w ws ih => simp_all [Token.laid, spread, spell, Token.spelling, Token.ofWord]

/-! ## The loops -/

namespace Loops

variable {model next inst first lead : String} {p : Pattern} {us before rest : List Token}

def modelWords (model next : String) : List String :=
  ["(", ";", model, "!=", "NULL", ";", model, "=", model, "->", next, ")", "\x7b"]

def instanceWords (inst model first next : String) : List String :=
  ["(", inst, "=", model, "->", first, ";", inst, "!=", "NULL", ";", inst, "=", inst, "->", next, ")", "\x7b"]

open Token in
lemma chain_modelWords (hm : isIdentifierText model) (hn : isIdentifierText next) :
    (modelWords model next).IsChain Meets := by
  refine .imp (fun _ _ => meets_of_words) ?_
  simp [modelWords, loopOperators, hm, hn, show isIdentifierText "NULL" by decide]

open Token in
lemma chain_instanceWords (hi : isIdentifierText inst) (hm : isIdentifierText model)
    (hf : isIdentifierText first) (hn : isIdentifierText next) :
    (instanceWords inst model first next).IsChain Meets := by
  refine .imp (fun _ _ => meets_of_words) ?_
  simp [instanceWords, loopOperators, hi, hm, hf, hn, show isIdentifierText "NULL" by decide]

lemma elements_modelPattern : modelPattern.elements =
    [.literal "for", .literal "(", .literal ";", .single .identifier "var", .literal "!=", .literal "NULL", .literal ";",
      .single .identifier "var", .literal "=", .single .identifier "var", .literal "->", .single .identifier "next",
      .literal ")", .literal "\x7b"] := by
  decide +kernel

lemma elements_instancePattern (hm : Token.isIdentifierText model) : (instancePattern model).elements =
    [.literal "for", .literal "(", .single .identifier "var", .literal "=", .literal model, .literal "->",
      .single .identifier "first", .literal ";", .single .identifier "var", .literal "!=", .literal "NULL", .literal ";",
      .single .identifier "var", .literal "=", .single .identifier "var", .literal "->", .single .identifier "next",
      .literal ")", .literal "\x7b"] := by
  rw [instancePattern, Pattern.elements_words ["for", "(", "$var", "=", model, "->", "$first", ";", "$var", "!=", "NULL", ";",
    "$var", "=", "$var", "->", "$next", ")", "\x7b"] (String.toList_injective (by simp [toString]))
    (by simp [Pattern.words_identifier hm]; decide +kernel)]
  simp only [map_cons, Pattern.ofWord_identifier hm]
  rfl

/-! ## Searching for a loop -/

def avoids (text : String) : Pattern.Element → Bool
  | .literal w => w ≠ text
  | .single cls _ => cls = .identifier
  | .run _ => false

lemma not_takes {text : String} {e : Pattern.Element} (h : avoids text e) {t : Token} (htext : t.text = text)
    (hkind : t.kind = .punct) : e.takes t = false := by
  cases e with
  | literal w =>
    have hne : w ≠ text := by simpa [avoids] using h
    simp [Pattern.Element.takes, htext, Ne.symm hne]
  | single cls name =>
    have hcls : cls = .identifier := by simpa [avoids] using h
    simp [Pattern.Element.takes, hcls, Pattern.Class.accepts, hkind]
  | run name => cases h

structure IsLoop (p : Pattern) : Prop where
  two_le : 2 ≤ p.elements.length
  single : p.elements.all (!·.isRun) = true
  round : ∀ e ∈ p.elements.drop 2, avoids "(" e = true
  curly : ∀ e ∈ p.elements.dropLast, avoids "\x7b" e = true
  last : p.elements.getLast? = some (.literal "\x7b")

lemma isLoop_modelPattern : IsLoop modelPattern := by
  constructor <;> rw [elements_modelPattern] <;> decide

lemma isLoop_instancePattern (hm : Token.isIdentifierText model) : IsLoop (instancePattern model) := by
  have hround : model ≠ "(" := by rintro rfl; cases hm
  have hcurly : model ≠ "\x7b" := by rintro rfl; cases hm
  constructor <;> rw [elements_instancePattern hm] <;> simp [avoids, hround, hcurly, Pattern.Element.isRun]

lemma IsLoop.elements_ne_nil (hp : IsLoop p) : p.elements ≠ [] := by
  intro h
  have := hp.two_le
  simp [h] at this

lemma IsLoop.find?_brace (hp : IsLoop p) {brace : Token} (hbrace : brace.text = "\x7b")
    (hkind : brace.kind = .punct) (h : p.find? [] (us ++ [brace]) = none) (before rest : List Token) :
    p.find? before (us ++ brace :: rest) = p.find? (brace :: us.reverse ++ before) rest := by
  suffices hskip : p.find? before (us ++ [brace] ++ rest) = p.find? ((us ++ [brace]).reverse ++ before) rest by
    simpa using hskip
  refine Pattern.find?_skip hp.elements_ne_nil hp.single h ?_ before
  intro vs hne hvs hlen
  obtain ⟨ws, rfl⟩ : ∃ ws, vs = ws ++ [brace] := by
    obtain ⟨ws, v, rfl⟩ := eq_nil_or_concat' vs |>.resolve_left hne
    obtain ⟨xs, hxs⟩ := hvs
    rw [← append_assoc] at hxs
    obtain ⟨-, h⟩ := append_inj' hxs rfl
    exact ⟨ws, by rw [h]⟩
  rw [length_append, length_singleton] at hlen
  have hget : ws.length < p.elements.dropLast.length := by
    rw [length_dropLast]
    omega
  refine ⟨ws.length, p.elements.dropLast[ws.length], brace, ?_, ?_, not_takes (hp.curly _ (getElem_mem hget)) hbrace hkind⟩
  · rw [getElem_dropLast, getElem?_eq_getElem]
  · simp

lemma IsLoop.find?_loop (hp : IsLoop p) (h : p.find? [] us = none) {start paren : Token}
    (hstart : start.text = "for") (hparen : paren.text = "(") (hkind : paren.kind = .punct)
    (before rest : List Token) :
    p.find? before (us ++ start :: paren :: rest) = p.find? (us.reverse ++ before) (start :: paren :: rest) := by
  refine Pattern.find?_skip hp.elements_ne_nil hp.single h ?_ before
  intro vs hne _ hlen
  have hpos := length_pos_of_ne_nil hne
  by_cases hend : vs.length + 1 < p.elements.length
  · have hget : vs.length - 1 < (p.elements.drop 2).length := by
      rw [length_drop]
      omega
    refine ⟨vs.length + 1, (p.elements.drop 2)[vs.length - 1], paren, ?_, ?_,
      not_takes (hp.round _ (getElem_mem hget)) hparen hkind⟩
    · rw [getElem_drop, getElem?_eq_some_iff]
      exact ⟨hend, by congr 1; omega⟩
    · simp
  · refine ⟨vs.length, .literal "\x7b", start, ?_, by simp, by simp [Pattern.Element.takes, hstart]⟩
    rw [← hp.last, getLast?_eq_getElem?]
    congr 1
    omega

lemma IsLoop.find?_words (hp : IsLoop p) (h : p.find? [] us = none) {gap : Nat → String}
    {ws : List String} (hws : ws.head? = some "(") {m : Match}
    (hmatch : p.matchAt? (us.reverse ++ before) (Token.ofWord lead "for" :: (Token.laid gap ws ++ rest)) = some m) :
    p.find? before (us ++ Token.ofWord lead "for" :: (Token.laid gap ws ++ rest)) = some m := by
  obtain ⟨vs, rfl⟩ := head?_eq_some_iff.1 hws
  rw [Token.laid, cons_append] at hmatch ⊢
  rw [hp.find?_loop h rfl rfl rfl, Pattern.find?, hmatch]

structure Binds (m : Match) (before window after : List Token) (var : String) : Prop where
  before_eq : m.before = before
  window_eq : m.window = window
  after_eq : m.after = after
  text_eq : m.text "var" = var

lemma matchAt?_model (hm : Token.isIdentifierText model) (hn : Token.isIdentifierText next)
    (gap : Nat → String) (lead : String) (before rest : List Token) :
    ∃ m, modelPattern.matchAt? before (Token.ofWord lead "for" :: (Token.laid gap (modelWords model next) ++ rest)) = some m ∧
      Binds m before (Token.ofWord lead "for" :: Token.laid gap (modelWords model next)) rest model := by
  refine ⟨⟨before, Token.ofWord lead "for" :: Token.laid gap (modelWords model next), rest,
    [("var", ⟨3, [Token.ofWord (gap 10) model]⟩), ("next", ⟨11, [Token.ofWord (gap 2) next]⟩)]⟩, ?_, rfl, rfl, rfl, ?_⟩
  · rw [Pattern.matchAt?, elements_modelPattern]
    simp [modelWords, Token.laid, Pattern.matchElements, Token.ofWord, hm, hn, Pattern.Class.accepts, Pattern.bind, lookup_cons,
      Capture.text, Code.span, Code.spell]
  · simp [Match.text, Match.capture?, Capture.text, Code.span, Code.spell, Token.ofWord]

lemma matchAt?_instance (hi : Token.isIdentifierText inst)
    (hm : Token.isIdentifierText model) (hf : Token.isIdentifierText first)
    (hn : Token.isIdentifierText next) (gap : Nat → String) (lead : String) (before rest : List Token) :
    ∃ m, (instancePattern model).matchAt? before
        (Token.ofWord lead "for" :: (Token.laid gap (instanceWords inst model first next) ++ rest)) = some m ∧
      Binds m before (Token.ofWord lead "for" :: Token.laid gap (instanceWords inst model first next)) rest inst := by
  refine ⟨⟨before, Token.ofWord lead "for" :: Token.laid gap (instanceWords inst model first next), rest,
    [("var", ⟨2, [Token.ofWord (gap 16) inst]⟩), ("first", ⟨6, [Token.ofWord (gap 12) first]⟩),
      ("next", ⟨16, [Token.ofWord (gap 2) next]⟩)]⟩, ?_, rfl, rfl, rfl, ?_⟩
  · rw [Pattern.matchAt?, elements_instancePattern hm]
    simp [instanceWords, Token.laid, Pattern.matchElements, Token.ofWord, hi, hf, hn, Pattern.Class.accepts, Pattern.bind, lookup_cons,
      Capture.text, Code.span, Code.spell]
  · simp [Match.text, Match.capture?, Capture.text, Code.span, Code.spell, Token.ofWord]

end Loops

/-! ## Functions with two loops -/

/-- The text of a function with a loop over the models and, in it, a loop over the instances of a model. What
stands around the loops is code whose literals and comments are closed and whose braces are balanced. -/
structure LoopMethod where
  /-- What stands before the brace of the function. -/
  head : String
  /-- What stands between the brace of the function and the first loop. -/
  definition : String
  /-- What stands in the first loop before the second. -/
  before : String
  /-- What stands in the second loop. -/
  body : String
  /-- What stands in the first loop behind the second. -/
  behind : String
  /-- What stands behind the first loop. -/
  rest : String
  model : String
  nextModel : String
  inst : String
  firstInst : String
  nextInst : String
  modelGap : Nat → String
  instGap : Nat → String
  identifiers : ∀ w ∈ [model, nextModel, inst, firstInst, nextInst], Token.isIdentifierText w = true
  blank_modelGap : ∀ i, Token.Blank (modelGap i).toList
  blank_instGap : ∀ i, Token.Blank (instGap i).toList
  whole : ∀ s ∈ [head, definition, before, body, behind], Code.Whole s
  balanced : ∀ s ∈ [before, body, behind], Code.Balanced .curly (Code.ofString s).tokens
  /-- The word `for` of a loop stands apart from the words before it. -/
  apart : ∀ s ∈ [definition, before], ¬Code.EndsInWord s
  /-- The first brace is that of the function. -/
  brace : ∀ t ∈ (Code.ofString head).tokens, t.text ≠ "\x7b"
  /-- The loops are the first of their kind. -/
  no_model : ∀ s ∈ [head ++ "\x7b", definition], Loops.modelPattern.occursIn s = false
  no_instance : (Loops.instancePattern model).occursIn before = false

namespace LoopMethod

def modelLoop (x : LoopMethod) : String :=
  "for" ++ Text.spread x.modelGap (Loops.modelWords x.model x.nextModel)

def instLoop (x : LoopMethod) : String :=
  "for" ++ Text.spread x.instGap (Loops.instanceWords x.inst x.model x.firstInst x.nextInst)

def text (x : LoopMethod) : String :=
  x.head ++ ("\x7b" ++ (x.definition ++ (x.modelLoop ++ (x.before ++ (x.instLoop ++ (x.body ++ ("\x7d" ++ (x.behind ++
    ("\x7d" ++ (x.rest ++ "\x7d"))))))))))

def instTokens (x : LoopMethod) : List Token :=
  Token.ofWord (Code.ofString x.before).tail "for" ::
    Token.laid x.instGap (Loops.instanceWords x.inst x.model x.firstInst x.nextInst)

def content (x : LoopMethod) : Code :=
  let body := Code.ofString x.body
  let behind := Code.ofString x.behind
  ⟨(Code.ofString x.before).tokens ++ (x.instTokens ++ (body.tokens ++ ⟨.punct, body.tail, "\x7d"⟩ :: behind.tokens)), behind.tail⟩

end LoopMethod

namespace Loops

open Token in
lemma ofString_loop {gap : Nat → String} (hgap : ∀ i, Blank (gap i).toList) {ws : List String} (hchain : ws.IsChain Meets)
    (hfirst : ws.head? = some "(") (hlast : ws.getLast? = some "\x7b") (s : String) :
    Code.ofString ("for" ++ spread gap ws ++ s) =
      ⟨ofWord "" "for" :: (laid gap ws ++ (Code.ofString s).tokens), (Code.ofString s).tail⟩ := by
  have hopens : Opens (laid gap ws) s.toList := by
    refine opens_laid hgap hchain fun w hw lead => ?_
    obtain rfl : "\x7b" = w := by simpa [hlast] using hw
    exact ⟨'\x7b', [], by simp [ofWord], by decide, extent_bracket (by decide) _⟩
  have hall : Opens (ofWord "" "for" :: laid gap ws) s.toList := by
    obtain ⟨us, rfl⟩ := head?_eq_some_iff.1 hfirst
    have hfor : Meets "for" "(" := meets_operator (by decide) (by decide)
    exact ⟨by simp [ofWord, Blank], reads_laid hgap hfor "" us _, hopens⟩
  have hspell : Code.spell (ofWord "" "for" :: laid gap ws) = "for" ++ spread gap ws := by
    rw [← Code.spell_laid]
    simp [Code.spell, Token.spelling, ofWord]
  have h := Code.ofString_opens (Code.opens_of_blank hall (forall_mem_cons.2 ⟨rfl, not_comment_laid⟩))
  rwa [hspell] at h

lemma tokens_text (x : LoopMethod) : let h := Code.ofString x.head
    let d := Code.ofString x.definition
    (Code.ofString x.text).tokens =
      h.tokens ++ ⟨.punct, h.tail, "\x7b"⟩ :: (d.tokens ++ Token.ofWord d.tail "for" ::
        (Token.laid x.modelGap (modelWords x.model x.nextModel) ++ (x.content.tokens ++ ⟨.punct, x.content.tail, "\x7d"⟩ ::
          (Code.ofString (x.rest ++ "\x7d")).tokens))) := by
  obtain ⟨hm, hn, hi, hf, hk⟩ : _ ∧ _ ∧ _ ∧ _ ∧ _ := by simpa using x.identifiers
  obtain ⟨hhead, hdef, hbefore, hbody, hbehind⟩ : _ ∧ _ ∧ _ ∧ _ ∧ _ := by simpa using x.whole
  obtain ⟨hapart, hapart'⟩ : _ ∧ _ := by simpa using x.apart
  have hletter : ('f'.isAlpha || 'f' = '_') = true := by decide
  have hmodel : x.modelLoop.toList.head? = some 'f' := by simp [LoopMethod.modelLoop]
  have hinst : x.instLoop.toList.head? = some 'f' := by simp [LoopMethod.instLoop]
  intro h d
  rw [LoopMethod.text, Code.ofString_whole_stop hhead rfl (by decide), Code.ofString_bracket rfl (by decide),
    Code.ofString_whole_letter hdef hapart hmodel hletter, LoopMethod.modelLoop,
    ofString_loop x.blank_modelGap (chain_modelWords hm hn) rfl rfl, Code.ofString_whole_letter hbefore hapart' hinst hletter,
    LoopMethod.instLoop, ofString_loop x.blank_instGap (chain_instanceWords hi hm hf hk) rfl rfl,
    Code.ofString_whole_stop hbody rfl (by decide), Code.ofString_bracket rfl (by decide),
    Code.ofString_whole_stop hbehind rfl (by decide), Code.ofString_bracket rfl (by decide)]
  simp [Code.append_cons, Token.ofWord, LoopMethod.content, LoopMethod.instTokens, h, d]

lemma balanced_content (x : LoopMethod) : Code.Balanced .curly x.content.tokens := by
  obtain ⟨hm, -, hi, hf, hk⟩ : _ ∧ _ ∧ _ ∧ _ ∧ _ := by simpa using x.identifiers
  obtain ⟨hbefore, hbody, hbehind⟩ : _ ∧ _ ∧ _ := by simpa using x.balanced
  have hne {w : String} (hw : Token.isIdentifierText w) : w ≠ "\x7b" ∧ w ≠ "\x7d" := by
    constructor <;> rintro rfl <;> cases hw
  have hloop : Code.level .curly 0 x.instTokens = some 1 := by
    simp [LoopMethod.instTokens, Code.level, Code.levelBehind, instanceWords, Token.laid, Token.ofWord, hne hm, hne hi, hne hf, hne hk,
      Bracket.opening, Bracket.closing, Char.toString]
  rw [Code.Balanced, LoopMethod.content, Code.level_append hbefore, Code.level_append hloop,
    Code.level_append (Code.level_add hbody 1)]
  refine Code.level_cons.2 ⟨0, ?_, hbehind⟩
  simp [Code.levelBehind, Bracket.closing, Char.toString]

lemma find?_of_not_occurs {p : Pattern} {s : String} (h : p.occursIn s = false) : p.find? [] (Code.ofString s).tokens = none := by
  simpa [Pattern.occursIn] using h

lemma find?_model (x : LoopMethod) : let h := Code.ofString x.head
    let d := Code.ofString x.definition
    ∃ m, modelPattern.find? [] (Code.ofString x.text).tokens = some m ∧
      Binds m (h.tokens ++ ⟨.punct, h.tail, "\x7b"⟩ :: d.tokens).reverse
        (Token.ofWord d.tail "for" :: Token.laid x.modelGap (modelWords x.model x.nextModel))
        (x.content.tokens ++ ⟨.punct, x.content.tail, "\x7d"⟩ :: (Code.ofString (x.rest ++ "\x7d")).tokens) x.model := by
  obtain ⟨hm, hn, -⟩ : _ ∧ _ ∧ _ := by simpa using x.identifiers
  obtain ⟨hhead, hdefinition⟩ : _ ∧ _ := by simpa using x.no_model
  have hwhole : Code.Whole x.head := x.whole _ (by simp)
  intro h d
  have hbrace : (Code.ofString (x.head ++ "\x7b")).tokens = h.tokens ++ [⟨.punct, h.tail, "\x7b"⟩] := by
    have happend := Code.ofString_whole_stop (w := "\x7b") hwhole rfl (by decide) ""
    have hsingle := Code.ofString_bracket (w := "\x7b") rfl (by decide) ""
    rw [String.append_empty] at happend hsingle
    rw [happend, hsingle, Code.append_cons]
    simp [h, show (Code.ofString "").tokens = [] by decide +kernel]
  have hnone := find?_of_not_occurs hhead
  rw [hbrace] at hnone
  obtain ⟨m, hmatch, hbinds⟩ :=
    matchAt?_model hm hn x.modelGap d.tail (d.tokens.reverse ++ (⟨.punct, h.tail, "\x7b"⟩ :: h.tokens.reverse ++ []))
      (x.content.tokens ++ ⟨.punct, x.content.tail, "\x7d"⟩ :: (Code.ofString (x.rest ++ "\x7d")).tokens)
  refine ⟨m, ?_, by simpa using hbinds⟩
  rw [tokens_text, isLoop_modelPattern.find?_brace rfl rfl hnone,
    isLoop_modelPattern.find?_words (find?_of_not_occurs hdefinition) rfl hmatch]

lemma find?_instance (x : LoopMethod) : let b := Code.ofString x.body
    ∃ m, (instancePattern x.model).find? [] x.content.tokens = some m ∧
      Binds m (Code.ofString x.before).tokens.reverse x.instTokens
        (b.tokens ++ ⟨.punct, b.tail, "\x7d"⟩ :: (Code.ofString x.behind).tokens) x.inst := by
  obtain ⟨hm, -, hi, hf, hk⟩ : _ ∧ _ ∧ _ ∧ _ ∧ _ := by simpa using x.identifiers
  intro b
  obtain ⟨m, hmatch, hbinds⟩ := matchAt?_instance hi hm hf hk x.instGap (Code.ofString x.before).tail
    ((Code.ofString x.before).tokens.reverse ++ []) (b.tokens ++ ⟨.punct, b.tail, "\x7d"⟩ :: (Code.ofString x.behind).tokens)
  refine ⟨m, (isLoop_instancePattern hm).find?_words (find?_of_not_occurs x.no_instance) rfl hmatch, ?_⟩
  rwa [append_nil] at hbinds

lemma definitionBefore_eq (x : LoopMethod) {m : Match} {window after : List Token} {var : String}
    (h : Binds m ((Code.ofString x.head).tokens ++ ⟨.punct, (Code.ofString x.head).tail, "\x7b"⟩ :: (Code.ofString x.definition).tokens).reverse
      (Token.ofWord (Code.ofString x.definition).tail "for" :: window) after var) : definitionBefore m = trim x.definition := by
  have hdrop : m.before.reverse.dropWhile (·.text ≠ "\x7b") =
      ⟨.punct, (Code.ofString x.head).tail, "\x7b"⟩ :: (Code.ofString x.definition).tokens := by
    rw [h.before_eq, reverse_reverse, dropWhile_append_of_pos (by simpa using x.brace), dropWhile_cons_of_neg (by simp)]
  have hlead : m.window.head?.elim "" (·.lead) = (Code.ofString x.definition).tail := by rw [h.window_eq]; rfl
  rw [definitionBefore, hdrop, hlead]
  exact congrArg trim (Code.toString_ofString x.definition)

/-- A function with two loops is cut into the parts that it is made of. -/
theorem ofMethod_text (x : LoopMethod) (name : String) :
    ofMethod x.text name = .ok {
      definition := Text.trim x.definition
      modelCode := "\n".intercalate ([Text.trim x.before, Text.trim x.behind].filter (!·.isEmpty))
      deviceCode := Text.trim x.body
      modelVariable := x.model
      instanceVariable := x.inst
      circuit := circuitOf x.text
      arguments := Signature.parameters x.text (some name) } := by
  obtain ⟨-, hbody, -⟩ : _ ∧ _ ∧ _ := by simpa using x.balanced
  obtain ⟨outer, houter, hmodel⟩ := find?_model x
  obtain ⟨inner, hinner, hinst⟩ := find?_instance x
  have hcontent : blockBehind outer = .ok (x.content, (Code.ofString (x.rest ++ "\x7d")).tokens) := by
    rw [blockBehind, hmodel.after_eq, Code.block?_append (balanced_content x) rfl]
  have hinside : blockBehind inner = .ok (Code.ofString x.body, (Code.ofString x.behind).tokens) := by
    rw [blockBehind, hinst.after_eq, Code.block?_append hbody rfl]
  have hbefore : textBefore inner = x.before := by
    rw [textBefore, hinst.before_eq, hinst.window_eq, List.reverse_reverse]
    exact Code.toString_ofString x.before
  have hbehind : Code.toString ⟨(Code.ofString x.behind).tokens, x.content.tail⟩ = x.behind :=
    Code.toString_ofString x.behind
  simp only [ofMethod, bind, Except.bind, pure, Except.pure, houter, hcontent, hmodel.text_eq, hinner, hinside, hinst.text_eq, hbefore,
    hbehind, definitionBefore_eq x hmodel, Code.toString_ofString]

/-- Braces in comments and literals, and another block in the first loop. -/
theorem ofMethod_text_nested :
    let text := "int load(M *in)\x7b // \x7b\n M *m; for( ;m != NULL; m = m->next) \x7b\n c = '\x7d'; if(c) \x7b f(); \x7d " ++
      "for(i=m->first;i!=NULL;i=i->next)\x7b /* \x7d */ g(i); \x7d\n\x7d return 0;\x7d"
    (ofMethod text "load").map (fun x => (x.definition, x.modelCode, x.deviceCode, x.modelVariable, x.instanceVariable)) =
      .ok ("// \x7b\n M *m;", "c = '\x7d'; if(c) \x7b f(); \x7d", "/* \x7d */ g(i);", "m", "i") := by
  intro text
  let x : LoopMethod := {
    head := "int load(M *in)"
    definition := " // \x7b\n M *m; "
    before := "\n c = '\x7d'; if(c) \x7b f(); \x7d "
    body := " /* \x7d */ g(i); "
    behind := "\n"
    rest := " return 0;"
    model := "m", nextModel := "next", inst := "i", firstInst := "first", nextInst := "next"
    modelGap := fun i => if i ∈ [0, 4, 5, 6, 8, 9, 11] then " " else ""
    instGap := fun _ => ""
    identifiers := by decide
    blank_modelGap := fun i => by split <;> simp [Token.Blank, Text.isBlank]
    blank_instGap := fun i => by simp [Token.Blank]
    whole := by decide +kernel
    balanced := by decide +kernel
    apart := by decide +kernel
    brace := by decide +kernel
    no_model := by decide +kernel
    no_instance := by decide +kernel }
  have htext : x.text = text := by decide +kernel
  have h := ofMethod_text x "load"
  rw [htext] at h
  rw [h]
  exact congrArg Except.ok (by decide +kernel)

end Loops

end DeviceForge
