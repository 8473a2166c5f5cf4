import DeviceForge.Iteration
import DeviceForge.Proofs.Code.Leads
import DeviceForge.Proofs.Code.Parts
import DeviceForge.Proofs.Iteration.Loops
/-!
# Layout and comments do not matter to the analysis

Two texts with the same code tokens, in whatever layout and with whatever comments, are read alike
(`ofMethod_alike`): both fail with the same error up to its offset, or both are cut into parts with the same code
tokens, and the variables, their types and the findings are the same.
-/

namespace DeviceForge

open List Option

/-! ## Declarations and uses -/

namespace Declarator

lemma extent_leadless (depth : Nat) (ts : List Token) : extent depth (ts.map Token.leadless) = extent depth ts := by
  induction ts generalizing depth with
  | nil => rfl
  | cons t ts ih =>
    simp only [map_cons, extent, Token.isOpening_leadless, Token.isClosing_leadless, Token.text_leadless, ih]
    rfl

lemma names_eq (ts : List Token) : names ts =
      match ts.dropWhile (·.text = "*") with
      | [] => ([], [])
      | t :: rest =>
        if t.isIdentifier then
          match rest.drop (extent 0 rest) with
          | [] => ([t.text], [])
          | comma :: more =>
            if comma.text = "," then (t.text :: (names more).1, (names more).2) else ([t.text], comma :: more)
        else ([], t :: rest) := by
  fun_cases names ts with
  | case1 h => simp [h]
  | case2 t rest h hid h' => simp [h, hid, h']
  | case3 t rest h hid comma more h' hcomma _ found behind hnames => simp [h, hid, h', hcomma, hnames]
  | case4 t rest h hid comma more h' hcomma => simp [h, hid, h', hcomma]
  | case5 t rest h hid => simp [h, hid]

lemma names_leadless (ts : List Token) :
    names (ts.map Token.leadless) = ((names ts).1, (names ts).2.map Token.leadless) := by
  have hstar (us : List Token) := Token.dropWhile_leadless (p := (·.text = "*")) (fun t => rfl) us
  fun_induction names ts with
  | case1 ts h => rw [names_eq, hstar, h]; rfl
  | case2 ts t rest h hid h' => 
    rw [names_eq, hstar, h]
    simp [hid, extent_leadless, ← map_drop, h']
  | case3 ts t rest h hid comma more h' hcomma hlt found behind hnames ih =>
    rw [names_eq, hstar, h]
    simp [hid, extent_leadless, ← map_drop, h', hcomma, ih, hnames]
  | case4 ts t rest h hid comma more h' hcomma =>
    rw [names_eq, hstar, h]
    simp [hid, extent_leadless, ← map_drop, h', hcomma]
  | case5 ts t rest h hid =>
    rw [names_eq, hstar, h]
    simp [hid]

lemma statement?_leadless (ts : List Token) : statement? (ts.map Token.leadless) = statement? ts := by
  rw [statement?, statement?, Token.dropWhile_leadless fun t => rfl]
  cases ts.dropWhile fun t => qualifiers.contains t.text with
  | nil => rfl
  | cons t rest =>
    have htypes := Token.dropWhile_leadless (p := fun t => (LocalType.ofWord? t.text).isSome) (fun t => rfl) rest
    simp only [map_cons, Token.text_leadless, htypes, names_leadless, length_map]

lemma scan_leadless (skip : Nat) (previous : Option Token) (ts : List Token) :
    scan skip (previous.map Token.leadless) (ts.map Token.leadless) = scan skip previous ts := by
  have hprevious : startsBehind (previous.map Token.leadless) = startsBehind previous := by cases previous <;> rfl
  induction ts generalizing skip previous with
  | nil => rfl
  | cons t ts ih =>
    have ih (skip : Nat) := ih skip (some t) rfl
    rw [map_some] at ih
    have hstatement := statement?_leadless (t :: ts)
    rw [map_cons] at hstatement
    cases skip with
    | succ skip => exact ih skip
    | zero =>
      rw [map_cons, scan, scan, hprevious, hstatement, ih]
      cases (if startsBehind previous = true then statement? (t :: ts) else none) with
      | none => rfl
      | some found => simp only [ih]

lemma all_alike {code code' : String} (h : Code.shapes code = Code.shapes code') : all code = all code' := by
  have hscan (s : String) := scan_leadless 0 none (Code.ofString s).tokens
  simp only [map_none] at hscan
  rw [all, all, ← hscan code, ← hscan code', Code.twins_tokens h]

end Declarator

lemma assignments_leadless (before ts : List Token) :
    assignments (before.map Token.leadless) (ts.map Token.leadless) = assignments before ts := by
  induction ts generalizing before with
  | nil => rfl
  | cons t ts ih =>
    have ih := ih (t :: before)
    have hnext : (ts.map Token.leadless).head?.any (·.text = "=") = ts.head?.any (·.text = "=") := by cases ts <;> rfl
    rw [map_cons] at ih
    simp only [map_cons, assignments, ih, hnext, followsMember_leadless, Token.isIdentifier_leadless, Token.text_leadless,
      length_map]

lemma firstUse?_leadless (name : String) (before ts : List Token) :
    firstUse? name (before.map Token.leadless) (ts.map Token.leadless) = firstUse? name before ts := by
  induction ts generalizing before with
  | nil => rfl
  | cons t ts ih =>
    have ih := ih (t :: before)
    rw [map_cons] at ih
    simp only [map_cons, firstUse?, ih, followsMember_leadless, Token.isIdentifier_leadless, Token.text_leadless, length_map]
    rfl

lemma readsFirst_leadless (name : String) (ts : List Token) : readsFirst name (ts.map Token.leadless) = readsFirst name ts := by
  have hfirst := firstUse?_leadless name [] ts
  have hassign := assignments_leadless [] ts
  rw [map_nil] at hfirst hassign
  rw [readsFirst, readsFirst, hfirst, hassign]

/-- Two functions cut into parts with the same code tokens, with the same names. -/
structure Loops.Alike (l l' : Loops) : Prop where
  definition : Code.shapes l.definition = Code.shapes l'.definition
  modelCode : Code.shapes l.modelCode = Code.shapes l'.modelCode
  deviceCode : Code.shapes l.deviceCode = Code.shapes l'.deviceCode
  modelVariable : l.modelVariable = l'.modelVariable
  instanceVariable : l.instanceVariable = l'.instanceVariable
  circuit : l.circuit = l'.circuit
  arguments : l.arguments = l'.arguments

namespace Variables

section
variable {code code' : String} (h : Code.shapes code = Code.shapes code')

include h

lemma declares_alike : declares code = declares code' := by
  funext name
  rw [declares, declares, Declarator.all_alike h]

lemma assignedIn_alike : assignedIn code = assignedIn code' := by
  have hassign (s : String) := assignments_leadless [] (Code.ofString s).tokens
  rw [assignedIn, assignedIn, ← hassign code, ← hassign code', Code.twins_tokens h]

lemma isShared_alike : isShared code = isShared code' := by
  funext name
  rw [isShared, isShared, declares_alike h, ← readsFirst_leadless, Code.twins_tokens h, readsFirst_leadless]

end

section
variable {l l' : Loops} (h : l.Alike l')

include h

lemma addModel_alike : addModel l = addModel l' := by
  funext sorted name
  rw [addModel, addModel, h.arguments, declares_alike h.modelCode, isShared_alike h.deviceCode]

lemma addDevice_alike : addDevice l = addDevice l' := by
  funext sorted name
  rw [addDevice, addDevice, h.arguments, declares_alike h.deviceCode]

lemma ofLoops_alike : ofLoops l = ofLoops l' := by
  have htyping : Typing.ofLoops l = Typing.ofLoops l' := by
    simp only [Typing.ofLoops, map_cons, map_nil, Typing.scope, Declarator.all_alike h.definition,
      Declarator.all_alike h.modelCode, Declarator.all_alike h.deviceCode]
  rw [ofLoops, ofLoops, htyping, assignedIn_alike h.modelCode, assignedIn_alike h.deviceCode, addModel_alike h, addDevice_alike h]

end

end Variables

/-! ## Cutting at the loops -/

/-- An error without the place where it was found. -/
def Error.withoutOffset : Error → Error
  | .unbalanced b _ => .unbalanced b 0
  | .notABracket found _ => .notABracket found 0
  | .missingSwitch _ => .missingSwitch 0
  | e => e

namespace Loops

open Code

variable {s part s' : String} {m outer inner : Match}

lemma isIdentifierText_var (h : modelPattern.find? [] (ofString s).tokens = some m) :
    Token.isIdentifierText (m.text "var") := by
  obtain ⟨passed, rest, htokens, hmatch⟩ := Pattern.exists_of_find? h
  rw [Pattern.matchAt?] at hmatch
  split at hmatch
  · cases hmatch
  obtain ⟨⟨n, captures⟩, helements, rfl⟩ := map_eq_some_iff.1 hmatch
  rw [elements_modelPattern] at helements
  -- the fourth token is captured first, and stays what the name stands for
  rcases rest with _ | ⟨a, _ | ⟨b, _ | ⟨c, _ | ⟨t, more⟩⟩⟩⟩
  · cases helements
  · simp [Pattern.matchElements] at helements
  · simp [Pattern.matchElements] at helements
  · simp [Pattern.matchElements] at helements
  · simp only [Pattern.matchElements, ite_none_right_eq_some] at helements
    obtain ⟨-, -, -, hkind, helements⟩ := helements
    obtain ⟨mid, hbind, hmore⟩ := bind_eq_some_iff.1 helements
    obtain rfl : [("var", ⟨3, [t]⟩)] = mid := some.inj hbind
    have hvar : captures.lookup "var" = some ⟨3, [t]⟩ := Pattern.lookup_matchElements hmore rfl
    have hidentifier : t.kind = .identifier := by simpa [Pattern.Class.accepts] using hkind
    obtain ⟨more, hreads⟩ := (opens_ofString s).reads t (by rw [htokens]; simp)
    change Token.isIdentifierText (Match.text ⟨_, _, _, captures⟩ "var")
    rw [Match.text_of_lookup hvar]
    exact Token.isIdentifierText_of_reads hreads hidentifier

lemma shapes_trim {ts : List Token} (h : Part s ts part) (hs : Spaceless s) :
    Plain (Text.trim part) ∧ shapes (Text.trim part) = ts.map Token.bare := by
  obtain ⟨hplain, hshapes⟩ := h.plain hs
  exact ⟨hplain.trim.1, hplain.trim.2.trans hshapes⟩

lemma shapes_definitionBefore (hs : Spaceless s)
    (htokens : (ofString s).tokens = m.before.reverse ++ (m.window ++ m.after)) (hne : m.window ≠ []) :
    shapes (definitionBefore m) = ((m.before.reverse.dropWhile (·.text ≠ "\x7b")).drop 1).map Token.bare := by
  rw [definitionBefore]
  cases hdrop : m.before.reverse.dropWhile (·.text ≠ "\x7b") with
  | nil => exact shapes_empty
  | cons p ts =>
    obtain ⟨w, ws, hw⟩ := List.exists_cons_of_ne_nil hne
    have hbefore := List.takeWhile_append_dropWhile (p := (·.text ≠ "\x7b")) (l := m.before.reverse)
    rw [hdrop] at hbefore
    refine (shapes_trim ⟨m.before.reverse.takeWhile (·.text ≠ "\x7b"), p, w, ws ++ m.after, ?_, by rw [hw]; rfl⟩ hs).2
    rw [htokens, hw]
    conv_lhs => rw [← hbefore]
    simp only [List.append_assoc, List.cons_append, List.drop_succ_cons, List.drop_zero]

lemma parts_of_cut {inside body rest more : List Token} {close close' : Token}
    (htokens : (ofString s).tokens = outer.before.reverse ++ (outer.window ++ (inside ++ close :: more)))
    (hne : outer.window ≠ []) (hinside : inside = inner.before.reverse ++ (inner.window ++ (body ++ close' :: rest)))
    (hne' : inner.window ≠ []) :
    Part s inner.before.reverse (textBefore inner) ∧ Part s rest (Code.toString ⟨rest, close.lead⟩) ∧
      Part s body (Code.toString ⟨body, close'.lead⟩) := by
  obtain ⟨ws, p, hp⟩ := eq_nil_or_concat' outer.window |>.resolve_left hne
  obtain ⟨vs, q, hq⟩ := eq_nil_or_concat' inner.window |>.resolve_left hne'
  obtain ⟨w, us, hw⟩ := exists_cons_of_ne_nil hne'
  rw [hinside, hp] at htokens
  refine ⟨⟨outer.before.reverse ++ ws, p, w, us ++ (body ++ close' :: rest) ++ close :: more, ?_, by rw [textBefore, hw]; rfl⟩,
    ⟨outer.before.reverse ++ ws ++ p :: (inner.before.reverse ++ inner.window ++ body), close', close, more, ?_, rfl⟩,
    ⟨outer.before.reverse ++ ws ++ p :: (inner.before.reverse ++ vs), q, close', rest ++ close :: more, ?_, rfl⟩⟩
  · rw [htokens, hw]
    simp
  · rw [htokens]
    simp
  · rw [htokens, hq]
    simp

lemma circuitOf_alike (h : shapes s = shapes s') : circuitOf s = circuitOf s' := by
  have hsingle : (Pattern.ofString "CKTcircuit * $ckt").elements.all (!·.isRun) := by decide +kernel
  rw [circuitOf, circuitOf]
  obtain ⟨hnone, hnone'⟩ | ⟨m, m', hm, hm', htwins⟩ := Pattern.find?_twins hsingle (twins_tokens h)
  · rw [hnone, hnone']
  · rw [hm, hm']
    exact htwins.text "ckt"

/-! ### The ways a cut ends -/

section
variable {s : String} (name : String) {outer inner : Match} {inside body rest more : List Token} {close close' : Token}

lemma ofMethod_noModelLoop (h : modelPattern.find? [] (ofString s).tokens = none) :
    ofMethod s name = .error (.missingModelLoop name) := by
  simp only [ofMethod, h]
  rfl

lemma ofMethod_openModelLoop (houter : modelPattern.find? [] (ofString s).tokens = some outer)
    (h : enclosed? .curly outer.after = none) : ofMethod s name = .error (.unbalanced .curly (outer.stop - 1)) := by
  simp only [ofMethod, houter, blockBehind, block?, h]
  rfl

variable (houter : modelPattern.find? [] (ofString s).tokens = some outer)
  (hinside : enclosed? .curly outer.after = some (inside, close, more))

include houter hinside

lemma ofMethod_noInstanceLoop (h : (instancePattern (outer.text "var")).find? [] inside = none) :
    ofMethod s name = .error (.missingInstanceLoop name) := by
  simp only [ofMethod, houter, blockBehind, block?, hinside, map_some, Except.bind, bind, h]
  rfl

variable (hinner : (instancePattern (outer.text "var")).find? [] inside = some inner)

include hinner

lemma ofMethod_openInstanceLoop (h : enclosed? .curly inner.after = none) : ofMethod s name = .error (.unbalanced .curly (inner.stop - 1)) := by
  simp only [ofMethod, houter, blockBehind, block?, hinside, map_some, Except.bind, bind, hinner, h]
  rfl

lemma ofMethod_cut (hbody : enclosed? .curly inner.after = some (body, close', rest)) : ofMethod s name = .ok {
      definition := definitionBefore outer
      modelCode := "\n".intercalate
        ([Text.trim (textBefore inner), Text.trim (Code.toString ⟨rest, close.lead⟩)].filter (!·.isEmpty))
      deviceCode := Text.trim (Code.toString ⟨body, close'.lead⟩)
      modelVariable := outer.text "var"
      instanceVariable := inner.text "var"
      circuit := circuitOf s
      arguments := Signature.parameters s (some name) } := by
  simp only [ofMethod, houter, blockBehind, block?, hinside, map_some, Except.bind, bind, hinner, hbody]
  rfl

lemma shapes_cut (hs : Spaceless s)
    (hbody : enclosed? .curly inner.after = some (body, close', rest)) {l : Loops} (hl : ofMethod s name = .ok l) :
    shapes l.definition = ((outer.before.reverse.dropWhile (·.text ≠ "\x7b")).drop 1).map Token.bare ∧
      shapes l.modelCode = inner.before.reverse.map Token.bare ++ rest.map Token.bare ∧
      shapes l.deviceCode = body.map Token.bare := by
  obtain ⟨htokens, hne, -⟩ := Pattern.split_of_find? isLoop_modelPattern.single houter
  obtain ⟨htokens', hne', -⟩ := Pattern.split_of_find? (isLoop_instancePattern (isIdentifierText_var houter)).single hinner
  have hdefinition := shapes_definitionBefore hs htokens hne
  rw [eq_of_enclosed? hinside] at htokens
  rw [eq_of_enclosed? hbody] at htokens'
  obtain ⟨hbefore, hbehind, hdevice⟩ := parts_of_cut htokens hne htokens' hne'
  rw [ofMethod_cut name houter hinside hinner hbody] at hl
  obtain rfl := Except.ok.inj hl
  refine ⟨hdefinition, ?_, (shapes_trim hdevice hs).2⟩
  rw [(shapes_trim hbefore hs).1.shapes_lines, (shapes_trim hbefore hs).2, (shapes_trim hbehind hs).2]

end

lemma ofMethod_twins (hs : Spaceless s) (hs' : Spaceless s') (h : shapes s = shapes s') (name : String) :
    (∃ e e', ofMethod s name = .error e ∧ ofMethod s' name = .error e' ∧ e.withoutOffset = e'.withoutOffset) ∨
      ∃ l l', ofMethod s name = .ok l ∧ ofMethod s' name = .ok l' ∧ l.Alike l' := by
  obtain ⟨hnone, hnone'⟩ | ⟨outer, outer', houter, houter', htwins⟩ :=
    Pattern.find?_twins isLoop_modelPattern.single (twins_tokens h)
  · exact .inl ⟨_, _, ofMethod_noModelLoop name hnone, ofMethod_noModelLoop name hnone', rfl⟩
  obtain ⟨hnone, hnone'⟩ | ⟨inside, close, more, inside', close', more', hinside, hinside', hinsides, -⟩ :=
    enclosed?_twins .curly htwins.after
  · exact .inl ⟨_, _, ofMethod_openModelLoop name houter hnone, ofMethod_openModelLoop name houter' hnone', rfl⟩
  -- both look for the second loop with the same pattern
  have hmodel := htwins.text "var"
  have hloop := isLoop_instancePattern (isIdentifierText_var houter)
  obtain ⟨hnone, hnone'⟩ | ⟨inner, inner', hinner, hinner', htwins'⟩ := Pattern.find?_twins hloop.single hinsides
  · rw [hmodel] at hnone'
    exact .inl ⟨_, _, ofMethod_noInstanceLoop name houter hinside hnone, ofMethod_noInstanceLoop name houter' hinside' hnone', rfl⟩
  rw [hmodel] at hinner'
  obtain ⟨hnone, hnone'⟩ | ⟨body, last, rest, body', last', rest', hbody, hbody', hbodies, hrests⟩ :=
    enclosed?_twins .curly htwins'.after
  · exact .inl ⟨_, _, ofMethod_openInstanceLoop name houter hinside hinner hnone,
      ofMethod_openInstanceLoop name houter' hinside' hinner' hnone', rfl⟩
  have hcut := ofMethod_cut name houter hinside hinner hbody
  have hcut' := ofMethod_cut name houter' hinside' hinner' hbody'
  obtain ⟨hdefinition, hmodelCode, hdeviceCode⟩ := shapes_cut name houter hinside hinner hs hbody hcut
  obtain ⟨hdefinition', hmodelCode', hdeviceCode'⟩ := shapes_cut name houter' hinside' hinner' hs' hbody' hcut'
  refine .inr ⟨_, _, hcut, hcut', ⟨?_, ?_, ?_, hmodel, htwins'.text "var", circuitOf_alike h, Signature.parameters_twins h _⟩⟩
  · rw [hdefinition, hdefinition', ((htwins.before.reverse.dropWhile fun t => rfl).drop 1).bare]
  · rw [hmodelCode, hmodelCode', htwins'.before.reverse.bare, hrests.bare]
  · rw [hdeviceCode, hdeviceCode', hbodies.bare]

end Loops

namespace Iteration

/-- Layout and comments do not matter: functions with the same code tokens, whose code has no spaces but blanks, fail
with the same error up to its offset, or are cut into parts with the same code tokens; the names, the variables with
their types and the findings are the same then. -/
theorem ofMethod_alike {s s' : String} (hs : Code.Spaceless s) (hs' : Code.Spaceless s') (h : Code.shapes s = Code.shapes s')
    (name : String) :
    (∃ e e', ofMethod s name = .error e ∧ ofMethod s' name = .error e' ∧ e.withoutOffset = e'.withoutOffset) ∨
      ∃ it it' findings, ofMethod s name = .ok (it, findings) ∧ ofMethod s' name = .ok (it', findings) ∧
        it.loops.Alike it'.loops ∧ it.locals = it'.locals := by
  obtain ⟨e, e', he, he', hsame⟩ | ⟨l, l', hl, hl', halike⟩ := Loops.ofMethod_twins hs hs' h name
  · refine .inl ⟨e, e', ?_, ?_, hsame⟩
    · simp only [ofMethod, he]
      rfl
    · simp only [ofMethod, he']
      rfl
  · have hlocals := Variables.ofLoops_alike halike
    refine .inr ⟨⟨l, (Variables.ofLoops l).1, [], []⟩, ⟨l', (Variables.ofLoops l').1, [], []⟩, (Variables.ofLoops l).2, ?_, ?_, halike,
      congrArg Prod.fst hlocals⟩
    · simp only [ofMethod, hl]
      rfl
    · rw [hlocals]
      simp only [ofMethod, hl']
      rfl

/-- A function on one line. -/
def denseMethod : String :=
  "f()\x7bfor(;m!=NULL;m=m->n)\x7bfor(h=m->i;h!=NULL;h=h->n)\x7bx=m;\x7d\x7d\x7d"

/-- The same function with comments, some of which look like code. -/
def commentedMethod : String :=
  "f()\x7b//\x7d\nfor(;m!=NULL;m=m->n)\x7bfor(h=m->i;h!=NULL;h=h->n)\x7b x =m;/*\x7b*/\x7d\x7d\x7d"

/-- The two are cut into parts with the same code tokens. -/
theorem ofMethod_alike_commented :
    (Code.Spaceless denseMethod ∧ Code.Spaceless commentedMethod ∧ Code.shapes denseMethod = Code.shapes commentedMethod) ∧
      ∃ it it' findings, ofMethod denseMethod "f" = .ok (it, findings) ∧ ofMethod commentedMethod "f" = .ok (it', findings) ∧
        it.loops.Alike it'.loops ∧ it.locals = it'.locals := by
  have hspaceless : Code.Spaceless denseMethod ∧ Code.Spaceless commentedMethod := by decide +kernel
  have hshapes : Code.shapes denseMethod = Code.shapes commentedMethod := by decide +kernel
  have hok : (ofMethod denseMethod "f").toOption.isSome = true := by decide +kernel
  refine ⟨⟨hspaceless.1, hspaceless.2, hshapes⟩, (ofMethod_alike hspaceless.1 hspaceless.2 hshapes "f").resolve_left ?_⟩
  rintro ⟨e, e', he, -⟩
  rw [he] at hok
  cases hok

end Iteration

end DeviceForge
