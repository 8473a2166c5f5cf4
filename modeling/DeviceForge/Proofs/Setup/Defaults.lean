import DeviceForge.Phase.Setup
import DeviceForge.Proofs.Code.Parts
import DeviceForge.Proofs.Pattern.Fixed
import DeviceForge.Proofs.Statement.Run
/-!
# Initial values in the code

A literal default is an `if` on a wrapper that was not given, whose branch puts a literal into it (`Default`).
-/

namespace DeviceForge.Setup

open Text Code List Option

open Token (Shapes word sign)
open Pattern

variable {t semicolon : Token} {us w after ts : List Token} {texts : List String} {rest literal s : String}
  {x : Places} {b : Bool} {d : Default}

def literalOf : Shapes → Option String
  | [(.identifier, text)] =>
    let lower := Text.lower text
    if lower = "true" || lower = "false" then some lower else none
  | [(.number, text)] | [(.str, text)] => some text
  | [(_, signText), (.number, text)] => if signText = "-" || signText = "+" then some (signText ++ text) else none
  | _ => none

lemma literal?_eq (value : String) : literal? value = literalOf (Code.shapes value) := by
  unfold literal? Code.shapes
  generalize (Code.ofString value).tokens = ts
  rcases ts with _ | ⟨t, _ | ⟨u, _ | ⟨v, ts⟩⟩⟩
  · rfl
  · obtain ⟨kind, lead, text⟩ := t
    cases kind <;> rfl
  · obtain ⟨kind, lead, text⟩ := u
    cases kind <;> simp [literalOf, Token.bare]
  · simp [literalOf]

/-- A literal that a field gets where none was given. -/
structure Default where
  field : String
  value : Shapes
  literal : String
  braced : Bool
  isField : Token.isIdentifierText field = true
  isLiteral : literalOf value = some literal

namespace Default

/-- The tokens before the value. -/
def start (field : String) (braced : Bool) : Shapes :=
  [word "if", sign "(", sign "!", word field, sign ".", word "Given", sign ")"] ++ (if braced then [sign "\x7b"] else []) ++
    [word field, sign ".", word "Value", sign "="]

def finish (braced : Bool) : Shapes :=
  sign ";" :: if braced then [sign "\x7d"] else []

def shapes (d : Default) : Shapes :=
  start d.field d.braced ++ (d.value ++ finish d.braced)

end Default

/-! ## Patterns -/

def between (braced : Bool) : List String :=
  [".", "Given", ")"] ++ if braced then ["\x7b"] else []

def behind (braced : Bool) : List String :=
  ";" :: if braced then ["\x7d"] else []

def defaultForm (braced : Bool) : List Element :=
  ["if", "(", "!"].map .literal ++ .single .identifier "var" :: ((between braced).map .literal ++ .single .identifier "var" ::
    ([".", "Value", "="].map .literal ++ .run "value" :: (behind braced).map .literal))

lemma defaultPatterns_eq : defaultPatterns = [⟨defaultForm true⟩, ⟨defaultForm false⟩] := by
  decide +kernel

def view (m : Match) : Option (String × String) :=
  (literal? (Text.trim (m.text "value"))).map (m.text "var", ·)

lemma blind_view : Blind view :=
  fun _ _ => rfl

structure Places where
  head : List Token
  var : Token
  test : List Token
  again : Token
  access : List Token
  value : List Token
  last : List Token

namespace Places

def tokens (x : Places) : List Token :=
  x.head ++ x.var :: (x.test ++ x.again :: (x.access ++ (x.value ++ x.last)))

def windows (x : Places) : List (List Token) :=
  x.head.map ([·]) ++ [x.var] :: (x.test.map ([·]) ++ [x.again] :: (x.access.map ([·]) ++ x.value :: x.last.map ([·])))

structure Fit (x : Places) (braced : Bool) (rest : List Token) : Prop where
  head : x.head.map (·.text) = ["if", "(", "!"]
  var : x.var.kind = .identifier
  test : x.test.map (·.text) = between braced
  again : x.again.kind = .identifier
  access : x.access.map (·.text) = [".", "Value", "="]
  value : IsRun [] (some ";") x.value (x.last ++ rest)
  last : x.last.map (·.text) = behind braced

def captures (x : Places) : List (String × Capture) :=
  [("var", ⟨x.head.length, [x.var]⟩), ("value", ⟨x.head.length + 1 + x.test.length + 1 + x.access.length, x.value⟩)]

lemma flatten_singletons (us : List Token) : (us.map ([·])).flatten = us := by
  rw [← flatMap_def]
  exact flatMap_singleton' us

lemma flatten_windows (x : Places) : x.windows.flatten = x.tokens := by
  simp [windows, tokens, flatten_singletons]

lemma windows_form {ws : List (List Token)} {rest : List Token} :
    Windows (defaultForm b) ws rest ↔ ∃ x : Places, ws = x.windows ∧ x.Fit b rest := by
  have hlast {vs : List (List Token)} : Windows ((behind b).map .literal) vs rest ↔
      ∃ us : List Token, vs = us.map ([·]) ∧ us.map (·.text) = behind b := by
    rw [← append_nil ((behind b).map _), windows_literals]
    constructor
    · rintro ⟨us, vs, rfl, hus, hvs⟩
      cases vs with
      | nil => exact ⟨us, append_nil _, hus⟩
      | cons v vs => exact hvs.elim
    · rintro ⟨us, rfl, hus⟩
      exact ⟨us, [], (append_nil _).symm, hus, trivial⟩
  have hkind {t : Token} : Class.identifier.accepts t.kind ↔ t.kind = .identifier := by simp [Class.accepts]
  constructor
  · intro h
    obtain ⟨xs, vs, rfl, hxs, h⟩ := windows_literals.1 h
    obtain ⟨v, vs, rfl, hv, h⟩ := windows_single.1 h
    obtain ⟨ys, vs, rfl, hys, h⟩ := windows_literals.1 h
    obtain ⟨v', vs, rfl, hv', h⟩ := windows_single.1 h
    obtain ⟨zs, vs, rfl, hzs, h⟩ := windows_literals.1 h
    obtain ⟨w, vs, rfl, hw, h⟩ := windows_run.1 h
    obtain ⟨us, rfl, hus⟩ := hlast.1 h
    rw [flatten_singletons] at hw
    exact ⟨⟨xs, v, ys, v', zs, w, us⟩, rfl, hxs, hkind.1 hv, hys, hkind.1 hv', hzs, hw, hus⟩
  · rintro ⟨x, rfl, hhead, hvar, htest, hagain, haccess, hvalue, hlastText⟩
    refine windows_literals.2 ⟨x.head, _, rfl, hhead, windows_single.2 ⟨x.var, _, rfl, hkind.2 hvar, ?_⟩⟩
    refine windows_literals.2 ⟨x.test, _, rfl, htest, windows_single.2 ⟨x.again, _, rfl, hkind.2 hagain, ?_⟩⟩
    refine windows_literals.2 ⟨x.access, _, rfl, haccess, windows_run.2 ⟨x.value, _, rfl, ?_, hlast.2 ⟨x.last, rfl, hlastText⟩⟩⟩
    rw [flatten_singletons]
    exact hvalue

lemma bindAll_form {rest : List Token} (h : x.Fit b rest) {captures : List (String × Capture)} :
    bindAll [] (bindings 0 (defaultForm b) x.windows) = some captures ↔ squash x.var.text = squash x.again.text ∧ x.captures = captures := by
  have hbindings : bindings 0 (defaultForm b) x.windows = [("var", ⟨x.head.length, [x.var]⟩),
      ("var", ⟨x.head.length + 1 + x.test.length, [x.again]⟩),
      ("value", ⟨x.head.length + 1 + x.test.length + 1 + x.access.length, x.value⟩)] := by
    have hlast (n : Nat) : bindings n ((x.last.map (·.text)).map .literal) (x.last.map ([·])) = [] := by
      have hnil := bindings_literals n x.last [] []
      rwa [append_nil, append_nil] at hnil
    rw [defaultForm, ← h.head, ← h.test, ← h.access, ← h.last, windows, bindings_literals]
    simp only [bindings, captured, List.length_singleton, bindings_literals, hlast]
    simp
  have hnil (bs : List (String × Capture)) : bindAll bs [] = some bs := rfl
  rw [hbindings]
  simp [bindAll_cons, lookup_cons, hnil, Places.captures, Capture.text, Code.span, spell_nil]

lemma matchAt?_form {before : List Token} {m : Match} :
    (Pattern.mk (defaultForm b)).matchAt? before ts = some m ↔ ∃ (x : Places) (rest : List Token), ts = x.tokens ++ rest ∧ x.Fit b rest ∧
      squash x.var.text = squash x.again.text ∧ ⟨before, x.tokens, rest, x.captures⟩ = m := by
  rw [matchAt?_eq_some_iff (by simp [defaultForm])]
  constructor
  · rintro ⟨ws, rest, captures, rfl, hwindows, hbind, rfl⟩
    obtain ⟨x, rfl, hfit⟩ := windows_form.1 hwindows
    obtain ⟨hsame, rfl⟩ := (bindAll_form hfit).1 hbind
    rw [flatten_windows]
    exact ⟨x, rest, rfl, hfit, hsame, rfl⟩
  · rintro ⟨x, rest, rfl, hfit, hsame, rfl⟩
    refine ⟨x.windows, rest, x.captures, ?_, windows_form.2 ⟨x, rfl, hfit⟩, (bindAll_form hfit).2 ⟨hsame, rfl⟩, ?_⟩
    · rw [flatten_windows]
    · rw [flatten_windows]

end Places

/-! ## Tokens of matches -/

lemma kind_of_text {rest : List Char} (h : Token.Reads t rest) {c : Char} {cs : List Char}
    (htext : t.text.toList = c :: cs) (hc : c ≠ '"' ∧ c ≠ '\'' ∧ c ≠ '/') :
    t.kind = (Token.extent c cs).1 := by
  have hhalts : Token.Halts [] := by simp [Token.Halts]
  obtain ⟨d, ds, hds, -, hext⟩ := Token.reads_halts h (Token.code_of_text h htext hc) hhalts
  obtain ⟨rfl, rfl⟩ := cons.inj (htext.symm.trans hds)
  rw [append_nil] at hext
  rw [hext]

def spelled (text : String) : Token.Kind × String :=
  if text ∈ ["if", "Given", "Value"] then word text else sign text

lemma bare_of_text {rest : List Char} (h : Token.Reads t rest)
    (htext : t.text ∈ ["if", "(", "!", ".", "Given", ")", "\x7b", "Value", "=", ";", "\x7d"]) :
    t.bare = spelled t.text := by
  have hkind {c : Char} {cs : List Char} (hcs : t.text.toList = c :: cs) (hc : c ≠ '"' ∧ c ≠ '\'' ∧ c ≠ '/') :
      t.bare = ((Token.extent c cs).1, t.text) := by
    rw [Token.bare, kind_of_text h hcs hc]
  simp only [mem_cons, not_mem_nil, or_false] at htext
  rcases htext with htext | htext | htext | htext | htext | htext | htext | htext | htext | htext | htext <;>
    rw [hkind (by rw [htext]; rfl) (by decide), htext] <;> rfl

lemma map_bare_of_texts (hreads : ∀ t ∈ us, ∃ rest, Token.Reads t rest) (htexts : us.map (·.text) = texts)
    (hfixed : texts.all (· ∈ ["if", "(", "!", ".", "Given", ")", "\x7b", "Value", "=", ";", "\x7d"])) :
    us.map Token.bare = texts.map spelled := by
  subst htexts
  rw [List.map_map]
  refine map_congr_left fun t ht => ?_
  obtain ⟨rest, hrest⟩ := hreads t ht
  exact bare_of_text hrest (by simpa using List.all_eq_true.1 hfixed _ (List.mem_map_of_mem ht))

lemma not_isComment (h : Code.Opens w rest) : ∀ t ∈ w, t.isComment = false := by
  induction w with
  | nil => simp
  | cons t w ih => exact forall_mem_cons.2 ⟨h.2.1, ih h.2.2.2⟩

lemma opens_alone (h : Code.Opens w rest) (hclosed : ∀ t ∈ w, t.isClosed) : Code.Opens w "" := by
  refine h.elsewhere (by simp) fun t ht => ?_
  have hmem := mem_of_mem_getLast? ht
  obtain ⟨cs, hreads⟩ := h.reads t hmem
  by_cases hcode : t.kind.segment = .code
  · exact Token.reads_halts hreads hcode (by simp [Token.Halts])
  · have hline := Token.not_isLineComment (by simpa [Token.isComment] using not_isComment h t hmem)
    exact Token.reads_of_isClosed hreads (hclosed t hmem) hcode hline _

lemma span_concat (w : List Token) (t : Token) : ∃ s, Code.span (w ++ [t]) = s ++ t.text := by
  cases w with
  | nil => exact ⟨"", by simp [Code.span, spell_nil]⟩
  | cons u w =>
    refine ⟨u.text ++ (Code.spell w ++ t.lead), ?_⟩
    simp [Code.span, spell_append, spell_cons, spell_nil, String.append_assoc]

lemma trim_span (hne : w ≠ []) (hopens : Code.Opens w rest) (hsolid : ∀ t ∈ w, t.Solid) : trim (span w) = span w := by
  have hhead : ∀ c ∈ (span w).toList.head?, isSpace c = false := by
    obtain ⟨t, us, rfl⟩ := exists_cons_of_ne_nil hne
    obtain ⟨c, cs, htext, hc⟩ := Token.head_of_reads hopens.2.2.1 (hsolid t mem_cons_self)
    simpa [Code.span, htext] using hc
  have hlast : ∀ c ∈ (span w).toList.getLast?, isSpace c = false := by
    obtain ⟨us, t, rfl⟩ := (eq_nil_or_concat' w).resolve_left hne
    have hmem : t ∈ us ++ [t] := by simp
    obtain ⟨cs, hreads⟩ := hopens.reads t hmem
    have hline := Token.not_isLineComment (by simpa [Token.isComment] using not_isComment hopens t hmem)
    obtain ⟨ds, d, htext, hd⟩ := Token.last_of_reads hreads (hsolid t hmem) hline
    obtain ⟨s, hspan⟩ := span_concat us t
    rw [hspan, String.toList_append, htext, ← List.append_assoc, getLast?_concat]
    simpa using hd
  have hchars : (Code.span w).toList ≠ [] := by
    obtain ⟨t, us, rfl⟩ := exists_cons_of_ne_nil hne
    obtain ⟨c, cs, htext, -⟩ := hopens.2.2.1
    simp [Code.span, htext]
  have htrim := trim_padded (w := (span w).toList) (show ∀ c ∈ [], isSpace c = true by simp)
    (show ∀ c ∈ [], isSpace c = true by simp) hhead hlast hchars
  simpa using htrim

lemma shapes_trim_span (hne : w ≠ []) (hopens : Code.Opens w rest) (hsolid : ∀ t ∈ w, t.Solid) :
    shapes (trim (span w)) = w.map Token.bare := by
  have halone := opens_alone hopens fun t ht => (hsolid t ht).closed
  rw [trim_span hne hopens hsolid]
  cases w with
  | nil => exact absurd rfl hne
  | cons t w =>
    have hfirst : Code.Opens (⟨t.kind, "", t.text⟩ :: w) "" := ⟨trivia_empty, halone.2⟩
    have hshapes := shapes_opens hfirst
    rw [spell_cons, String.empty_append, String.append_empty, shapes_empty, append_nil] at hshapes
    exact hshapes

/-! ## Accepted matches are literal defaults -/

lemma map_spelled_between (b : Bool) : (between b).map spelled =
    [sign ".", word "Given", sign ")"] ++ if b then [sign "\x7b"] else [] := by
  cases b <;> rfl

lemma map_spelled_behind (b : Bool) : (behind b).map spelled = Default.finish b := by
  cases b <;> rfl

lemma Default.shapes_eq (d : Default) : d.shapes = ["if", "(", "!"].map spelled ++ word d.field :: ((between d.braced).map spelled ++
    word d.field :: ([".", "Value", "="].map spelled ++ (d.value ++ (behind d.braced).map spelled))) := by
  rw [map_spelled_between, map_spelled_behind, Default.shapes, Default.start]
  simp [spelled]

lemma squash_identifier {w : String} (h : Token.isIdentifierText w) : squash w = w := by
  rw [squash, words_identifier h]
  rfl

lemma Places.map_bare {rest : List Token} (h : x.Fit b rest) (hreads : ∀ t ∈ x.tokens, ∃ cs, Token.Reads t cs) :
    x.tokens.map Token.bare = ["if", "(", "!"].map spelled ++ word x.var.text :: ((between b).map spelled ++
      word x.again.text :: ([".", "Value", "="].map spelled ++ (x.value.map Token.bare ++ (behind b).map spelled))) := by
  have hhead := map_bare_of_texts (fun t ht => hreads t (by simp [tokens, ht])) h.head (by decide)
  have htest := map_bare_of_texts (fun t ht => hreads t (by simp [tokens, ht])) h.test (by cases b <;> decide)
  have haccess := map_bare_of_texts (fun t ht => hreads t (by simp [tokens, ht])) h.access (by decide)
  have hlast := map_bare_of_texts (fun t ht => hreads t (by simp [tokens, ht])) h.last (by cases b <;> decide)
  have hvar : x.var.bare = word x.var.text := by rw [Token.bare, h.var]; rfl
  have hagain : x.again.bare = word x.again.text := by rw [Token.bare, h.again]; rfl
  simp only [tokens, map_append, map_cons, hhead, htest, haccess, hlast, hvar, hagain]

lemma Places.text_var (x : Places) (before window rest : List Token) : Match.text ⟨before, window, rest, x.captures⟩ "var" = x.var.text := by
  simp [Match.text, Match.capture?, captures, Capture.text, Code.span, spell_nil]

lemma Places.text_value (x : Places) (before window rest : List Token) :
    Match.text ⟨before, window, rest, x.captures⟩ "value" = span x.value := by
  simp [Match.text, Match.capture?, captures, lookup_cons, Capture.text]

lemma Places.shapes_value (h : x.Fit b after) (hopens : Code.Opens (x.tokens ++ after) rest)
    (hsolid : ∀ t ∈ x.tokens ++ after, t.Solid) : shapes (trim (span x.value)) = x.value.map Token.bare := by
  have htokens : x.tokens ++ after = x.head ++ x.var :: (x.test ++ x.again :: x.access) ++ (x.value ++ (x.last ++ after)) := by
    simp [tokens]
  rw [htokens, opens_append] at hopens
  exact shapes_trim_span h.value.ne_nil (opens_append.1 hopens.2).1 fun t ht => hsolid t (by simp [htokens, ht])

lemma exists_default (hopens : Code.Opens ts rest) (hsolid : ∀ t ∈ ts, t.Solid) {n : Nat}
    {y : String × String} (h : (Pattern.mk (defaultForm b)).acceptedAt? view ts = some (n, y)) :
    ∃ d : Default, d.braced = b ∧ d.shapes <+: ts.map Token.bare := by
  obtain ⟨m, hm, hview⟩ := bind_eq_some_iff.1 h
  obtain ⟨x, after, rfl, hfit, hsame, rfl⟩ := Places.matchAt?_form.1 hm
  obtain ⟨seen, hseen, -⟩ := map_eq_some_iff.1 hview
  obtain ⟨literal, hliteral, -⟩ := map_eq_some_iff.1 hseen
  have hreads : ∀ t ∈ x.tokens, ∃ cs, Token.Reads t cs := fun t ht => hopens.reads t (mem_append_left _ ht)
  have hidentifier {t : Token} (ht : t ∈ x.tokens) (hkind : t.kind = .identifier) : Token.isIdentifierText t.text := by
    obtain ⟨cs, hcs⟩ := hreads t ht
    exact Token.isIdentifierText_of_reads hcs hkind
  have hvar := hidentifier (by simp [Places.tokens]) hfit.var
  have hagain := hidentifier (by simp [Places.tokens]) hfit.again
  rw [squash_identifier hvar, squash_identifier hagain] at hsame
  rw [Places.text_value, literal?_eq, Places.shapes_value hfit hopens hsolid] at hliteral
  refine ⟨⟨x.var.text, x.value.map Token.bare, literal, b, hvar, hliteral⟩, rfl, ?_⟩
  rw [Default.shapes_eq, map_append, Places.map_bare hfit hreads, ← hsame]
  exact prefix_append _ _

/-! ## Literal defaults are accepted -/

lemma texts_of_bare (h : us.map Token.bare = texts.map spelled) : us.map (·.text) = texts := by
  have hsnd (text : String) : (spelled text).2 = text := by
    unfold spelled
    split <;> rfl
  have htexts := congrArg (List.map Prod.snd) h
  rw [List.map_map, List.map_map] at htexts
  simpa [Function.comp_def, Token.bare, hsnd] using htexts

lemma kind_of_literal {value : Shapes} (h : literalOf value = some literal) :
    value ≠ [] ∧ ∀ x ∈ value, x.1 ≠ .punct ∨ x.2 = "-" ∨ x.2 = "+" := by
  unfold literalOf at h
  split at h
  · simp
  · simp
  · simp
  · obtain ⟨hsign, -⟩ := ite_none_right_eq_some.1 h
    rw [Bool.or_eq_true, decide_eq_true_iff, decide_eq_true_iff] at hsign
    simp [hsign]
  · cases h

lemma kind_of_bracket {rest : List Char} (h : Token.Reads t rest)
    (hs : s ∈ ["(", "[", "\x7b", ")", "]", "\x7d", ";"]) (htext : t.text = s) : t.kind = .punct := by
  simp only [mem_cons, not_mem_nil, or_false] at hs
  rcases hs with rfl | rfl | rfl | rfl | rfl | rfl | rfl <;>
    exact kind_of_text h (by rw [htext]; rfl) (by decide)

lemma Default.isRun_value (hw : w.map Token.bare = d.value) (hreads : ∀ t ∈ w, ∃ cs, Token.Reads t cs)
    (hsemicolon : semicolon.text = ";") (rest : List Token) : IsRun [] (some ";") w (semicolon :: rest) := by
  obtain ⟨hne, hkinds⟩ := kind_of_literal d.isLiteral
  rw [← hw] at hne hkinds
  rw [← hsemicolon]
  refine isRun_flat (fun hnil => hne (by rw [hnil]; rfl)) (fun t ht => ?_) rest
  have htext : ∀ s ∈ ["(", "[", "\x7b", ")", "]", "\x7d", ";"], t.text ≠ s := by
    intro s hs heq
    obtain ⟨cs, hcs⟩ := hreads t ht
    rcases hkinds _ (mem_map_of_mem ht) with hkind | hminus | hplus
    · exact hkind (kind_of_bracket hcs hs heq)
    · obtain rfl : s = "-" := heq.symm.trans hminus
      exact absurd hs (by decide)
    · obtain rfl : s = "+" := heq.symm.trans hplus
      exact absurd hs (by decide)
  simp only [forall_mem_cons, not_mem_nil, false_implies, implies_true, and_true] at htext
  simp [Token.isOpening, Token.isClosing, htext, hsemicolon]

lemma acceptedAt?_default (hus : us.map Token.bare = d.shapes) (hopens : Code.Opens (us ++ after) rest)
    (hsolid : ∀ t ∈ us ++ after, t.Solid) :
    (Pattern.mk (defaultForm d.braced)).acceptedAt? view (us ++ after) = some (us.length, d.field, d.literal) := by
  rw [Default.shapes_eq] at hus
  obtain ⟨head, us, rfl, hhead, hus⟩ := map_eq_append_iff.1 hus
  obtain ⟨var, us, rfl, hvar, hus⟩ := map_eq_cons_iff.1 hus
  obtain ⟨test, us, rfl, htest, hus⟩ := map_eq_append_iff.1 hus
  obtain ⟨again, us, rfl, hagain, hus⟩ := map_eq_cons_iff.1 hus
  obtain ⟨access, us, rfl, haccess, hus⟩ := map_eq_append_iff.1 hus
  obtain ⟨value, last, rfl, hvalue, hlast⟩ := map_eq_append_iff.1 hus
  obtain ⟨x, hx⟩ : ∃ x : Places, x = ⟨head, var, test, again, access, value, last⟩ := ⟨_, rfl⟩
  have htokens : head ++ var :: (test ++ again :: (access ++ (value ++ last))) = x.tokens := by rw [hx]; rfl
  have hlastTexts := texts_of_bare hlast
  have hrun : IsRun [] (some ";") value (last ++ after) := by
    obtain ⟨semicolon, last, rfl, hsemicolon, -⟩ := map_eq_cons_iff.1 hlastTexts
    exact d.isRun_value hvalue (fun t ht => hopens.reads t (by simp [ht])) hsemicolon _
  have hfit : x.Fit d.braced after := by
    rw [hx]
    exact ⟨texts_of_bare hhead, congrArg Prod.fst hvar, texts_of_bare htest, congrArg Prod.fst hagain, texts_of_bare haccess, hrun, hlastTexts⟩
  have hsame : squash x.var.text = squash x.again.text := by
    rw [hx]
    exact congrArg squash ((congrArg Prod.snd hvar).trans (congrArg Prod.snd hagain).symm)
  rw [htokens] at hopens hsolid ⊢
  have hmatch : (Pattern.mk (defaultForm d.braced)).matchAt? [] (x.tokens ++ after) = some ⟨[], x.tokens, after, x.captures⟩ :=
    Places.matchAt?_form.2 ⟨x, after, rfl, hfit, hsame, rfl⟩
  have hview : view ⟨[], x.tokens, after, x.captures⟩ = some (d.field, d.literal) := by
    have hbare : x.value.map Token.bare = d.value := by rw [hx]; exact hvalue
    have hfield : x.var.text = d.field := by rw [hx]; exact congrArg Prod.snd hvar
    rw [view, x.text_value, x.text_var, literal?_eq, Places.shapes_value hfit hopens hsolid, hbare, d.isLiteral, hfield]
    rfl
  rw [acceptedAt?, hmatch, bind_some, hview]
  rfl

end DeviceForge.Setup
