import DeviceForge.Proofs.Pattern.Fixed
import DeviceForge.Proofs.Switch.Nested
/-!
# Reading back a switch statement

`Statement` is the text of a switch statement: a value, cases with their labels and bodies, and a body for all
other values.
-/

namespace DeviceForge

open Text List Code Token

lemma trim_append_spaces {w : String} (hw : ∀ c ∈ w.toList, isSpace c) (s : String) : trim (s ++ w) = trim s := by
  rw [trim, trim, String.toList_append, dropWhile_append]
  split_ifs with hempty
  · rw [dropWhile_eq_nil_iff.2 hw, isEmpty_iff.1 hempty]
  · rw [dropWhileEnd_append_right _ hw]

namespace Switch

/-- A text that can stand as the body of a case: its literals and comments are closed, its brackets are nested, and labels stand
in nested switches only. -/
structure IsBody (body : String) : Prop where
  whole : Code.Whole body
  nested : Nested (Code.ofString body).tokens
  sheltered : Sheltered (Code.ofString body).tokens

instance (body : String) : Decidable (IsBody body) :=
  decidable_of_iff (Code.Whole body ∧ Nested (Code.ofString body).tokens ∧ Sheltered (Code.ofString body).tokens)
    ⟨fun h => ⟨h.1, h.2.1, h.2.2⟩, fun h => ⟨h.whole, h.nested, h.sheltered⟩⟩

/-- The text of a switch statement. -/
structure Statement where
  value : String
  cases : List (String × String)
  otherwise : Option String
  whole_value : Code.Whole value
  nested_value : Nested (Code.ofString value).tokens
  identifiers : ∀ c ∈ cases, isIdentifierText c.1 = true
  distinct : (cases.map (·.1)).Nodup
  bodies : ∀ c ∈ cases, IsBody c.2
  body_otherwise : ∀ body ∈ otherwise, IsBody body

def caseText (c : String × String) : String :=
  "case " ++ (c.1 ++ (":" ++ (c.2 ++ "\n")))

def blockText (cases : List (String × String)) (otherwise : Option String) : String :=
  String.join (cases.map caseText) ++ (otherwise.elim "" ("default:" ++ ·))

def Statement.text (x : Statement) : String :=
  "switch (" ++ (x.value ++ (") \x7b" ++ (blockText x.cases x.otherwise ++ "\x7d")))

/-! ## The code of a block -/

def blockCode (lead : String) : List (String × String) → Option String → Code
  | [], none => ⟨[], lead⟩
  | [], some body =>
    ⟨⟨.identifier, lead, "default"⟩ :: ⟨.punct, "", ":"⟩ :: (Code.ofString body).tokens, (Code.ofString body).tail⟩
  | (id, body) :: cases, otherwise =>
    let rest := blockCode ((Code.ofString body).tail ++ "\n") cases otherwise
    ⟨⟨.identifier, lead, "case"⟩ :: ⟨.identifier, " ", id⟩ :: ⟨.punct, "", ":"⟩ :: ((Code.ofString body).tokens ++ rest.tokens),
      rest.tail⟩

lemma ofString_colon (s : String) :
    Code.ofString (":" ++ s) = ⟨⟨.punct, "", ":"⟩ :: (Code.ofString s).tokens, (Code.ofString s).tail⟩ := by
  have hreads : Token.Reads ⟨.punct, "", ":"⟩ s.toList :=
    ⟨':', [], rfl, by decide, by simp [extent, Lexeme.operator, Lexeme.operators]⟩
  have htoken := ofString_token rfl hreads
  exact htoken

lemma ofString_space (s : String) : Code.ofString (" " ++ s) = (Code.ofString s).behind " " :=
  trivia_blank (by simp [Token.Blank, isBlank]) s

lemma ofString_word {w : String} (hw : isIdentifierText w) {s : String}
    (hs : ∀ c ∈ s.toList.head?, isWordChar c = false) :
    Code.ofString (w ++ s) = ⟨⟨.identifier, "", w⟩ :: (Code.ofString s).tokens, (Code.ofString s).tail⟩ := by
  have hkind : kind ⟨.identifier, "", w⟩ = .identifier := rfl
  have htoken := ofString_token rfl (reads_identifier hkind hw hs)
  exact htoken

lemma ofString_case {c : String × String} (hid : isIdentifierText c.1) (hbody : Code.Whole c.2) (more : String) :
    Code.ofString (caseText c ++ more) =
      let rest := (Code.ofString more).behind ((Code.ofString c.2).tail ++ "\n")
      ⟨⟨.identifier, "", "case"⟩ :: ⟨.identifier, " ", c.1⟩ :: ⟨.punct, "", ":"⟩ :: ((Code.ofString c.2).tokens ++ rest.tokens),
        rest.tail⟩ := by
  have hline : Code.ofString ("\n" ++ more) = (Code.ofString more).behind "\n" :=
    trivia_blank (by simp [Token.Blank, isBlank]) more
  have htext : caseText c ++ more = "case" ++ (" " ++ (c.1 ++ (":" ++ (c.2 ++ ("\n" ++ more))))) := by
    simp [caseText, ← String.append_assoc]
  rw [htext, ofString_word (by decide) (by simp; decide), ofString_space, ofString_word hid (by simp; decide), ofString_colon,
    ofString_whole_stop hbody rfl (by decide), hline, Code.append, behind_behind]
  simp [behind]

lemma ofString_brace : Code.ofString "\x7d" = ⟨[⟨.punct, "", "\x7d"⟩], ""⟩ := by
  decide +kernel

lemma ofString_default {body : String} (hbody : Code.Whole body) :
    Code.ofString ("default:" ++ (body ++ "\x7d")) =
      ⟨⟨.identifier, "", "default"⟩ :: ⟨.punct, "", ":"⟩ :: ((Code.ofString body).tokens ++
        [⟨.punct, (Code.ofString body).tail, "\x7d"⟩]), ""⟩ := by
  have htext : "default:" ++ (body ++ "\x7d") = "default" ++ (":" ++ (body ++ ("\x7d" ++ ""))) := by simp [← String.append_assoc]
  rw [htext, ofString_word (by decide) (by simp; decide), ofString_colon, ofString_whole_stop hbody rfl (by decide),
    String.append_empty, ofString_brace, Code.append_cons, String.append_empty]

section
variable {cases : List (String × String)} {otherwise : Option String} (hids : ∀ c ∈ cases, isIdentifierText c.1)
  (hcases : ∀ c ∈ cases, IsBody c.2) (hotherwise : ∀ body ∈ otherwise, IsBody body)

include hids hcases hotherwise in
lemma ofString_block (lead : String) :
    (Code.ofString (blockText cases otherwise ++ "\x7d")).behind lead =
      ⟨(blockCode lead cases otherwise).tokens ++ [⟨.punct, (blockCode lead cases otherwise).tail, "\x7d"⟩], ""⟩ := by
  induction cases generalizing lead with
  | nil =>
    cases otherwise with
    | none => simp [blockText, ofString_brace, behind, blockCode]
    | some body =>
      have htext : blockText [] (some body) ++ "\x7d" = "default:" ++ (body ++ "\x7d") := by simp [blockText, String.append_assoc]
      rw [htext, ofString_default (hotherwise body rfl).whole]
      simp [behind, blockCode]
  | cons c cases ih =>
    obtain ⟨hid, hids⟩ := forall_mem_cons.1 hids
    obtain ⟨hbody, hcases⟩ := forall_mem_cons.1 hcases
    have htext : blockText (c :: cases) otherwise ++ "\x7d" = caseText c ++ (blockText cases otherwise ++ "\x7d") := by
      simp [blockText, String.append_assoc]
    rw [htext, ofString_case hid hbody.whole, ih hids hcases]
    simp [behind, blockCode]

lemma tokens_text (x : Statement) : let v := Code.ofString x.value
    let block := blockCode "" x.cases x.otherwise
    (Code.ofString x.text).tokens =
      ⟨.identifier, "", "switch"⟩ :: ⟨.punct, " ", "("⟩ :: (v.tokens ++ ⟨.punct, v.tail, ")"⟩ :: ⟨.punct, " ", "\x7b"⟩ ::
        (block.tokens ++ [⟨.punct, block.tail, "\x7d"⟩])) := by
  intro v block
  have hempty (c : Code) : c.behind "" = c := by
    obtain ⟨ts, tail⟩ := c
    cases ts <;> simp [behind]
  have hblock := ofString_block x.identifiers x.bodies x.body_otherwise ""
  rw [hempty] at hblock
  have htext : x.text =
      "switch" ++ (" " ++ ("(" ++ (x.value ++ (")" ++ (" " ++ ("\x7b" ++ (blockText x.cases x.otherwise ++ "\x7d"))))))) := by
    simp [Statement.text, ← String.append_assoc]
  rw [htext, ofString_word (by decide) (by simp; decide), ofString_space, ofString_bracket rfl (by decide),
    ofString_whole_stop x.whole_value rfl (by decide), ofString_bracket rfl (by decide), ofString_space,
    ofString_bracket rfl (by decide), hblock]
  simp [behind, Code.append, v, block]

def blockItems (lead : String) : List (String × String) → Option String → List Item
  | [], none => []
  | [], some body =>
    .otherwise ⟨.identifier, lead, "default"⟩ :: .plain ⟨.punct, "", ":"⟩ :: (Code.ofString body).tokens.map .plain
  | (id, body) :: cases, otherwise =>
    .label lead id :: ((Code.ofString body).tokens.map .plain ++ blockItems ((Code.ofString body).tail ++ "\n") cases otherwise)

lemma IsBody.body {body : String} (h : IsBody body) : Body (Code.ofString body).tokens :=
  body_of_sheltered h.nested h.sheltered

lemma identifier_ne {w s : String} (hw : isIdentifierText w) (hs : isIdentifierText s = false) : w ≠ s := by
  rintro rfl
  simp [hw] at hs

lemma isFlat_identifier {t : Token} (h : isIdentifierText t.text) : IsFlat t := by
  constructor
  · rw [Option.eq_none_iff_forall_ne_some]
    intro b hb
    exact identifier_ne h (by cases b <;> decide) (opened?_eq_some_iff.1 hb)
  · rw [Option.eq_none_iff_forall_ne_some]
    intro b hb
    exact identifier_ne h (by cases b <;> decide) (closed?_eq_some_iff.1 hb)

lemma label?_identifier {id : String} (h : isIdentifierText id) (kind : Token.Kind) (lead : String) (ts : List Token) :
    label? (⟨kind, lead, id⟩ :: ⟨.punct, "", ":"⟩ :: ts) = some (id, 2) := by
  have hne : id ≠ ":" := identifier_ne h (by decide)
  simp [label?, findIdx?_cons, hne, Code.span, spell_nil, Pattern.words_identifier h]

lemma ends_block (lead : String) (cases : List (String × String)) (otherwise : Option String) :
    Ends (blockCode lead cases otherwise).tokens := by
  intro t ht
  cases cases with
  | nil =>
    cases otherwise with
    | none => cases ht
    | some body =>
      obtain rfl := Option.some.inj ht
      simp
  | cons c cases =>
    obtain rfl := Option.some.inj ht
    simp

include hids hcases hotherwise in
lemma items_block (lead : String) (before : List Token) :
    items 0 0 before (blockCode lead cases otherwise).tokens = .ok (blockItems lead cases otherwise) := by
  induction cases generalizing lead before with
  | nil =>
    cases otherwise with
    | none => rfl
    | some body =>
      have hcolon : startsLabel (⟨.punct, "", ":"⟩ :: (Code.ofString body).tokens) = false := by simp [startsLabel]
      have hend : Ends [] := by simp [Ends]
      have hbody := items_body (hotherwise body rfl).body hend
      simp only [append_nil] at hbody
      rw [blockCode, items, if_neg (by simp), if_neg (by simp), if_pos (by simp), items_plain hcolon (by simp), hbody, items]
      simp [precede, Except.map, blockItems]
  | cons c cases ih =>
    obtain ⟨hid, hids⟩ := forall_mem_cons.1 hids
    obtain ⟨hbody, hcases⟩ := forall_mem_cons.1 hcases
    rw [blockCode, items, if_neg (by simp), if_pos rfl, label?_identifier hid]
    simp only [items]
    rw [items_body hbody.body (ends_block _ _ _), ih hids hcases]
    rfl

/-! ## The bodies of the labels -/

lemma spell_plain (ts : List Token) : spell (ts.map .plain) = Code.spell ts := by
  simp [spell, Code.spell, Item.spelling, Function.comp_def]

lemma bodies_plain (tail : String) (ts : List Token) (is : List Item) : bodies tail (ts.map .plain ++ is) = bodies tail is := by
  induction ts with
  | nil => rfl
  | cons t ts ih => exact ih

lemma trim_line (body : String) :
    trim (Code.spell (Code.ofString body).tokens ++ ((Code.ofString body).tail ++ "\n")) = trim body := by
  have hbody : Code.spell (Code.ofString body).tokens ++ (Code.ofString body).tail = body := toString_ofString body
  rw [← String.append_assoc, hbody]
  exact trim_append_spaces (forall_mem_singleton.2 (by decide)) body

lemma not_isLabel_plain (ts : List Token) : ∀ i ∈ ts.map Item.plain, (!i.isLabel) := by
  simp [Item.isLabel]

lemma not_isOtherwise_plain (ts : List Token) : ∀ i ∈ ts.map Item.plain, (!i.isOtherwise) := by
  simp [Item.isOtherwise]

lemma body_case (body : String) (cases : List (String × String)) (otherwise : Option String) :
    Switch.body (blockCode ((Code.ofString body).tail ++ "\n") cases otherwise).tail
      ((Code.ofString body).tokens.map .plain ++ blockItems ((Code.ofString body).tail ++ "\n") cases otherwise) = trim body := by
  have hlabel := not_isLabel_plain (Code.ofString body).tokens
  have hotherwise := not_isOtherwise_plain (Code.ofString body).tokens
  have hspell := trim_line body
  rw [← spell_plain] at hspell
  cases cases with
  | cons c cases =>
    rw [Switch.body, dropWhile_append_of_pos hlabel, takeWhile_append_of_pos hlabel, blockItems,
      dropWhile_cons_of_neg (by simp [Item.isLabel]), takeWhile_cons_of_neg (by simp [Item.isLabel]), append_nil]
    exact hspell
  | nil =>
    cases otherwise with
    | none =>
      rw [Switch.body, blockItems, append_nil, dropWhile_eq_nil_iff.2 hlabel, takeWhile_eq_self_iff.2 hlabel]
      simp only [dropWhile_eq_nil_iff.2 fun i hi => hotherwise i (mem_reverse.1 hi)]
      exact hspell
    | some other =>
      have hall : ∀ i ∈ (Code.ofString body).tokens.map Item.plain ++ blockItems ((Code.ofString body).tail ++ "\n") [] (some other),
          (!i.isLabel) := by
        intro i hi
        rw [blockItems, mem_append, mem_cons, mem_cons] at hi
        rcases hi with hi | rfl | rfl | hi
        · exact hlabel i hi
        · rfl
        · rfl
        · exact not_isLabel_plain _ i hi
      have hafter : ∀ i ∈ (.plain ⟨.punct, "", ":"⟩ :: (Code.ofString other).tokens.map Item.plain).reverse, (!i.isOtherwise) = true := by
        intro i hi
        rw [mem_reverse, mem_cons] at hi
        rcases hi with rfl | hi
        · rfl
        · exact not_isOtherwise_plain _ i hi
      rw [Switch.body, dropWhile_eq_nil_iff.2 hall, takeWhile_eq_self_iff.2 hall, blockItems, reverse_append,
        reverse_cons, List.append_assoc, dropWhile_append_of_pos hafter, singleton_append,
        dropWhile_cons_of_neg (by simp [Item.isOtherwise])]
      simp only [reverse_reverse]
      exact hspell

lemma bodies_block (lead : String) (cases : List (String × String)) (otherwise : Option String) :
    bodies (blockCode lead cases otherwise).tail (blockItems lead cases otherwise) = cases.map fun c => (c.1, trim c.2) := by
  induction cases generalizing lead with
  | nil =>
    cases otherwise with
    | none => rfl
    | some body =>
      have hplain := bodies_plain (blockCode lead [] (some body)).tail (Code.ofString body).tokens []
      rw [append_nil] at hplain
      exact hplain
  | cons c cases ih =>
    have hbody := body_case c.2 cases otherwise
    have hrest := ih ((Code.ofString c.2).tail ++ "\n")
    rw [blockItems, blockCode, bodies, bodies_plain, map_cons]
    rw [hbody, hrest]

lemma firstOfEach_eq {entries : List (String × String)} (h : (entries.map (·.1)).Nodup) (seen : List String)
    (hseen : ∀ e ∈ entries, e.1 ∉ seen) : firstOfEach seen entries = entries := by
  induction entries generalizing seen with
  | nil => rfl
  | cons e entries ih =>
    obtain ⟨he, hentries⟩ := forall_mem_cons.1 hseen
    rw [map_cons, nodup_cons] at h
    rw [firstOfEach, if_neg (by simpa using he), ih h.2]
    intro e' he'
    rw [mem_cons, not_or]
    exact ⟨fun heq => h.1 (heq ▸ mem_map_of_mem he'), hentries e' he'⟩

include hids hcases hotherwise in
lemma nested_block (lead : String) :
    Nested (blockCode lead cases otherwise).tokens := by
  have hword (t : Token) (ht : isIdentifierText t.text) (ts : List Token) : nesting [] (t :: ts) = nesting [] ts :=
    nesting_flat (isFlat_identifier ht) [] ts
  have hcolon (ts : List Token) : nesting [] (⟨.punct, "", ":"⟩ :: ts) = nesting [] ts :=
    nesting_flat (by decide) [] ts
  induction cases generalizing lead with
  | nil =>
    cases otherwise with
    | none => rfl
    | some body =>
      have hdefault : isIdentifierText "default" := by decide
      rw [Nested, blockCode, hword ⟨.identifier, lead, "default"⟩ hdefault, hcolon]
      exact (hotherwise body rfl).nested
  | cons c cases ih =>
    obtain ⟨hid, hids⟩ := forall_mem_cons.1 hids
    obtain ⟨hbody, hcases⟩ := forall_mem_cons.1 hcases
    have hcase : isIdentifierText "case" := by decide
    rw [Nested, blockCode, hword ⟨.identifier, lead, "case"⟩ hcase, hword ⟨.identifier, " ", c.1⟩ hid, hcolon,
      nesting_nested hbody.nested]
    exact ih hids hcases _

end

/-- The cases of a switch statement are found as they were written, each with its trimmed body. -/
theorem cases_text (x : Statement) : cases x.text 0 = .ok (x.cases.map fun c => (c.1, Text.trim c.2)) := by
  obtain ⟨before, hfind⟩ : ∃ before, find? [] (Code.ofString x.text).tokens =
      some (before, (blockCode "" x.cases x.otherwise).tokens ++ [⟨.punct, (blockCode "" x.cases x.otherwise).tail, "\x7d"⟩]) := by
    rw [tokens_text, find?, if_pos rfl, head?_brace rfl x.nested_value rfl, if_pos rfl]
    exact ⟨_, rfl⟩
  have hblock : block? .curly ((blockCode "" x.cases x.otherwise).tokens ++
      [⟨.punct, (blockCode "" x.cases x.otherwise).tail, "\x7d"⟩]) = some (blockCode "" x.cases x.otherwise, []) :=
    block?_append ((nested_block x.identifiers x.bodies x.body_otherwise "").balanced .curly) rfl []
  have hdistinct : firstOfEach [] (x.cases.map fun c => (c.1, Text.trim c.2)) = x.cases.map fun c => (c.1, Text.trim c.2) := by
    refine firstOfEach_eq ?_ [] (by simp)
    simpa [Function.comp_def] using x.distinct
  have hindex : (Code.ofString x.text).indexAt 0 = 0 := by
    rw [indexAt, tokens_text, Code.countBefore, if_neg (Nat.not_lt_zero _)]
  simp only [cases, hindex, take_zero, reverse_nil, drop_zero, hfind, hblock, bind, Except.bind, pure, Except.pure,
    items_block x.identifiers x.bodies x.body_otherwise, bodies_block, hdistinct]

/-- A label that falls through, labels in a nested switch and in a comment, and a brace in a literal. -/
theorem cases_text_nested :
    let text := "switch (p) \x7bcase A:\ncase B: switch(y)\x7bcase C: f();\x7d // case D:\n g('\x7d');\ndefault: h();\x7d"
    cases text 0 = .ok [("A", ""), ("B", "switch(y)\x7bcase C: f();\x7d // case D:\n g('\x7d');")] := by
  intro text
  let x : Statement := {
    value := "p"
    cases := [("A", ""), ("B", " switch(y)\x7bcase C: f();\x7d // case D:\n g('\x7d');")]
    otherwise := some " h();"
    whole_value := by decide +kernel
    nested_value := by decide +kernel
    identifiers := by decide
    distinct := by decide
    bodies := by decide +kernel
    body_otherwise := by decide +kernel }
  have htext : x.text = text := by decide +kernel
  have h := cases_text x
  rw [htext] at h
  rw [h]
  exact congrArg Except.ok (by decide +kernel)

end Switch

end DeviceForge
