import DeviceForge.Proofs.Directive.Document
/-!
# Resolving a document selects its branches

`resolve` works on a text: it takes out one block at a time, the first to close, and scans again.
-/

namespace DeviceForge.Directive

open Token Segment Text List

variable {b : OpenBlock}

/-! ## What is left of the lines of a block -/

lemma closed_of_shapes {cs ds : List Char} (h : shapes cs = shapes ds)
    (hds : ∀ t ∈ (Token.scan ds).1, t.isClosed) : ∀ t ∈ (Token.scan cs).1, t.isClosed := by
  intro t ht
  have hbare : t.bare ∈ shapes ds := h ▸ mem_map_of_mem ht
  obtain ⟨u, hu, heq⟩ := mem_map.1 hbare
  obtain ⟨hkind, htext⟩ := Prod.mk.inj heq
  have := hds u hu
  simpa only [isClosed, isLineComment, hkind, htext] using this

def Line.joined {head : Head} (l : Line head) (c : Chunk) : Chunk where
  chars := l.indent ++ c.chars
  closed := closed_of_shapes (shapes_blank_append (fun d hd => blank_of_tab (l.tabs_indent d hd)) c.chars) c.closed
  unmarked := by
    rw [marked_plain l.plain_indent]
    intro p hp hcode
    rcases List.mem_append.1 hp with hp | hp
    · obtain ⟨d, hd, rfl⟩ := List.mem_map.1 hp
      rintro rfl
      exact l.mark_not_mem_indent hd
    · exact c.unmarked p hp hcode
  ended := by rw [List.getLast?_append_of_ne_nil _ c.ne_nil, c.ended]

@[simp] lemma Line.chars_joined {head : Head} (l : Line head) (c : Chunk) : (l.joined c).chars = l.indent ++ c.chars := rfl

namespace Document

variable {branches : Bool}

def append {branches : Bool} : Document false → Document branches → Document branches
  | empty, e => e
  | text chunk next, e => text chunk (next.append e)
  | block opening first closing next, e => block opening first closing (next.append e)
  | choice opening first middle second closing next, e => choice opening first middle second closing (next.append e)
  | expression opening body closing next, e => expression opening body closing (next.append e)
  | chain opening first further others closing next, e => chain opening first further others closing (next.append e)

lemma render_append (d : Document false) (e : Document branches) : (d.append e).render = d.render ++ e.render := by
  fun_induction append d e <;> simp_all [render]

lemma select_append (defined : List String) (d : Document false) (e : Document branches) :
    (d.append e).select defined = d.select defined ++ e.select defined := by
  fun_induction append d e <;> simp_all [select]

variable (defined : List String)

def settled {branches : Bool} : Document branches → Bool
  | empty => true
  | text _ next => next.settled
  | block _ _ _ _ => false
  | choice _ _ _ _ _ _ => false
  | expression _ body _ next => body.settled && next.settled
  | chain _ first _ others _ next => first.settled && others.settled && next.settled
  | branch _ _ next => next.settled

/-- Puts a branch in the place of the first block to close that tests a symbol only. -/
def step {branches : Bool} : Document branches → Document branches
  | empty => empty
  | text chunk next => text chunk next.step
  | @block _ negated _ name opening first closing next =>
    if first.settled then
      if holds defined negated name then
        text (opening.joined opening.rest) (first.append (text (closing.joined closing.rest) next))
      else text (opening.joined closing.rest) next
    else block opening first.step closing next
  | @choice _ negated _ name opening first middle second closing next =>
    if first.settled then
      if second.settled then
        if holds defined negated name then
          text (opening.joined opening.rest) (first.append (text (middle.joined closing.rest) next))
        else text (opening.joined middle.rest) (second.append (text (closing.joined closing.rest) next))
      else choice opening first middle second.step closing next
    else choice opening first.step middle second closing next
  | expression opening body closing next =>
    if body.settled then expression opening body closing next.step else expression opening body.step closing next
  | chain opening first further others closing next =>
    if first.settled then
      if others.settled then chain opening first further others closing next.step
      else chain opening first further others.step closing next
    else chain opening first.step further others closing next
  | branch line isBranch next => branch line isBranch next.step

lemma select_of_settled {d : Document branches} (h : d.settled) : d.select defined = d.render := by
  induction d with
  | empty => rfl
  | text chunk next ih => rw [select, ih h, render]
  | block | choice => cases h
  | expression opening body closing next ihbody ihnext =>
    rw [settled, Bool.and_eq_true] at h
    rw [select, ihbody h.1, ihnext h.2, render]
  | chain opening first further others closing next ihfirst ihothers ihnext =>
    rw [settled, Bool.and_eq_true, Bool.and_eq_true] at h
    rw [select, ihfirst h.1.1, ihothers h.1.2, ihnext h.2, render]
  | branch line isBranch next ih => rw [select, ih h, render]

lemma select_step (d : Document branches) : (d.step defined).select defined = d.select defined := by
  fun_induction step defined d <;> simp_all [select, select_append]

lemma length_render_step {d : Document branches} (h : d.settled = false) :
    (d.step defined).render.length < d.render.length := by
  fun_induction step defined d with
  | case1 => cases h
  -- a block that closes loses its lines
  | case3 | case4 | case6 | case7 =>
    simp only [render, render_append, Line.chars, Line.chars_joined, length_append, length_cons]
    omega
  | _ => simp_all [render, settled]

end Document

/-! ## One round -/

section Round
variable (defined : List String) (blocks : List OpenBlock) (pre post : List Char)

def round? : Option (List Char) :=
  resolveBlock? defined (pre ++ post) blocks (found (byteLength pre) 0 (marked post))

lemma round?_chunk (c : Chunk) : round? defined blocks pre (c.chars ++ post) = round? defined blocks (pre ++ c.chars) post := by
  rw [round?, c.found, round?, byteLength_append, append_assoc]

lemma round?_line {head : Head} (l : Line head) : round? defined blocks pre (l.chars ++ post) =
    resolveBlock? defined (pre ++ l.chars ++ post) blocks
      (l.directive (byteLength pre) :: found (byteLength (pre ++ l.chars)) 0 (marked post)) := by
  rw [round?, l.found, byteLength_append, append_assoc]

lemma round?_symbol {negated : Bool} {gap name : List Char} (l : Line (.symbol negated gap name)) :
    round? defined blocks pre (l.chars ++ post) =
      round? defined (⟨l.directive (byteLength pre), none, false⟩ :: blocks) (pre ++ l.chars) post := by
  rw [round?_line]
  cases negated <;> rfl

lemma round?_condition (l : Line (.condition false)) : round? defined blocks pre (l.chars ++ post) =
      round? defined (⟨l.directive (byteLength pre), none, false⟩ :: blocks) (pre ++ l.chars) post := by
  rw [round?_line]
  rfl

variable (b : OpenBlock)

lemma round?_further (l : Line (.condition true)) : round? defined (b :: blocks) pre (l.chars ++ post) =
      round? defined (⟨b.head, b.otherwise, true⟩ :: blocks) (pre ++ l.chars) post := by
  rw [round?_line]
  rfl

lemma round?_otherwise (l : Line .otherwise) : round? defined (b :: blocks) pre (l.chars ++ post) =
      round? defined (⟨b.head, some (l.directive (byteLength pre)), b.branches⟩ :: blocks) (pre ++ l.chars) post := by
  rw [round?_line]
  rfl

lemma round?_endIf (l : Line .endIf) : round? defined (b :: blocks) pre (l.chars ++ post) =
      match b.taken? defined with
      | some taken => some (b.resolve (pre ++ l.chars ++ post) (l.directive (byteLength pre)) taken)
      | none => round? defined blocks (pre ++ l.chars) post := by
  rw [round?_line]
  rfl

lemma round?_branch {head : Head} (l : Line head) (h : head.isBranch) :
    ∃ b' : OpenBlock, b'.head = b.head ∧ (b.branches → b'.branches) ∧
      ∀ post, round? defined (b :: blocks) pre (l.chars ++ post) = round? defined (b' :: blocks) (pre ++ l.chars) post := by
  cases head with
  | condition further =>
    obtain rfl : further := h
    exact ⟨⟨b.head, b.otherwise, true⟩, rfl, fun _ => rfl, fun post => round?_further defined blocks pre post b l⟩
  | otherwise => exact ⟨⟨b.head, some _, b.branches⟩, rfl, id, fun post => round?_otherwise defined blocks pre post b l⟩
  | symbol | endIf => cases h

end Round

def Passed : Bool → List OpenBlock → List OpenBlock → Prop
  | false, blocks, blocks' => blocks' = blocks
  | true, blocks, blocks' => ∃ b b' outer, blocks = b :: outer ∧ blocks' = b' :: outer ∧ b'.head = b.head ∧
      (b.branches = true → b'.branches = true)

def Accepts (branches : Bool) (blocks : List OpenBlock) : Prop :=
  branches = true → blocks ≠ []

lemma accepts_false (blocks : List OpenBlock) : Accepts false blocks := by
  rintro ⟨⟩

lemma accepts_cons (branches : Bool) (b : OpenBlock) (blocks : List OpenBlock) : Accepts branches (b :: blocks) :=
  fun _ => cons_ne_nil b blocks

lemma Accepts.passed_self {branches : Bool} {blocks : List OpenBlock} (h : Accepts branches blocks) :
    Passed branches blocks blocks := by
  cases branches with
  | false => rfl
  | true =>
    obtain ⟨b, outer, rfl⟩ := exists_cons_of_ne_nil (h rfl)
    exact ⟨b, b, outer, rfl, rfl, rfl, id⟩

lemma Passed.exists_cons {blocks blocks' : List OpenBlock} (h : Passed true (b :: blocks) blocks') :
    ∃ b', blocks' = b' :: blocks ∧ b'.head = b.head ∧ (b.branches → b'.branches) := by
  obtain ⟨_, b', _, hb, rfl, hhead, hbranches⟩ := h
  obtain ⟨rfl, rfl⟩ := cons.inj hb
  exact ⟨b', rfl, hhead, hbranches⟩

lemma taken?_symbol (defined : List String) {negated : Bool} {gap name : List Char} (l : Line (.symbol negated gap name)) (pos : Nat)
    (otherwise : Option Directive) :
    OpenBlock.taken? defined ⟨l.directive pos, otherwise, false⟩ = some (holds defined negated name) := by
  cases negated <;> simp [OpenBlock.taken?, Line.directive, Head.kind, holds]

lemma taken?_condition (defined : List String) (l : Line (.condition false)) (pos : Nat)
    (h : b.head = l.directive pos) : b.taken? defined = none := by
  simp [OpenBlock.taken?, h, Line.directive, Head.kind]

lemma taken?_branches (defined : List String) (h : b.branches) : b.taken? defined = none := by
  simp [OpenBlock.taken?, h]

namespace Document
variable (defined : List String)
variable {branches negated : Bool} {d first second : Document false} {gap name : List Char}

lemma round?_settled {d : Document branches} (h : d.settled) {blocks : List OpenBlock}
    (hblocks : Accepts branches blocks) (pre post : List Char) : ∃ blocks', Passed branches blocks blocks' ∧
      round? defined blocks pre (d.render ++ post) = round? defined blocks' (pre ++ d.render) post := by
  induction d generalizing blocks pre post with
  | empty => exact ⟨blocks, hblocks.passed_self, by simp [render]⟩
  | text chunk next ih =>
    obtain ⟨blocks', hpassed, hnext⟩ := ih h hblocks (pre ++ chunk.chars) post
    refine ⟨blocks', hpassed, ?_⟩
    simp only [render, append_assoc, round?_chunk] at hnext ⊢
    exact hnext
  | block | choice => cases h
  | expression opening body closing next ihbody ihnext =>
    rw [settled, Bool.and_eq_true] at h
    obtain ⟨_, hpassed, hbody⟩ := ihbody h.1 (accepts_cons _ ⟨opening.directive (byteLength pre), none, false⟩ blocks)
      (pre ++ opening.chars) (closing.chars ++ (next.render ++ post))
    obtain ⟨b, rfl, hhead, -⟩ := hpassed.exists_cons
    obtain ⟨blocks', hpassed, hnext⟩ := ihnext h.2 hblocks (pre ++ opening.chars ++ body.render ++ closing.chars) post
    refine ⟨blocks', hpassed, ?_⟩
    simp only [render, append_assoc, round?_condition, round?_endIf, taken?_condition defined opening _ hhead]
      at hbody hnext ⊢
    rw [hbody, hnext]
  | chain opening first further others closing next ihfirst ihothers ihnext =>
    rw [settled, Bool.and_eq_true, Bool.and_eq_true] at h
    obtain ⟨-, rfl, hfirst⟩ := ihfirst h.1.1 (accepts_false _) (pre ++ opening.chars)
      (further.chars ++ (others.render ++ (closing.chars ++ (next.render ++ post))))
    obtain ⟨_, hpassed, hothers⟩ := ihothers h.1.2 (accepts_cons _ ⟨opening.directive (byteLength pre), none, true⟩ blocks)
      (pre ++ opening.chars ++ first.render ++ further.chars) (closing.chars ++ (next.render ++ post))
    obtain ⟨b, rfl, -, hbranches⟩ := hpassed.exists_cons
    obtain ⟨blocks', hpassed, hnext⟩ := ihnext h.2 hblocks
      (pre ++ opening.chars ++ first.render ++ further.chars ++ others.render ++ closing.chars) post
    refine ⟨blocks', hpassed, ?_⟩
    simp only [render, append_assoc, round?_symbol, round?_endIf, taken?_branches defined (hbranches rfl)]
      at hfirst hothers hnext ⊢
    rw [hfirst, round?_further]
    simp only [append_assoc, hothers, hnext]
  | branch line isBranch next ih =>
    obtain ⟨b, outer, rfl⟩ := exists_cons_of_ne_nil (hblocks rfl)
    obtain ⟨b', hhead, hbranches, hline⟩ := round?_branch defined outer pre b line isBranch
    obtain ⟨_, hpassed, hnext⟩ := ih h (accepts_cons _ b' outer) (pre ++ line.chars) post
    obtain ⟨c, rfl, hhead', hbranches'⟩ := hpassed.exists_cons
    refine ⟨_, ⟨b, c, outer, rfl, rfl, hhead'.trans hhead, fun h => hbranches' (hbranches h)⟩, ?_⟩
    rw [render, append_assoc, hline, hnext, append_assoc]

lemma round?_plain (h : d.settled) (blocks : List OpenBlock) (pre post : List Char) :
    round? defined blocks pre (d.render ++ post) = round? defined blocks (pre ++ d.render) post := by
  obtain ⟨_, rfl, heq⟩ := round?_settled defined h (accepts_false blocks) pre post
  exact heq

lemma round?_block (opening : Line (.symbol negated gap name)) (h : first.settled) (closing : Line .endIf)
    (blocks : List OpenBlock) (pre post : List Char) :
    round? defined blocks pre (opening.chars ++ (first.render ++ (closing.chars ++ post))) =
      some (pre ++ (opening.indent ++ ((if holds defined negated name then opening.rest.chars ++ (first.render ++ closing.indent) else []) ++
        (closing.rest.chars ++ post)))) := by
  have hclosing : Stands (closing.directive (byteLength (pre ++ opening.chars ++ first.render)))
      (pre ++ opening.indent ++ opening.spelled ++ (opening.rest.chars ++ (first.render ++ closing.indent))) closing.spelled := by
    simpa only [opening.chars_eq rfl, append_assoc] using closing.stands (pre ++ opening.chars ++ first.render)
  have hresolve : OpenBlock.resolve (_ ++ (closing.rest.chars ++ post)) ⟨opening.directive (byteLength pre), none, false⟩ _ _ = _ :=
    resolve_block rfl (opening.stands pre) hclosing (holds defined negated name)
  rw [round?_symbol, round?_plain defined h, round?_endIf, taken?_symbol]
  simp only [opening.chars_eq rfl, closing.chars_eq rfl, append_assoc] at hresolve ⊢
  rw [hresolve]

lemma round?_choice (opening : Line (.symbol negated gap name)) (hfirst : first.settled) (middle : Line .otherwise)
    (hsecond : second.settled) (closing : Line .endIf) (blocks : List OpenBlock) (pre post : List Char) :
    round? defined blocks pre (opening.chars ++ (first.render ++ (middle.chars ++ (second.render ++ (closing.chars ++ post))))) =
      some (pre ++ (opening.indent ++ ((if holds defined negated name then opening.rest.chars ++ (first.render ++ middle.indent)
          else middle.rest.chars ++ (second.render ++ closing.indent)) ++ (closing.rest.chars ++ post)))) := by
  have hmiddle : Stands (middle.directive (byteLength (pre ++ opening.chars ++ first.render)))
      (pre ++ opening.indent ++ opening.spelled ++ (opening.rest.chars ++ (first.render ++ middle.indent))) middle.spelled := by
    simpa only [opening.chars_eq rfl, append_assoc] using middle.stands (pre ++ opening.chars ++ first.render)
  have hclosing : Stands (closing.directive (byteLength (pre ++ opening.chars ++ first.render ++ middle.chars ++ second.render)))
      (pre ++ opening.indent ++ opening.spelled ++ (opening.rest.chars ++ (first.render ++ middle.indent)) ++ middle.spelled ++
        (middle.rest.chars ++ (second.render ++ closing.indent))) closing.spelled := by
    simpa only [opening.chars_eq rfl, middle.chars_eq rfl, append_assoc] using
      closing.stands (pre ++ opening.chars ++ first.render ++ middle.chars ++ second.render)
  have hresolve : OpenBlock.resolve (_ ++ (closing.rest.chars ++ post)) ⟨opening.directive (byteLength pre), some _, false⟩ _ _ = _ :=
    resolve_choice rfl (opening.stands pre) hmiddle hclosing (holds defined negated name)
  rw [round?_symbol, round?_plain defined hfirst, round?_otherwise, round?_plain defined hsecond, round?_endIf, taken?_symbol]
  simp only [opening.chars_eq rfl, middle.chars_eq rfl, closing.chars_eq rfl, append_assoc] at hresolve ⊢
  rw [hresolve]

lemma round?_step {d : Document branches} (h : d.settled = false) (blocks : List OpenBlock)
    (hblocks : Accepts branches blocks) (pre post : List Char) :
    round? defined blocks pre (d.render ++ post) = some (pre ++ ((d.step defined).render ++ post)) := by
  induction d generalizing blocks pre post with
  | empty => cases h
  | text chunk next ih => simp only [render, step, append_assoc, round?_chunk, ih h blocks hblocks]
  | @block _ negated _ name opening first closing next ih =>
    rw [step]
    split
    · rename_i hfirst
      simp only [render, append_assoc, round?_block defined opening hfirst]
      split <;> simp [render, render_append]
    · rename_i hfirst
      simp only [render, append_assoc, round?_symbol, ih (by simpa using hfirst) _ (accepts_false _)]
  | @choice _ negated _ name opening first middle second closing next ihfirst ihsecond =>
    rw [step]
    split
    · rename_i hfirst
      split
      · rename_i hsecond
        simp only [render, append_assoc, round?_choice defined opening hfirst middle hsecond]
        split <;> simp [render, render_append]
      · rename_i hsecond
        simp only [render, append_assoc, round?_symbol, round?_plain defined hfirst, round?_otherwise,
          ihsecond (by simpa using hsecond) _ (accepts_false _)]
    · rename_i hfirst
      simp only [render, append_assoc, round?_symbol, ihfirst (by simpa using hfirst) _ (accepts_false _)]
  | expression opening body closing next ihbody ihnext =>
    rw [step]
    split
    · rename_i hbody
      have hpass := round?_plain defined (d := .expression opening body closing .empty) (by simp [settled, hbody]) blocks pre
        (next.render ++ post)
      simp only [render, append_assoc, append_nil] at hpass ⊢
      rw [hpass, ihnext (by simpa [settled, hbody] using h) blocks hblocks]
      simp only [append_assoc]
    · rename_i hbody
      simp only [render, append_assoc, round?_condition, ihbody (by simpa using hbody) _ (accepts_cons _ _ _)]
  | chain opening first further others closing next ihfirst ihothers ihnext =>
    rw [step]
    split
    · rename_i hfirst
      split
      · rename_i hothers
        have hpass := round?_plain defined (d := .chain opening first further others closing .empty) (by simp [settled, hfirst, hothers])
          blocks pre (next.render ++ post)
        simp only [render, append_assoc, append_nil] at hpass ⊢
        rw [hpass, ihnext (by simpa [settled, hfirst, hothers] using h) blocks hblocks]
        simp only [append_assoc]
      · rename_i hothers
        simp only [render, append_assoc, round?_symbol, round?_plain defined hfirst, round?_further,
          ihothers (by simpa using hothers) _ (accepts_cons _ _ _)]
    · rename_i hfirst
      simp only [render, append_assoc, round?_symbol, ihfirst (by simpa using hfirst) _ (accepts_false _)]
  | branch line isBranch next ih =>
    obtain ⟨b, outer, rfl⟩ := exists_cons_of_ne_nil (hblocks rfl)
    obtain ⟨b', -, -, hline⟩ := round?_branch defined outer pre b line isBranch
    simp only [render, step, append_assoc, hline, ih h _ (accepts_cons _ b' outer)]

end Document

lemma resolveBlock?_render (defined : List String) (d : Document false) :
    resolveBlock? defined d.render [] (ofChars d.render) = if d.settled then none else some (d.step defined).render := by
  have hround : resolveBlock? defined d.render [] (ofChars d.render) = round? defined [] [] (d.render ++ []) := by
    rw [ofChars_eq, round?, List.append_nil, List.nil_append, byteLength_nil]
  rw [hround]
  split_ifs with h
  · rw [Document.round?_plain defined h, round?]
    simp [marked, Segment.ofChars, found_nil, resolveBlock?]
  · rw [Document.round?_step defined (by simpa using h) [] (accepts_false _), List.nil_append, List.append_nil]

lemma resolveBlocks_render (defined : List String) (d : Document false) : resolveBlocks defined d.render = d.select defined := by
  induction hn : d.render.length using Nat.strong_induction_on generalizing d with
  | _ n ih =>
    rw [resolveBlocks, resolveBlock?_render]
    split
    · rename_i h
      exact (Document.select_of_settled defined (by simpa using h)).symm
    · rename_i next h
      obtain ⟨hd, rfl⟩ : d.settled = false ∧ (d.step defined).render = next := by simpa using h
      have hlt := Document.length_render_step defined hd
      rw [if_pos hlt, ih _ (hn ▸ hlt) _ rfl, Document.select_step]

/-! ## No definitions -/

def Conditional (cs : List Char) : Prop :=
  ∀ pos post, ∀ x ∈ found pos 0 (marked (cs ++ post)),
    (∃ head : Head, x.kind = head.kind) ∨ x ∈ found (pos + byteLength cs) 0 (marked post)

lemma Conditional.append {as bs : List Char} (has : Conditional as) (hbs : Conditional bs) : Conditional (as ++ bs) := by
  intro pos post x hx
  rw [append_assoc] at hx
  rcases has pos (bs ++ post) x hx with h | h
  · exact .inl h
  · rw [byteLength_append, ← Nat.add_assoc]
    exact hbs _ post x h

lemma Chunk.conditional (c : Chunk) : Conditional c.chars := by
  intro pos post x hx
  rw [c.found] at hx
  exact .inr hx

lemma Line.conditional {head : Head} (l : Line head) : Conditional l.chars := by
  intro pos post x hx
  rw [l.found, mem_cons] at hx
  rcases hx with rfl | hx
  · exact .inl ⟨head, rfl⟩
  · exact .inr hx

lemma Document.conditional {branches : Bool} (d : Document branches) : Conditional d.render := by
  induction d with
  | empty => exact fun pos post x hx => .inr hx
  | text chunk next ih => exact chunk.conditional.append ih
  | block opening first closing next ihfirst ihnext =>
    exact ((opening.conditional.append ihfirst).append closing.conditional).append ihnext
  | choice opening first middle second closing next ihfirst ihsecond ihnext =>
    exact ((((opening.conditional.append ihfirst).append middle.conditional).append ihsecond).append closing.conditional).append ihnext
  | expression opening body closing next ihbody ihnext =>
    exact ((opening.conditional.append ihbody).append closing.conditional).append ihnext
  | chain opening first further others closing next ihfirst ihothers ihnext =>
    exact ((((opening.conditional.append ihfirst).append further.conditional).append ihothers).append closing.conditional).append ihnext
  | branch line isBranch next ih => exact line.conditional.append ih

lemma dropped?_of_head {d : Directive} {head : Head} (h : d.kind = head.kind) (cs : List Char) : d.dropped? cs = none := by
  rw [dropped?, h]
  unfold Head.kind
  split
  · rename_i heq
    split at heq <;> cases heq
  · rename_i heq
    split at heq <;> cases heq
  · rfl

lemma dropDefinitions_render (d : Document false) : dropDefinitions d.render = d.render := by
  have hnone : ∀ x ∈ ofChars d.render, x.dropped? d.render = none := by
    intro x hx
    rw [ofChars_eq, ← append_nil d.render] at hx
    rcases d.conditional 0 [] x hx with ⟨head, hhead⟩ | hx
    · exact dropped?_of_head hhead _
    · simp [marked, Segment.ofChars, found_nil] at hx
  rw [dropDefinitions]
  generalize ofChars d.render = ds at hnone
  induction ds with
  | nil => rfl
  | cons x ds ih =>
    rw [forall_mem_cons] at hnone
    rw [foldr_cons, hnone.1]
    exact ih hnone.2

/-- Resolving the text of a document gives the text that the defined symbols select. -/
theorem resolve_render (defined : List String) (d : Document false) :
    resolve defined (String.ofList d.render) = String.ofList (d.select defined) := by
  rw [resolve, String.toList_ofList, dropDefinitions_render, resolveBlocks_render]

example : ∃ d : Document false, String.ofList d.render = "#ifdef A\n/* # */\n  # else\n#endif\n" ∧
    String.ofList (d.select ["A"]) = "\n/* # */\n  \n" ∧ String.ofList (d.select ["B"]) = "\n\n" := by
  let newline : Chunk := ⟨['\n'], by decide +kernel, by decide +kernel, rfl⟩
  let comment : Chunk := ⟨"/* # */\n".toList, by decide +kernel, by decide +kernel, rfl⟩
  let plain (head : Head) (h : head.WellFormed) : Line head := ⟨[], [], newline, h, by simp [Tabs], by simp [Tabs], by rintro c ⟨⟩; rfl⟩
  let opening : Line (.symbol false [' '] ['A']) := plain _ (by simp [Head.WellFormed, Tabs]; decide)
  let middle : Line .otherwise := ⟨[' ', ' '], [' '], newline, trivial, by simp [Tabs, isTab], by simp [Tabs, isTab],
    by rintro c ⟨⟩; rfl⟩
  refine ⟨.choice opening (.text comment .empty) middle .empty (plain .endIf trivial) .empty, ?_, ?_, ?_⟩
  all_goals decide +kernel

end DeviceForge.Directive
