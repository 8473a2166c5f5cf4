import DeviceForge.Proofs.Token.Between
/-!
# Statements

The code of an entry point as statements: simple ones, blocks, branches and loops.
-/

namespace DeviceForge

open List

open Token (Shapes word sign)

/-- The forms that parts of code take. -/
inductive Statement.Form where
  | single
  /-- What stands behind the first branch of an `if`. -/
  | branch
  | list

/-- A statement, a second branch or a list of statements. -/
inductive Statement : Statement.Form → Type where
  /-- Tokens before a semicolon. -/
  | simple (tokens : Shapes) : Statement .single
  | block (body : Statement .list) : Statement .single
  | choice (head : Shapes) (yes : Statement .single) (no : Statement .branch) : Statement .single
  | loop (keyword : String) (head : Shapes) (body : Statement .single) : Statement .single
  /-- No second branch. -/
  | without : Statement .branch
  | otherwise (no : Statement .single) : Statement .branch
  | nil : Statement .list
  | cons (first : Statement .single) (rest : Statement .list) : Statement .list

namespace Statement

variable {k : Form} {xs ys r r' tokens head head' : Shapes} {keyword code : String}
  {body yes first : Statement .single} {no : Statement .branch}

/-- Code as it is written. -/
def shapes : {k : Form} → Statement k → Shapes
  | _, .simple tokens => tokens ++ [sign ";"]
  | _, .block body => sign "\x7b" :: (shapes body ++ [sign "\x7d"])
  | _, .choice head yes no => word "if" :: sign "(" :: (head ++ sign ")" :: (shapes yes ++ shapes no))
  | _, .loop keyword head body => word keyword :: sign "(" :: (head ++ sign ")" :: shapes body)
  | _, .without => []
  | _, .otherwise no => word "else" :: shapes no
  | _, .nil => []
  | _, .cons first rest => shapes first ++ shapes rest

def isOpen : {k : Form} → Statement k → Bool
  | _, .choice _ _ no => isOpen no
  | _, .loop _ _ body => isOpen body
  | _, .without => true
  | _, .otherwise no => isOpen no
  | _, .simple _ | _, .block _ | _, .nil | _, .cons _ _ => false

/-- Every parenthesis that tokens close is open, and none stays open; `depth` of them are open at first. -/
def isBalanced (depth : Nat) : Shapes → Bool
  | [] => depth = 0
  | x :: xs =>
    if x = sign "(" then isBalanced (depth + 1) xs
    else if x = sign ")" then depth ≠ 0 && isBalanced (depth - 1) xs
    else isBalanced depth xs

def reserved : List String :=
  [";", "\x7b", "\x7d", "if", "else", "for", "while"]

/-- Simple statements are simple, the heads of branches and loops are balanced, and no branch before an `else` would take
the `else` for itself. -/
def isWellFormed : {k : Form} → Statement k → Bool
  | _, .simple tokens => tokens.all (·.2 ∉ reserved)
  | _, .block body => isWellFormed body
  | _, .choice head yes .without => isBalanced 0 head && isWellFormed yes
  | _, .choice head yes (.otherwise no) => isBalanced 0 head && isWellFormed yes && !isOpen yes && isWellFormed no
  | _, .loop keyword head body => keyword ∈ ["for", "while"] && isBalanced 0 head && isWellFormed body
  | _, .without => true
  | _, .otherwise no => isWellFormed no
  | _, .nil => true
  | _, .cons first rest => isWellFormed first && isWellFormed rest

lemma shapes_ne_nil (s : Statement .single) : s.shapes ≠ [] := by
  cases s <;> simp [shapes]

lemma last_shapes (s : Statement k) : ∀ x ∈ s.shapes.getLast?, x = sign ";" ∨ x = sign "\x7d" := by
  have hcases {xs ys : Shapes} {x : Token.Kind × String} (h : x ∈ (xs ++ ys).getLast?) : x ∈ ys.getLast? ∨ x ∈ xs.getLast? := by
    rw [getLast?_append] at h
    cases hys : ys.getLast? with
    | none => exact .inr (by simpa [hys] using h)
    | some y => exact .inl (by simpa [hys] using h)
  induction s with
  | simple tokens => simp [shapes]
  | block body ih => simp [shapes, getLast?_cons]
  | choice head yes no ih ih' =>
    intro x hx
    have hsplit : (choice head yes no).shapes = (word "if" :: sign "(" :: (head ++ [sign ")"])) ++ yes.shapes ++ no.shapes := by
      simp [shapes]
    rw [hsplit] at hx
    rcases hcases hx with hno | hyes
    · exact ih' x hno
    · rw [getLast?_append_of_ne_nil _ yes.shapes_ne_nil] at hyes
      exact ih x hyes
  | loop keyword head body ih =>
    intro x hx
    have hsplit : (loop keyword head body).shapes = (word keyword :: sign "(" :: (head ++ [sign ")"])) ++ body.shapes := by
      simp [shapes]
    rw [hsplit, getLast?_append_of_ne_nil _ body.shapes_ne_nil] at hx
    exact ih x hx
  | without => simp [shapes]
  | otherwise no ih =>
    intro x hx
    rw [shapes, ← singleton_append, getLast?_append_of_ne_nil _ no.shapes_ne_nil] at hx
    exact ih x hx
  | nil => simp [shapes]
  | cons first rest ih ih' =>
    intro x hx
    rcases hcases hx with hrest | hfirst
    · exact ih' x hrest
    · exact ih x hfirst

lemma append_cons_inj {x : Token.Kind × String} (hxs : x ∉ xs) (hys : x ∉ ys)
    (h : xs ++ x :: r = ys ++ x :: r') : xs = ys ∧ r = r' := by
  have hlen {xs r : Shapes} (hxs : x ∉ xs) : (xs ++ x :: r).idxOf x = xs.length := by
    rw [idxOf_append_of_notMem hxs, idxOf_cons_self, Nat.add_zero]
  have heq : xs.length = ys.length := by rw [← hlen hxs (r := r), h, hlen hys]
  obtain ⟨hleft, hright⟩ := append_inj h heq
  exact ⟨hleft, (List.cons.inj hright).2⟩

lemma isBalanced_inj {depth : Nat} (hxs : isBalanced depth xs) (hys : isBalanced depth ys)
    (h : xs ++ sign ")" :: r = ys ++ sign ")" :: r') : xs = ys ∧ r = r' := by
  induction xs generalizing depth ys with
  | nil =>
    cases ys with
    | nil => exact ⟨rfl, (List.cons.inj h).2⟩
    | cons y ys =>
      obtain ⟨rfl, -⟩ := List.cons.inj h
      obtain rfl : depth = 0 := by simpa [isBalanced] using hxs
      simp [isBalanced, sign] at hys
  | cons x xs ih =>
    cases ys with
    | nil =>
      obtain ⟨rfl, -⟩ := List.cons.inj h
      obtain rfl : depth = 0 := by simpa [isBalanced] using hys
      simp [isBalanced, sign] at hxs
    | cons y ys =>
      obtain ⟨rfl, hrest⟩ := List.cons.inj h
      rw [isBalanced] at hxs hys
      have hinj {depth : Nat} (hxs : isBalanced depth xs) (hys : isBalanced depth ys) : x :: xs = x :: ys ∧ r = r' := by
        obtain ⟨rfl, hr⟩ := ih hxs hys hrest
        exact ⟨rfl, hr⟩
      split at hxs
      · rw [if_pos ‹_›] at hys
        exact hinj hxs hys
      · rw [if_neg ‹_›] at hys
        split at hxs
        · rw [if_pos ‹_›] at hys
          exact hinj (Bool.and_eq_true_iff.1 hxs).2 (Bool.and_eq_true_iff.1 hys).2
        · rw [if_neg ‹_›] at hys
          exact hinj hxs hys

/-! ## Reading is unique -/

def Follows : {k : Form} → Statement k → Shapes → Prop
  | .list, _, r => ∀ x ∈ r.head?, x = sign "\x7d"
  | .single, s, r | .branch, s, r => s.isOpen = true → r.head? ≠ some (word "else")

lemma head_simple (h : (simple tokens).isWellFormed) :
    ∃ x xs, (simple tokens).shapes = x :: xs ∧ x.2 ∉ ["\x7b", "\x7d", "if", "else", "for", "while"] := by
  cases tokens with
  | nil => exact ⟨_, [], rfl, by decide⟩
  | cons x xs =>
    obtain ⟨hx, -⟩ : x.2 ∉ reserved ∧ _ := by simpa [isWellFormed] using h
    exact ⟨x, _, rfl, fun hmem => hx (mem_cons_of_mem _ hmem)⟩

lemma head_single (s : Statement .single) (h : s.isWellFormed) :
    ∃ x xs, s.shapes = x :: xs ∧ x ≠ word "else" ∧ x ≠ sign "\x7d" := by
  cases s with
  | simple tokens =>
    obtain ⟨x, xs, hshapes, hx⟩ := head_simple h
    refine ⟨x, xs, hshapes, ?_, ?_⟩ <;> rintro rfl <;> exact hx (by decide)
  | block body | choice head yes no => exact ⟨_, _, rfl, by decide, by decide⟩
  | loop keyword head body =>
    simp only [isWellFormed, Bool.and_eq_true, decide_eq_true_eq] at h
    refine ⟨_, _, rfl, ?_, by simp [word, sign]⟩
    intro heq
    obtain rfl : keyword = "else" := congrArg Prod.snd heq
    exact absurd h.1.1 (by decide)

lemma keyword_of_loop (h : (loop keyword head body).isWellFormed) :
    keyword ∈ ["for", "while"] ∧ isBalanced 0 head ∧ body.isWellFormed := by
  simpa [isWellFormed, and_assoc] using h

lemma not_simple {y : Token.Kind × String} (h : (simple tokens).isWellFormed)
    (heq : (simple tokens).shapes ++ r = y :: ys) : y.2 ∉ ["\x7b", "\x7d", "if", "else", "for", "while"] := by
  obtain ⟨x, xs, hshapes, hx⟩ := head_simple h
  rw [hshapes] at heq
  obtain ⟨rfl, -⟩ := List.cons.inj heq
  exact hx

lemma not_simple_loop (h : (simple tokens).isWellFormed) (hloop : (loop keyword head body).isWellFormed)
    (heq : (simple tokens).shapes ++ r = (loop keyword head body).shapes ++ r') : False := by
  have hkeyword := (keyword_of_loop hloop).1
  have hword := not_simple h heq
  simp only [word, mem_cons, not_mem_nil, or_false] at hkeyword hword
  rcases hkeyword with rfl | rfl <;> simp at hword

lemma not_choice_loop (hloop : (loop keyword head' body).isWellFormed)
    (heq : (choice head yes no).shapes ++ r = (loop keyword head' body).shapes ++ r') : False := by
  have hword : "if" = keyword := congrArg Prod.snd (List.cons.inj heq).1
  exact absurd (hword ▸ (keyword_of_loop hloop).1) (by decide)

lemma follows_yes (h : (choice head yes no).isWellFormed) (hr : (choice head yes no).Follows r) :
    yes.Follows (no.shapes ++ r) := by
  intro hopen
  cases no with
  | without => exact hr rfl
  | otherwise no =>
    simp only [isWellFormed, Bool.and_eq_true, Bool.not_eq_true'] at h
    simp [h.1.2] at hopen

lemma wellFormed_choice (h : (choice head yes no).isWellFormed) :
    isBalanced 0 head ∧ yes.isWellFormed ∧ no.isWellFormed := by
  cases no <;> simp_all [isWellFormed]

lemma follows_first {rest : Statement .list} (h : rest.isWellFormed)
    (hr : (cons first rest).Follows r) : first.Follows (rest.shapes ++ r) := by
  intro _
  cases rest with
  | nil =>
    intro helse
    exact absurd (hr _ helse) (by decide)
  | cons second rest =>
    obtain ⟨x, xs, hshapes, hx, -⟩ := head_single second (by simpa [isWellFormed] using (Bool.and_eq_true_iff.1 h).1)
    rw [shapes, hshapes]
    simpa using hx

lemma shapes_inj (s s' : Statement k) (hs : s.isWellFormed) (hs' : s'.isWellFormed)
    (hr : s.Follows r) (hr' : s'.Follows r') (h : s.shapes ++ r = s'.shapes ++ r') : s = s' ∧ r = r' := by
  induction s generalizing r r' with
  | simple tokens =>
    cases s' with
    | simple tokens' =>
      have hfree {ts : Shapes} (hts : (simple ts).isWellFormed = true) : sign ";" ∉ ts := by
        intro hmem
        exact absurd (all_eq_true.1 hts _ hmem) (by decide)
      simp only [shapes, List.append_assoc, cons_append, nil_append] at h
      obtain ⟨rfl, htail⟩ := append_cons_inj (hfree hs) (hfree hs') h
      exact ⟨rfl, htail⟩
    | block body | choice head yes no => exact absurd (by decide) (not_simple hs h)
    | loop keyword head body => exact (not_simple_loop hs hs' h).elim
  | block body ih =>
    cases s' with
    | simple tokens' => exact absurd (by decide) (not_simple hs' h.symm)
    | block body' =>
      simp only [shapes, cons_append, List.append_assoc, List.cons.injEq, true_and, nil_append] at h
      obtain ⟨rfl, htail⟩ := ih body' hs hs' (by simp [Follows]) (by simp [Follows]) h
      exact ⟨rfl, (List.cons.inj htail).2⟩
    | choice head yes no | loop keyword head body => simp [shapes, word, sign] at h
  | choice head yes no ih ih' =>
    cases s' with
    | simple tokens' => exact absurd (by decide) (not_simple hs' h.symm)
    | block body' => simp [shapes, word, sign] at h
    | choice head' yes' no' =>
      obtain ⟨hhead, hyes, hno⟩ := wellFormed_choice hs
      obtain ⟨hhead', hyes', hno'⟩ := wellFormed_choice hs'
      simp only [shapes, cons_append, List.append_assoc, List.cons.injEq, true_and] at h
      obtain ⟨rfl, hrest⟩ := isBalanced_inj hhead hhead' h
      obtain ⟨rfl, hbranch⟩ := ih yes' hyes hyes' (follows_yes hs hr) (follows_yes hs' hr') hrest
      obtain ⟨rfl, htail⟩ := ih' no' hno hno' hr hr' hbranch
      exact ⟨rfl, htail⟩
    | loop keyword head body => exact (not_choice_loop hs' h).elim
  | loop keyword head body ih =>
    cases s' with
    | simple tokens' => exact (not_simple_loop hs' hs h.symm).elim
    | block body' => simp [shapes, word, sign] at h
    | choice head' yes' no' => exact (not_choice_loop hs h.symm).elim
    | loop keyword' head' body' =>
      obtain ⟨-, hhead, hbody⟩ := keyword_of_loop hs
      obtain ⟨-, hhead', hbody'⟩ := keyword_of_loop hs'
      simp only [shapes, cons_append, List.append_assoc, List.cons.injEq, true_and] at h
      obtain ⟨hkeyword, h⟩ := h
      obtain rfl : keyword = keyword' := congrArg Prod.snd hkeyword
      obtain ⟨rfl, hrest⟩ := isBalanced_inj hhead hhead' h
      obtain ⟨rfl, htail⟩ := ih body' hbody hbody' hr hr' hrest
      exact ⟨rfl, htail⟩
  | without =>
    cases s' with
    | without => exact ⟨rfl, h⟩
    | otherwise no => exact absurd (by rw [show r = _ from h]; rfl) (hr rfl)
  | otherwise no ih =>
    cases s' with
    | without => exact absurd (by rw [show r' = _ from h.symm]; rfl) (hr' rfl)
    | otherwise no' =>
      obtain ⟨rfl, htail⟩ := ih no' hs hs' hr hr' (List.cons.inj h).2
      exact ⟨rfl, htail⟩
  | nil =>
    cases s' with
    | nil => exact ⟨rfl, h⟩
    | cons first rest =>
      obtain ⟨x, xs, hshapes, -, hx⟩ := head_single first (Bool.and_eq_true_iff.1 hs').1
      exact absurd (hr x (by rw [show r = _ from h, shapes, hshapes]; rfl)) hx
  | cons first rest ih ih' =>
    cases s' with
    | nil =>
      obtain ⟨x, xs, hshapes, -, hx⟩ := head_single first (Bool.and_eq_true_iff.1 hs).1
      exact absurd (hr' x (by rw [show r' = _ from h.symm, shapes, hshapes]; rfl)) hx
    | cons first' rest' =>
      obtain ⟨hfirst, hrest⟩ := Bool.and_eq_true_iff.1 hs
      obtain ⟨hfirst', hrest'⟩ := Bool.and_eq_true_iff.1 hs'
      simp only [shapes, List.append_assoc] at h
      obtain ⟨rfl, hmore⟩ := ih first' hfirst hfirst' (follows_first hrest hr) (follows_first hrest' hr') h
      obtain ⟨rfl, htail⟩ := ih' rest' hrest hrest' hr hr' hmore
      exact ⟨rfl, htail⟩

/-- The statements of a text. -/
structure ReadFrom (body : Statement .list) (code : String) : Prop where
  shapes : Code.shapes code = body.shapes
  wellFormed : body.isWellFormed = true

lemma ReadFrom.unique {body other : Statement .list} (h : body.ReadFrom code) (h' : other.ReadFrom code) :
    body = other := by
  have hend (s : Statement .list) : s.Follows [] := by simp [Follows]
  refine (shapes_inj body other h.wellFormed h'.wellFormed (hend body) (hend other) ?_).1
  rw [← h.shapes, ← h'.shapes]

end Statement

end DeviceForge

/-! # Running statements -/

namespace DeviceForge.Statement

open List

open Token (Shapes word sign)

/-- The wrappers of the parameters, and everything else. -/
structure Store (V R : Type) where
  given : String → Bool
  value : String → V
  rest : R

/-- How a statement ends: the next one follows, a loop is left or goes on with its next round, or all of the code is left. -/
inductive Exit where
  | next
  | stop
  | again
  | leave
  deriving DecidableEq

/-- Words without which a statement ends with the next one following it. -/
def leaving : List String :=
  ["break", "continue", "goto", "return"]

section
variable {V R : Type}
variable {field other : String} {test : Bool → Store V R → Store V R × Bool}
  {body : Store V R → Option (Store V R × Exit)} {k : Form} {σ : Store V R} {r : Store V R × Exit}

def Store.put (σ : Store V R) (field : String) (given : Bool) (value : V) : Store V R :=
  { σ with
    given := fun other => if other = field then given else σ.given other
    value := fun other => if other = field then value else σ.value other }

@[simp] lemma Store.put_self (σ : Store V R) (field : String) : σ.put field (σ.given field) (σ.value field) = σ := by
  obtain ⟨given, value, rest⟩ := σ
  simp only [put, mk.injEq, and_true]
  constructor <;> funext other <;> split <;> simp_all

@[simp] lemma Store.given_put (σ : Store V R) (field : String) (given : Bool) (value : V) : (σ.put field given value).given field = given :=
  if_pos rfl

@[simp] lemma Store.value_put (σ : Store V R) (field : String) (given : Bool) (value : V) : (σ.put field given value).value field = value :=
  if_pos rfl

lemma Store.given_put_of_ne (σ : Store V R) (h : other ≠ field) (given : Bool) (value : V) :
    (σ.put field given value).given other = σ.given other :=
  if_neg h

lemma Store.put_comm (σ : Store V R) (h : other ≠ field) (given given' : Bool) (value value' : V) :
    (σ.put field given value).put other given' value' = (σ.put other given' value').put field given value := by
  simp only [put, mk.injEq, and_true]
  constructor <;> funext name <;> by_cases hname : name = other <;> simp_all

/-- What simple statements and heads do. A head decides whether the statement under it is run, in a loop also about the rounds
behind the first one. -/
structure Semantics (V R : Type) where
  exec : Shapes → Store V R → Store V R × Exit
  test : String → Bool → Shapes → Store V R → Store V R × Bool
  exec_put : ∀ {tokens : Shapes} {field : String}, word field ∉ tokens → ∀ (σ : Store V R) (given : Bool) (value : V),
    exec tokens (σ.put field given value) = ((exec tokens σ).1.put field given value, (exec tokens σ).2)
  test_put : ∀ {head : Shapes} {field : String}, word field ∉ head → ∀ (keyword : String) (later : Bool) (σ : Store V R) (given : Bool)
    (value : V), test keyword later head (σ.put field given value) =
      ((test keyword later head σ).1.put field given value, (test keyword later head σ).2)
  exec_next : ∀ {tokens : Shapes}, (∀ w ∈ leaving, word w ∉ tokens) → ∀ σ : Store V R, (exec tokens σ).2 = .next

def rounds (test : Bool → Store V R → Store V R × Bool) (body : Store V R → Option (Store V R × Exit)) :
    Nat → Bool → Store V R → Option (Store V R × Exit)
  | 0, _, _ => none
  | n + 1, later, σ =>
    match test later σ with
    | (σ, false) => some (σ, .next)
    | (σ, true) =>
      match body σ with
      | none => none
      | some (σ, .stop) => some (σ, .next)
      | some (σ, .leave) => some (σ, .leave)
      | some (σ, .next) | some (σ, .again) => rounds test body n true σ

/-- Runs code, each loop for less than `n` rounds; no result if that is not enough. -/
def run (M : Semantics V R) (n : Nat) : {k : Form} → Statement k → Store V R → Option (Store V R × Exit)
  | _, .simple tokens, σ => some (M.exec tokens σ)
  | _, .block body, σ => run M n body σ
  | _, .choice head yes no, σ =>
    match M.test "if" false head σ with
    | (σ, true) => run M n yes σ
    | (σ, false) => run M n no σ
  | _, .loop keyword head body, σ => rounds (fun later => M.test keyword later head) (run M n body) n false σ
  | _, .without, σ => some (σ, .next)
  | _, .otherwise no, σ => run M n no σ
  | _, .nil, σ => some (σ, .next)
  | _, .cons first rest, σ =>
    match run M n first σ with
    | none => none
    | some (σ, .next) => run M n rest σ
    | some (σ, exit) => some (σ, exit)

/-! ## Parameters that code does not mention -/

def outcomePut (field : String) (given : Bool) (value : V) (r : Store V R × Exit) : Store V R × Exit :=
  (r.1.put field given value, r.2)

lemma rounds_put
    (htest : ∀ later σ given value, test later (σ.put field given value) = ((test later σ).1.put field given value, (test later σ).2))
    (hbody : ∀ σ given value, body (σ.put field given value) = (body σ).map (outcomePut field given value))
    (n : Nat) (later : Bool) (σ : Store V R) (given : Bool) (value : V) :
    rounds test body n later (σ.put field given value) = (rounds test body n later σ).map (outcomePut field given value) := by
  induction n generalizing later σ with
  | zero => rfl
  | succ n ih =>
    rw [rounds, rounds, htest]
    obtain ⟨τ, b⟩ := test later σ
    cases b with
    | false => rfl
    | true =>
      simp only [hbody]
      cases body τ with
      | none => rfl
      | some r =>
        obtain ⟨τ, exit⟩ := r
        cases exit with
        | next => exact ih true τ
        | again => exact ih true τ
        | stop => rfl
        | leave => rfl

variable (M : Semantics V R) (n : Nat)

lemma run_put (s : Statement k) (hfield : word field ∉ s.shapes) (σ : Store V R) (given : Bool)
    (value : V) : run M n s (σ.put field given value) = (run M n s σ).map (outcomePut field given value) := by
  induction s generalizing σ given value with
  | simple tokens =>
    rw [shapes, mem_append, not_or] at hfield
    rw [run, run, M.exec_put hfield.1]
    rfl
  | block body ih =>
    simp only [shapes, mem_cons, mem_append, not_or] at hfield
    exact ih hfield.2.1 σ given value
  | choice head yes no ih ih' =>
    simp only [shapes, mem_cons, mem_append, not_or] at hfield
    obtain ⟨-, -, hhead, -, hyes, hno⟩ := hfield
    rw [run, run, M.test_put hhead]
    obtain ⟨τ, b⟩ := M.test "if" false head σ
    cases b with
    | false => exact ih' hno τ given value
    | true => exact ih hyes τ given value
  | loop keyword head body ih =>
    simp only [shapes, mem_cons, mem_append, not_or] at hfield
    obtain ⟨-, -, hhead, -, hbody⟩ := hfield
    exact rounds_put (M.test_put hhead keyword) (ih hbody) n false σ given value
  | without => rfl
  | otherwise no ih =>
    rw [shapes, mem_cons, not_or] at hfield
    exact ih hfield.2 σ given value
  | nil => rfl
  | cons first rest ih ih' =>
    rw [shapes, mem_append, not_or] at hfield
    rw [run, run, ih hfield.1]
    cases run M n first σ with
    | none => rfl
    | some r =>
      obtain ⟨τ, exit⟩ := r
      cases exit with
      | next => exact ih' hfield.2 τ given value
      | stop => rfl
      | again => rfl
      | leave => rfl

lemma wrapper_run {s : Statement k} (hfield : word field ∉ s.shapes) (h : run M n s σ = some r) :
    r.1.given field = σ.given field ∧ r.1.value field = σ.value field := by
  have hput := run_put M n s hfield σ (σ.given field) (σ.value field)
  rw [Store.put_self, h, Option.map_some] at hput
  obtain ⟨τ, exit⟩ := r
  have hstore : τ = τ.put field (σ.given field) (σ.value field) := congrArg Prod.fst (Option.some.inj hput)
  constructor
  · exact (congrArg (·.given field) hstore).trans (τ.given_put ..)
  · exact (congrArg (·.value field) hstore).trans (τ.value_put ..)

lemma rounds_next (hbody : ∀ σ r, body σ = some r → r.2 = .next) {n : Nat} {later : Bool}
    (h : rounds test body n later σ = some r) : r.2 = .next := by
  induction n generalizing later σ with
  | zero => cases h
  | succ n ih =>
    rw [rounds] at h
    generalize test later σ = x at h
    obtain ⟨τ, b⟩ := x
    cases b with
    | false =>
      obtain rfl := Option.some.inj h
      rfl
    | true =>
      cases hrun : body τ with
      | none => simp [hrun] at h
      | some r' =>
        obtain ⟨τ', exit⟩ := r'
        obtain rfl : exit = .next := hbody τ _ hrun
        simp only [hrun] at h
        exact ih h

lemma run_next {s : Statement k} (hs : ∀ w ∈ leaving, word w ∉ s.shapes) (h : run M n s σ = some r) :
    r.2 = .next := by
  induction s generalizing σ r with
  | simple tokens =>
    obtain rfl := Option.some.inj h
    exact M.exec_next (fun w hw hmem => hs w hw (by simp [shapes, hmem])) σ
  | block body ih | otherwise no ih => exact ih (fun w hw hmem => hs w hw (by simp [shapes, hmem])) h
  | choice head yes no ih ih' =>
    rw [run] at h
    generalize M.test "if" false head σ = x at h
    obtain ⟨τ, b⟩ := x
    cases b with
    | false => exact ih' (fun w hw hmem => hs w hw (by simp [shapes, hmem])) h
    | true => exact ih (fun w hw hmem => hs w hw (by simp [shapes, hmem])) h
  | loop keyword head body ih => exact rounds_next (fun τ r' => ih fun w hw hmem => hs w hw (by simp [shapes, hmem])) h
  | without | nil =>
    obtain rfl := Option.some.inj h
    rfl
  | cons first rest ih ih' =>
    rw [run] at h
    cases hrun : run M n first σ with
    | none => simp [hrun] at h
    | some r' =>
      obtain ⟨τ, exit⟩ := r'
      obtain rfl : exit = .next := ih (fun w hw hmem => hs w hw (by simp [shapes, hmem])) hrun
      simp only [hrun] at h
      exact ih' (fun w hw hmem => hs w hw (by simp [shapes, hmem])) h

end

end DeviceForge.Statement
