import DeviceForge.Proofs.Setup.Lifting
import DeviceForge.Proofs.Table
/-!
# Running code without its initial values

What a literal default does can be done before the code runs, if no statement before it mentions its field or leaves the code
(`Early`).
-/

namespace DeviceForge.Setup

open Parameter Option List

open Token (Shapes word sign)
open Statement (Store Exit Semantics run leaving)

/-- What code does, with the condition and the assignment of a default as they are meant. -/
structure Meaning (a : Accessors) (V R : Type) extends Semantics V R where
  literal : ValueType → String → V
  /-- The value that a field has without any. -/
  zero : ValueType → V
  literal_zero : ∀ {type : ValueType} {text : String}, type.isZero text = true → literal type text = zero type
  test_ungiven : ∀ (field : String) (σ : Store V R), test "if" false (Default.ungiven field) σ = (σ, !σ.given field)
  exec_assigned : ∀ (d : Default) (σ : Store V R), exec (Default.assigned d.field ++ d.value) σ =
    (σ.put d.field (σ.given d.field) (literal (typeOf a d.field) d.literal), .next)

/-! ## Traces -/

def assigned? : Shapes → Option (String × String)
  | (.identifier, field) :: xs => if xs.take 3 = [sign ".", word "Value", sign "="] then (literalOf (xs.drop 3)).map (field, ·) else none
  | _ => none

def ungiven? : Shapes → Option String
  | [x, (.identifier, field), y, z] => if [x, y, z] = [sign "!", sign ".", word "Given"] then some field else none
  | _ => none

lemma assigned?_assigned (field : String) (value : Shapes) :
    assigned? (Default.assigned field ++ value) = (literalOf value).map (field, ·) := by
  simp [assigned?, Default.assigned, word, sign]

lemma ungiven?_ungiven (field : String) : ungiven? (Default.ungiven field) = some field := by
  simp [ungiven?, Default.ungiven, word, sign]

lemma field_of_assigned? {tokens : Shapes} {x : String × String} (h : assigned? tokens = some x) : word x.1 ∈ tokens := by
  unfold assigned? at h
  split at h
  · obtain ⟨-, h⟩ := ite_none_right_eq_some.1 h
    obtain ⟨literal, -, rfl⟩ := map_eq_some_iff.1 h
    exact mem_cons_self
  · cases h

lemma field_of_ungiven? {head : Shapes} {field : String} (h : ungiven? head = some field) : word field ∈ head := by
  unfold ungiven? at h
  split at h
  · obtain ⟨-, h⟩ := ite_none_right_eq_some.1 h
    obtain rfl := some.inj h
    simp [word]
  · cases h

def exitOf (tokens : Shapes) : Exit :=
  if word "return" ∈ tokens ∨ word "goto" ∈ tokens then .leave
  else if word "break" ∈ tokens then .stop
  else if word "continue" ∈ tokens then .again
  else .next

def plainLiteral (type : ValueType) (text : String) : String :=
  if type.isZero text then "0" else text

/-- Assigns literals, and writes all other statements down; other conditions do not hold. -/
def traceExec (a : Accessors) (tokens : Shapes) (σ : Store String (List Shapes)) : Store String (List Shapes) × Exit :=
  match assigned? tokens with
  | some x => (σ.put x.1 (σ.given x.1) (plainLiteral (typeOf a x.1) x.2), .next)
  | none => ({ σ with rest := σ.rest ++ [tokens] }, exitOf tokens)

def traceTest (head : Shapes) (σ : Store String (List Shapes)) : Store String (List Shapes) × Bool :=
  (σ, (ungiven? head).any (!σ.given ·))

/-- Code that leaves a trace. -/
def traces (a : Accessors) : Meaning a String (List Shapes) where
  exec := traceExec a
  test _ _ := traceTest
  exec_put := by
    intro tokens field hfield σ given value
    unfold traceExec
    cases h : assigned? tokens with
    | none => rfl
    | some x =>
      have hne : x.1 ≠ field := by
        rintro rfl
        exact hfield (field_of_assigned? h)
      dsimp only
      rw [σ.given_put_of_ne hne, σ.put_comm hne]
  test_put := by
    intro head field hfield keyword later σ given value
    unfold traceTest
    cases h : ungiven? head with
    | none => rfl
    | some other =>
      have hne : other ≠ field := by
        rintro rfl
        exact hfield (field_of_ungiven? h)
      simp only [any_some, σ.given_put_of_ne hne]
  exec_next := by
    intro tokens hleaving σ
    unfold traceExec
    cases assigned? tokens with
    | some x => rfl
    | none =>
      simp only [leaving, forall_mem_cons] at hleaving
      simp [exitOf, hleaving]
  literal := plainLiteral
  zero _ := "0"
  literal_zero h := if_pos h
  test_ungiven field σ := by rw [traceTest, ungiven?_ungiven]; rfl
  exec_assigned d σ := by rw [traceExec, assigned?_assigned, d.isLiteral]; rfl

section
variable {a : Accessors} {V R : Type} (M : Meaning a V R) (n : Nat)
variable {ps : List Part} {d : Default} {values : Table String} {x : String × String} {field code : String}
  {xs : List (String × String)}

namespace Meaning

def fill (σ : Store V R) (d : Default) : Store V R :=
  if σ.given d.field = true then σ else σ.put d.field false (M.literal (typeOf a d.field) d.literal)

/-- The store with recorded values for those of the fields that have none given. -/
def preset (values : Table String) (fields : List String) (σ : Store V R) : Store V R :=
  { σ with
    value := fun field =>
      if field ∈ fields ∧ σ.given field = false then
        (values.get? field).elim (M.zero (typeOf a field)) (M.literal (typeOf a field))
      else σ.value field }

@[simp] lemma given_fill (σ : Store V R) (d : Default) : (M.fill σ d).given = σ.given := by
  funext field
  unfold fill Store.put
  by_cases hfield : field = d.field
  · subst hfield
    cases hgiven : σ.given d.field <;> simp [hgiven]
  · split <;> simp [hfield]

@[simp] lemma rest_fill (σ : Store V R) (d : Default) : (M.fill σ d).rest = σ.rest := by
  unfold fill
  split <;> rfl

lemma value_fill (σ : Store V R) (d : Default) (field : String) : (M.fill σ d).value field =
    if field = d.field ∧ σ.given field = false then M.literal (typeOf a d.field) d.literal else σ.value field := by
  unfold fill Store.put
  by_cases hfield : field = d.field
  · subst hfield
    cases σ.given d.field <;> simp
  · split <;> simp [hfield]

lemma run_default (d : Default) (σ : Store V R) : run M.toSemantics n d.statement σ = some (M.fill σ d, .next) := by
  have hassign : run M.toSemantics n (.simple (Default.assigned d.field ++ d.value)) σ =
      some (σ.put d.field (σ.given d.field) (M.literal (typeOf a d.field) d.literal), .next) := by
    rw [run, M.exec_assigned]
  rw [Default.statement, run, M.test_ungiven, fill]
  cases hgiven : σ.given d.field with
  | true => rfl
  | false =>
    rw [hgiven] at hassign
    cases d.braced with
    | false => exact hassign
    | true =>
      show run M.toSemantics n (.block (.cons (.simple (Default.assigned d.field ++ d.value)) .nil)) σ = _
      rw [run, run, hassign]
      rfl

lemma run_fill {s : Statement .single} (hd : word d.field ∉ s.shapes) (σ : Store V R) :
    run M.toSemantics n s (M.fill σ d) = (run M.toSemantics n s σ).map fun r => (M.fill r.1 d, r.2) := by
  have hkeeps {r : Store V R × Exit} (hr : run M.toSemantics n s σ = some r) : r.1.given d.field = σ.given d.field :=
    (Statement.wrapper_run M.toSemantics n hd hr).1
  have hcases : run M.toSemantics n s (M.fill σ d) = (run M.toSemantics n s σ).map
      fun r => if σ.given d.field = true then r else Statement.outcomePut d.field false (M.literal (typeOf a d.field) d.literal) r := by
    unfold fill
    split
    · exact map_id'.symm
    · exact Statement.run_put M.toSemantics n s hd σ _ _
  rw [hcases]
  refine map_congr fun r hr => ?_
  rw [fill, hkeeps hr]
  split <;> rfl

lemma run_fills {s : Statement .single} {ds : List Default} (hds : ∀ d ∈ ds, word d.field ∉ s.shapes) (σ : Store V R) :
    run M.toSemantics n s (ds.foldl M.fill σ) = (run M.toSemantics n s σ).map fun r => (ds.foldl M.fill r.1, r.2) := by
  induction ds generalizing σ with
  | nil => exact map_id'.symm
  | cons d ds ih =>
    obtain ⟨hd, hds⟩ := forall_mem_cons.1 hds
    rw [foldl_cons, ih hds, M.run_fill n hd, Option.map_map]
    rfl

end Meaning

def Part.default? : Part → Option Default
  | .initial d => some d
  | .other _ => none

/-- The defaults of code, in their order. -/
def initials (ps : List Part) : List Default :=
  ps.filterMap Part.default?

lemma mem_initials : d ∈ initials ps ↔ .initial d ∈ ps := by
  rw [initials, mem_filterMap]
  constructor
  · rintro ⟨p, hp, hd⟩
    cases p with
    | initial e =>
      obtain rfl : e = d := some.inj hd
      exact hp
    | other s => cases hd
  · exact fun h => ⟨_, h, rfl⟩

/-- No statement before a default mentions its field or leaves the code. -/
def Early (ps : List Part) : Prop :=
  ps.Pairwise fun p q => ∀ d, q = .initial d → word d.field ∉ p.statement.shapes ∧ ∀ w ∈ leaving, word w ∉ p.statement.shapes

lemma run_program (hearly : Early ps) (σ : Store V R) :
    run M.toSemantics n (program ps) σ = run M.toSemantics n (program (others ps)) ((initials ps).foldl M.fill σ) := by
  induction ps generalizing σ with
  | nil => rfl
  | cons p ps ih =>
    obtain ⟨hfirst, hrest⟩ := pairwise_cons.1 hearly
    cases p with
    | initial d =>
      rw [program, run, show (Part.initial d).statement = d.statement from rfl, M.run_default]
      exact ih hrest (M.fill σ d)
    | other s =>
      have hds : ∀ d ∈ initials ps, word d.field ∉ s.shapes :=
        fun d hd => (hfirst _ (mem_initials.1 hd) d rfl).1
      have hstatement := M.run_fills n hds σ
      rw [program, run, show others (.other s :: ps) = .other s :: others ps from rfl, program, run]
      rw [show initials (.other s :: ps) = initials ps from rfl, show (Part.other s).statement = s from rfl, hstatement]
      cases hrun : run M.toSemantics n s σ with
      | none => rfl
      | some r =>
        obtain ⟨τ, exit⟩ := r
        by_cases hnext : exit = .next
        · subst hnext
          exact ih hrest τ
        · -- the code is left here, so no default follows
          have hnone : initials ps = [] := by
            refine eq_nil_iff_forall_not_mem.2 fun d hd => hnext ?_
            exact Statement.run_next M.toSemantics n (hfirst _ (mem_initials.1 hd) d rfl).2 hrun
          rw [hnone]
          cases exit with
          | next => exact absurd rfl hnext
          | stop => rfl
          | again => rfl
          | leave => rfl

lemma get?_record_of_ne (h : field ≠ x.1) : (record a values x).get? field = values.get? field := by
  unfold record
  split
  · rfl
  · rw [Table.get?_put, if_neg h]

lemma get?_records_of_notMem (h : field ∉ xs.map Prod.fst) (values : Table String) :
    (xs.foldl (record a) values).get? field = values.get? field := by
  induction xs generalizing values with
  | nil => rfl
  | cons x xs ih =>
    rw [map_cons, mem_cons, not_or] at h
    rw [foldl_cons, ih h.2, get?_record_of_ne h.1]

lemma get?_records (hxs : (xs.map Prod.fst).Nodup) (hx : x ∈ xs) (hnew : values.get? x.1 = none) :
    (xs.foldl (record a) values).get? x.1 = if (typeOf a x.1).isZero x.2 then none else some x.2 := by
  induction xs generalizing values with
  | nil => cases hx
  | cons y xs ih =>
    obtain ⟨hy, hxs⟩ := nodup_cons.1 hxs
    rw [foldl_cons]
    rcases mem_cons.1 hx with rfl | hx
    · rw [get?_records_of_notMem hy, record]
      split
      · exact hnew
      · rw [Table.get?_put, if_pos rfl]
    · have hne : x.1 ≠ y.1 := by
        intro heq
        exact hy (heq ▸ mem_map_of_mem hx)
      exact ih hxs hx (by rw [get?_record_of_ne hne, hnew])

lemma Meaning.preset_eq {ds : List Default} (hds : (ds.map (·.field)).Nodup)
    (hvalues : ∀ d ∈ ds, values.get? d.field = if (typeOf a d.field).isZero d.literal then none else some d.literal)
    (σ : Store V R) : M.preset values (ds.map (·.field)) σ = ds.foldl M.fill σ := by
  induction ds generalizing σ with
  | nil => simp [preset]
  | cons d ds ih =>
    obtain ⟨hd, hds⟩ := nodup_cons.1 hds
    obtain ⟨hvalue, hvalues⟩ := forall_mem_cons.1 hvalues
    have hliteral : (values.get? d.field).elim (M.zero (typeOf a d.field)) (M.literal (typeOf a d.field)) =
        M.literal (typeOf a d.field) d.literal := by
      rw [hvalue]
      split
      · exact (M.literal_zero ‹_›).symm
      · rfl
    rw [foldl_cons, ← ih hds hvalues]
    unfold preset
    rw [M.given_fill, M.rest_fill]
    congr 1
    funext field
    rw [M.value_fill]
    by_cases hfield : field = d.field
    · subst hfield
      cases σ.given d.field <;> simp [hd, hliteral]
    · simp [hfield]

lemma Early.nodup (h : Early ps) : ((initials ps).map (·.field)).Nodup := by
  rw [initials, List.Nodup, pairwise_map, pairwise_filterMap]
  refine h.imp fun {p q} hpq d hd e he heq => ?_
  cases p with
  | other s => cases hd
  | initial d' =>
    obtain rfl : d' = d := some.inj hd
    cases q with
    | other s => cases he
    | initial e' =>
      obtain rfl : e' = e := some.inj he
      refine (hpq e' rfl).1 ?_
      rw [← heq, show (Part.initial d').statement = d'.statement from rfl, d'.shapes_statement]
      simp [Default.shapes, Default.start]

lemma found_perm (ps : List Part) : (found ps).Perm (initials ps) := by
  induction ps with
  | nil => exact .nil
  | cons p ps ih =>
    cases p with
    | other s => exact ih
    | initial d =>
      have hcons : initials (.initial d :: ps) = d :: initials ps := rfl
      rw [hcons]
      cases hb : d.braced with
      | true =>
        have hfound : found (.initial d :: ps) = d :: found ps := by simp [found, Part.initial?, hb]
        rw [hfound]
        exact ih.cons d
      | false =>
        have hfound : found (.initial d :: ps) = ps.filterMap (Part.initial? true) ++ d :: ps.filterMap (Part.initial? false) := by
          simp [found, Part.initial?, hb]
        rw [hfound]
        exact perm_middle.trans (ih.cons d)

lemma Consists.readFrom (h : Consists ps code) : (program ps).ReadFrom code :=
  ⟨h.shapes, (wellFormed_program ps).2 h.wellFormed⟩

lemma get?_liftDefaults (h : Consists ps code) (hearly : Early ps) (hd : d ∈ initials ps)
    (hnew : d.field ∉ values.keys) :
    (liftDefaults a values code).1.values.get? d.field = if (typeOf a d.field).isZero d.literal then none else some d.literal := by
  have hnodup : (((found ps).map fun d => (d.field, d.literal)).map Prod.fst).Nodup := by
    rw [List.map_map]
    exact ((found_perm ps).map _).nodup_iff.2 hearly.nodup
  rw [(consists_liftDefaults h a values).2]
  exact get?_records hnodup (mem_map_of_mem ((found_perm ps).mem_iff.2 hd)) (Table.get?_eq_none_iff.2 hnew)

end

/-! ## Orderly code, and code that is not -/

def numberDefault (field : String) (isField : Token.isIdentifierText field = true) (digits : String) (braced : Bool) : Default :=
  ⟨field, [(.number, digits)], digits, braced, isField, rfl⟩

def call (name : String) : Statement .single :=
  .simple [word name, sign "(", sign ")"]

def orderlyText : String :=
  "if(!e.Given)\x7be.Value=0;\x7dif(!f.Given)f.Value=1;if(x)g();else h();"

def orderlyParts : List Part :=
  [.initial (numberDefault "e" (by decide) "0" true), .initial (numberDefault "f" (by decide) "1" false),
    .other (.choice [word "x"] (call "g") (.otherwise (call "h")))]

lemma solid_of_all {ts : List Token}
    (h : ts.all (fun t => t.isClosed && !t.isLineComment && t.text.toList.all (!Text.isSpace ·)) = true) : ∀ t ∈ ts, t.Solid := by
  intro t ht
  have hall := List.all_eq_true.1 h t ht
  simp only [Bool.and_eq_true, Bool.not_eq_true', List.all_eq_true] at hall
  obtain ⟨⟨hclosed, hline⟩, hspace⟩ := hall
  refine ⟨hclosed, fun hcomment => ?_, fun _ => hspace⟩
  simp [hline] at hcomment

lemma Default.given_mem_shapes (d : Default) : word "Given" ∈ d.shapes := by
  simp [Default.shapes, Default.start]

lemma consists_orderly : Consists orderlyParts orderlyText := by
  have htext : Code.shapes orderlyText = (program orderlyParts).shapes ∧ (Code.ofString orderlyText).tokens.all
      (fun t => t.isClosed && !t.isLineComment && t.text.toList.all (!Text.isSpace ·)) := by
    decide +kernel
  refine ⟨htext.1, Code.opens_ofString _, solid_of_all htext.2, (wellFormed_program _).1 (by decide), ?_⟩
  intro s hs d hinside
  have hgiven := hinside.subset d.given_mem_shapes
  obtain rfl : s = .choice [word "x"] (call "g") (.otherwise (call "h")) := by simpa [orderlyParts] using hs
  exact absurd hgiven (by decide)

lemma early_orderly : Early orderlyParts := by
  simp only [Early, orderlyParts, pairwise_cons, forall_mem_cons, not_mem_nil, false_implies, implies_true, and_true,
    Part.initial.injEq, reduceCtorEq, forall_eq', List.Pairwise.nil]
  decide

def untouched : Store String (List Shapes) :=
  ⟨fun _ => false, fun _ => "0", []⟩

lemma not_readFrom_else {code : String} (h : (Code.shapes code).head? = some (word "else")) (body : Statement .list) :
    ¬body.ReadFrom code := by
  rintro ⟨hshapes, hwf⟩
  rw [hshapes] at h
  cases body with
  | nil => cases h
  | cons first rest =>
    obtain ⟨x, xs, hfirst, hx, -⟩ := Statement.head_single first (Bool.and_eq_true_iff.1 hwf).1
    rw [Statement.shapes, hfirst] at h
    exact hx (some.inj h)

/-- If all literal defaults are statements of their own, and no statement before one mentions its field or leaves the code, the code
that is left can be read, and does what the code did when the recorded values, or else zeros, are set first. -/
theorem run_liftDefaults {a : Accessors} {V R : Type} (M : Meaning a V R) {ps : List Part} {code : String}
    (h : Consists ps code) (hearly : Early ps) {values : Table String} (hnew : ∀ d ∈ initials ps, d.field ∉ values.keys) :
    (program (others ps)).ReadFrom (liftDefaults a values code).2 ∧
      ∀ before after : Statement .list, before.ReadFrom code → after.ReadFrom (liftDefaults a values code).2 → ∀ (n : Nat) (σ : Store V R),
        run M.toSemantics n after (M.preset (liftDefaults a values code).1.values ((initials ps).map (·.field)) σ) =
          run M.toSemantics n before σ := by
  have hothers := (consists_liftDefaults h a values).1.readFrom
  refine ⟨hothers, ?_⟩
  intro before after hbefore hafter n σ
  -- both texts can be read in one way only
  obtain rfl := hbefore.unique h.readFrom
  obtain rfl := hafter.unique hothers
  rw [M.preset_eq hearly.nodup fun d hd => get?_liftDefaults h hearly hd (hnew d hd), ← run_program M n hearly]

theorem run_liftDefaults_orderly : Consists orderlyParts orderlyText ∧ Early orderlyParts ∧
    (program (others orderlyParts)).ReadFrom (liftDefaults .empty [] orderlyText).2 ∧
      ∀ before after : Statement .list, before.ReadFrom orderlyText → after.ReadFrom (liftDefaults .empty [] orderlyText).2 →
        ∀ (n : Nat) (σ : Store String (List Shapes)), run (traces .empty).toSemantics n after
          ((traces .empty).preset (liftDefaults .empty [] orderlyText).1.values ((initials orderlyParts).map (·.field)) σ) =
            run (traces .empty).toSemantics n before σ :=
  ⟨consists_orderly, early_orderly, run_liftDefaults (traces .empty) consists_orderly early_orderly (by simp [Table.keys])⟩

/-- The code that is left, with the recorded values set first, does something else than the code. -/
def Diverges (code : String) (fields : List String) : Prop :=
  ∃ before after : Statement .list, before.ReadFrom code ∧ after.ReadFrom (liftDefaults .empty [] code).2 ∧
    run (traces .empty).toSemantics 1 after ((traces .empty).preset (liftDefaults .empty [] code).1.values fields untouched) ≠
      run (traces .empty).toSemantics 1 before untouched

/-- A default that is a branch is taken out all the same, and the next statement becomes the branch; one behind a `return` is
carried out; and an `else` that belongs to a default is left alone. -/
theorem not_run_liftDefaults_dependent : Diverges "if(x)if(!f.Given)f.Value=1;g();" ["f"] ∧ Diverges "return;if(!f.Given)f.Value=1;" ["f"] ∧
    ∀ body : Statement .list, ¬body.ReadFrom (liftDefaults .empty [] "if(!f.Given)f.Value=1;else g();").2 := by
  refine ⟨?_, ?_, not_readFrom_else (by rw [liftDefaults_eq]; decide +kernel)⟩
  · have hlift : (liftDefaults .empty [] "if(x)if(!f.Given)f.Value=1;g();").2 = "if(x)g();" ∧
        (liftDefaults .empty [] "if(x)if(!f.Given)f.Value=1;g();").1.values = [("f", "1")] := by
      rw [liftDefaults_eq]
      decide +kernel
    rw [Diverges, hlift.1, hlift.2]
    refine ⟨.cons (.choice [word "x"] (numberDefault "f" (by decide) "1" false).statement .without) (.cons (call "g") .nil),
      .cons (.choice [word "x"] (call "g") .without) .nil, ⟨by decide +kernel, by decide⟩, ⟨by decide +kernel, by decide⟩, ?_⟩
    intro h
    have htrace := congrArg (Option.map (·.1.rest)) h
    revert htrace
    decide
  · have hlift : (liftDefaults .empty [] "return;if(!f.Given)f.Value=1;").2 = "return;" ∧
        (liftDefaults .empty [] "return;if(!f.Given)f.Value=1;").1.values = [("f", "1")] := by
      rw [liftDefaults_eq]
      decide +kernel
    rw [Diverges, hlift.1, hlift.2]
    refine ⟨.cons (.simple [word "return"]) (.cons (numberDefault "f" (by decide) "1" false).statement .nil),
      .cons (.simple [word "return"]) .nil, ⟨by decide +kernel, by decide⟩, ⟨by decide +kernel, by decide⟩, ?_⟩
    intro h
    have hvalue := congrArg (Option.map (·.1.value "f")) h
    revert hvalue
    decide

end DeviceForge.Setup
