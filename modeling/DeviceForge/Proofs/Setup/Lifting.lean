import DeviceForge.Proofs.Setup.Defaults
/-!
# Code without its initial values

Code is cut into statements, some of which are literal defaults (`Part`).
-/

namespace DeviceForge.Setup

open List Token

open Token (Shapes word sign)
open Pattern

variable {ts us rest : List Token} {tail code : String} {b : Bool} {d : Default}

/-! ## Literal defaults as statements -/

namespace Default

variable {xs ys : Shapes} {x : Token.Kind × String} {e : Default}

def ungiven (field : String) : Shapes :=
  [sign "!", word field, sign ".", word "Given"]

def assigned (field : String) : Shapes :=
  [word field, sign ".", word "Value", sign "="]

def statement (d : Default) : Statement .single :=
  let assignment : Statement .single := .simple (assigned d.field ++ d.value)
  .choice (ungiven d.field) (if d.braced then .block (.cons assignment .nil) else assignment) .without

lemma shapes_statement (d : Default) : d.statement.shapes = d.shapes := by
  obtain ⟨field, value, literal, braced, -, -⟩ := d
  cases braced <;> simp [statement, shapes, start, finish, Statement.shapes, ungiven, assigned]

lemma eq_of_finish_eq_append {braced : Bool} (h : finish braced = xs ++ x :: ys) :
    ys = [] ∨ ys = [sign "\x7d"] := by
  unfold finish at h
  cases braced <;> rcases xs with _ | ⟨y, _ | ⟨y', xs⟩⟩ <;> simp_all

lemma eq_of_shapes_eq_append (hx : x = sign ";" ∨ x = sign "\x7d") (h : d.shapes = xs ++ x :: ys) :
    ys = [] ∨ ys = [sign "\x7d"] := by
  have hvalue : x ∉ d.value := by
    intro hmem
    have hkind := (kind_of_literal d.isLiteral).2 x hmem
    rcases hx with rfl | rfl <;> simp [sign] at hkind
  have hstart : x ∉ start d.field d.braced := by
    rcases hx with rfl | rfl <;> cases d.braced <;> simp [start, sign, word]
  rw [shapes, ← append_assoc, append_eq_append_iff] at h
  rcases h with ⟨as, -, hfinish⟩ | ⟨cs, hcs, hfinish⟩
  · exact eq_of_finish_eq_append hfinish
  · cases cs with
    | nil => exact eq_of_finish_eq_append (show finish d.braced = [] ++ x :: ys from hfinish.symm)
    | cons c cs =>
      obtain ⟨rfl, -⟩ := cons.inj hfinish
      have hmem : x ∈ start d.field d.braced ++ d.value := by simp [hcs]
      rcases mem_append.1 hmem with hmem | hmem
      · exact absurd hmem hstart
      · exact absurd hmem hvalue

lemma prefix_of_prefix_append (hne : xs ≠ []) (hlast : ∀ x ∈ xs.getLast?, x = sign ";" ∨ x = sign "\x7d")
    (hys : ys.head? ≠ some (sign "\x7d")) (h : d.shapes <+: xs ++ ys) : d.shapes <+: xs := by
  rcases prefix_or_prefix_of_prefix h (prefix_append xs ys) with hle | ⟨zs, hzs⟩
  · exact hle
  · obtain ⟨init, x, rfl⟩ := (eq_nil_or_concat' xs).resolve_left hne
    have hx : x = sign ";" ∨ x = sign "\x7d" := hlast x (by simp)
    rw [← hzs, prefix_append_right_inj] at h
    rw [append_assoc, singleton_append] at hzs
    rcases eq_of_shapes_eq_append hx hzs.symm with rfl | rfl
    · exact ⟨[], by rw [append_nil, hzs]⟩
    · obtain ⟨ys, rfl⟩ := h
      exact absurd rfl hys

lemma notMem_reserved (h : d.statement.isWellFormed) :
    ∀ x ∈ assigned d.field ++ d.value, x.2 ∉ Statement.reserved := by
  have hall : (assigned d.field ++ d.value).all (·.2 ∉ Statement.reserved) := by
    rw [statement] at h
    have hyes := (Statement.wellFormed_choice h).2.1
    cases hbraced : d.braced
    · rwa [hbraced] at hyes
    · rw [hbraced] at hyes
      exact (Bool.and_eq_true_iff.1 hyes).1
  simpa only [all_eq_true, decide_eq_true_eq] using hall

lemma if_notMem_tail (h : d.statement.isWellFormed) : word "if" ∉ d.shapes.tail := by
  have hfree := notMem_reserved h
  have hfield : d.field ≠ "if" := by
    intro heq
    exact hfree (word d.field) (by simp [assigned]) (by rw [heq]; decide)
  have hvalue : word "if" ∉ d.value := by
    intro hmem
    exact hfree (word "if") (by simp [hmem]) (by decide)
  unfold word at hvalue
  unfold shapes start finish
  cases d.braced <;> simp [word, sign, hvalue, hfield.symm]

lemma not_prefix_of_suffix (h : d.statement.isWellFormed) (hsuffix : xs <:+ d.shapes.tail) : ¬e.shapes <+: xs := by
  intro hstarts
  have hif : word "if" ∈ e.shapes := by simp [shapes, start]
  exact if_notMem_tail h (hsuffix.subset (hstarts.subset hif))

lemma eq_of_suffix (h : d.statement.isWellFormed) (hsuffix : xs <:+ d.shapes)
    (hstarts : e.shapes <+: xs) : xs = d.shapes := by
  obtain ⟨ys, hys⟩ := hsuffix
  cases ys with
  | nil => exact hys
  | cons y ys => exact absurd hstarts (not_prefix_of_suffix h ⟨ys, by rw [← hys]; rfl⟩)

lemma braced_eq_of_starts (h : e.shapes <+: d.shapes) : e.braced = d.braced := by
  unfold shapes start at h
  cases hd : d.braced <;> cases he : e.braced <;> simp [hd, he, word, sign] at h ⊢

end Default

/-- A statement of code: a literal default or another one. -/
inductive Part where
  | initial (d : Default)
  | other (s : Statement .single)

variable {p : Part} {ps : List Part}

namespace Part

def statement : Part → Statement .single
  | initial d => d.statement
  | other s => s

def initial? (braced : Bool) : Part → Option Default
  | initial d => if d.braced = braced then some d else none
  | other _ => none

lemma initial?_eq_some_iff : p.initial? b = some d ↔ p = .initial d ∧ d.braced = b := by
  cases p with
  | initial e =>
    simp only [initial?, Option.ite_none_right_eq_some, Option.some.injEq, Part.initial.injEq]
    constructor
    · rintro ⟨hb, rfl⟩
      exact ⟨rfl, hb⟩
    · rintro ⟨rfl, hb⟩
      exact ⟨hb, rfl⟩
  | other s => simp [initial?]

def isOther : Part → Bool
  | initial _ => false
  | other _ => true

end Part

/-- Code of statements. -/
def program : List Part → Statement .list
  | [] => .nil
  | p :: ps => .cons p.statement (program ps)

lemma shapes_program (ps : List Part) : (program ps).shapes = ps.flatMap (·.statement.shapes) := by
  induction ps with
  | nil => rfl
  | cons p ps ih => rw [program, Statement.shapes, ih, flatMap_cons]

lemma wellFormed_program (ps : List Part) : (program ps).isWellFormed ↔ ∀ p ∈ ps, p.statement.isWellFormed := by
  induction ps with
  | nil => simp [program, Statement.isWellFormed]
  | cons p ps ih => rw [program, Statement.isWellFormed, Bool.and_eq_true, ih, forall_mem_cons]

/-- Tokens are those of statements, one behind the other, and no literal default stands inside another statement. -/
structure Laid (ps : List Part) (ts : List Token) (tail : String) : Prop where
  shapes : ts.map Token.bare = (program ps).shapes
  opens : Code.Opens ts tail
  solid : ∀ t ∈ ts, t.Solid
  wellFormed : ∀ p ∈ ps, p.statement.isWellFormed = true
  plain : ∀ s, .other s ∈ ps → ∀ d : Default, ¬d.shapes <:+: s.shapes

lemma Laid.exists_append (h : Laid (p :: ps) ts tail) :
    ∃ us rest, ts = us ++ rest ∧ us.map bare = p.statement.shapes ∧ Laid ps rest tail := by
  obtain ⟨us, rest, rfl, hus, hrest⟩ := map_eq_append_iff.1 h.shapes
  refine ⟨us, rest, rfl, hus, hrest, (Code.opens_append.1 h.opens).2, ?_, ?_, ?_⟩
  · exact fun t ht => h.solid t (mem_append_right _ ht)
  · exact fun q hq => h.wellFormed q (mem_cons_of_mem _ hq)
  · exact fun s hs => h.plain s (mem_cons_of_mem _ hs)

lemma Laid.head (h : Laid ps ts tail) : (ts.map bare).head? ≠ some (sign "\x7d") := by
  rw [h.shapes]
  cases ps with
  | nil => simp [program, Statement.shapes]
  | cons p ps =>
    obtain ⟨x, xs, hshapes, -, hx⟩ := Statement.head_single p.statement (h.wellFormed p mem_cons_self)
    rw [program, Statement.shapes, hshapes]
    simpa using hx

/-! ## One pass -/

def width (braced : Bool) : List Token → Nat :=
  (Pattern.mk (defaultForm braced)).acceptedWidth view

lemma quiet_of_forall (hopens : Code.Opens (us ++ rest) tail) (hsolid : ∀ t ∈ us ++ rest, t.Solid)
    (hlast : ∀ x ∈ (us.map bare).getLast?, x = sign ";" ∨ x = sign "\x7d")
    (hrest : (rest.map bare).head? ≠ some (sign "\x7d"))
    (hnone : ∀ d : Default, d.braced = b → ∀ xs, xs <:+ us.map bare → ¬d.shapes <+: xs) :
    Code.Quiet (width b) us rest := by
  rintro u v rfl hv
  rw [width, acceptedWidth_eq_zero_iff, ← Option.not_isSome_iff_eq_none, Option.isSome_iff_exists]
  rintro ⟨⟨n, y⟩, hsome⟩
  rw [append_assoc] at hopens hsolid
  obtain ⟨d, hbraced, hstarts⟩ := exists_default (Code.opens_append.1 hopens).2 (fun t ht => hsolid t (mem_append_right _ ht)) hsome
  have hne : v.map bare ≠ [] := by simpa using hv
  rw [map_append, getLast?_append_of_ne_nil _ hne] at hlast
  rw [map_append] at hstarts
  exact hnone d hbraced (v.map bare) (by simp) (Default.prefix_of_prefix_append hne hlast hrest hstarts)

inductive Passes (braced : Bool) : List Part → List Token → Prop where
  | nil : Passes braced [] []
  | keep {p : Part} {ps : List Part} {us rest : List Token} (stays : p.initial? braced = none)
    (shapes : us.map Token.bare = p.statement.shapes) (quiet : Code.Quiet (width braced) us rest) (behind : Passes braced ps rest) :
    Passes braced (p :: ps) (us ++ rest)
  | window {d : Default} {ps : List Part} {t : Token} {us rest : List Token} (goes : d.braced = braced)
    (shapes : (t :: us).map Token.bare = d.statement.shapes)
    (accepted : (Pattern.mk (defaultForm braced)).acceptedAt? view (t :: (us ++ rest)) = some (us.length + 1, d.field, d.literal))
    (quiet : Code.Quiet (width braced) us rest) (behind : Passes braced ps rest) : Passes braced (.initial d :: ps) (t :: (us ++ rest))

lemma Laid.quiet (h : Laid (p :: ps) (us ++ rest) tail) (hus : us.map bare = p.statement.shapes)
    (hrest : Laid ps rest tail) (hstays : p.initial? b = none) : Code.Quiet (width b) us rest := by
  have hwf := h.wellFormed p mem_cons_self
  refine quiet_of_forall h.opens h.solid (by rw [hus]; exact p.statement.last_shapes) hrest.head ?_
  intro d hbraced xs hsuffix hstarts
  rw [hus] at hsuffix
  cases p with
  | other s => exact h.plain s mem_cons_self d (hstarts.isInfix.trans hsuffix.isInfix)
  | initial e =>
    have hsuffix : xs <:+ e.shapes := by rwa [← e.shapes_statement]
    rw [Default.eq_of_suffix hwf hsuffix hstarts] at hstarts
    have hne : e.braced ≠ b := by simpa [Part.initial?] using hstays
    exact hne ((Default.braced_eq_of_starts hstarts).symm.trans hbraced)

lemma Laid.window {t : Token} (h : Laid (.initial d :: ps) (t :: (us ++ rest)) tail)
    (hus : (t :: us).map bare = d.shapes) (hrest : Laid ps rest tail) :
    (Pattern.mk (defaultForm d.braced)).acceptedAt? view (t :: (us ++ rest)) = some (us.length + 1, d.field, d.literal) ∧
      Code.Quiet (width d.braced) us rest := by
  have hwf : d.statement.isWellFormed := h.wellFormed _ mem_cons_self
  refine ⟨acceptedAt?_default hus h.opens h.solid, ?_⟩
  have htail : us.map bare = d.shapes.tail := by rw [← hus]; rfl
  have hlast : ∀ x ∈ (us.map bare).getLast?, x = sign ";" ∨ x = sign "\x7d" := by
    intro x hx
    refine d.statement.last_shapes x ?_
    rw [d.shapes_statement, ← hus, map_cons, getLast?_cons, hx]
    rfl
  refine quiet_of_forall h.opens.2.2.2 (fun u hu => h.solid u (mem_cons_of_mem _ hu)) hlast hrest.head ?_
  intro e _ xs hsuffix
  rw [htail] at hsuffix
  exact Default.not_prefix_of_suffix hwf hsuffix

lemma Laid.passes (h : Laid ps ts tail) (b : Bool) : Passes b ps ts := by
  induction ps generalizing ts with
  | nil =>
    obtain rfl : ts = [] := by simpa [program, Statement.shapes] using h.shapes
    exact .nil
  | cons p ps ih =>
    obtain ⟨us, rest, rfl, hus, hrest⟩ := h.exists_append
    cases hp : p.initial? b with
    | none => exact .keep hp hus (h.quiet hus hrest hp) (ih hrest)
    | some d =>
      obtain ⟨rfl, rfl⟩ := Part.initial?_eq_some_iff.1 hp
      cases us with
      | nil => exact absurd hus.symm d.statement.shapes_ne_nil
      | cons t us =>
        obtain ⟨haccepted, hquiet⟩ := h.window (hus.trans d.shapes_statement) hrest
        exact .window rfl hus haccepted hquiet (ih hrest)

lemma Passes.seenFrom (h : Passes b ps ts) :
    (Pattern.mk (defaultForm b)).seenFrom view 0 ts = (ps.filterMap (Part.initial? b)).map fun d => (d.field, d.literal) := by
  induction h with
  | nil => rfl
  | keep hstays _ hquiet _ ih => rw [seenFrom_quiet hquiet, ih, filterMap_cons_none hstays]
  | window hgoes _ haccepted _ _ ih =>
    rw [Pattern.seenFrom, haccepted]
    dsimp only
    rw [Nat.add_sub_cancel, seenFrom_skip, ih, filterMap_cons_some (Part.initial?_eq_some_iff.2 ⟨rfl, hgoes⟩), map_cons]

def kept (braced : Bool) (ps : List Part) : List Part :=
  ps.filter fun p => (p.initial? braced).isNone

lemma kept_stays (h : p.initial? b = none) : kept b (p :: ps) = p :: kept b ps :=
  filter_cons_of_pos (by rw [h]; rfl)

lemma kept_goes (h : p.initial? b = some d) : kept b (p :: ps) = kept b ps :=
  filter_cons_of_neg (by rw [h]; simp)

lemma Passes.map_bare_remove (h : Passes b ps ts) (tail : String) :
    (Code.remove (width b) tail ts).tokens.map bare = (program (kept b ps)).shapes := by
  induction h with
  | nil => rfl
  | keep hstays hshapes hquiet _ ih =>
    rw [hquiet.remove_append, map_append, ih, hshapes, kept_stays hstays, program, Statement.shapes]
  | @window d ps t us rest hgoes _ haccepted _ _ ih =>
    have hwidth : width b (t :: (us ++ rest)) = us.length + 1 := by rw [width, acceptedWidth, haccepted]; rfl
    rw [Code.remove_window hwidth, Code.map_bare_behind, drop_left, ih, kept_goes (Part.initial?_eq_some_iff.2 ⟨rfl, hgoes⟩)]

lemma endsPart_last {s : Statement .single} (h : us.map bare = s.shapes) (last : Option Token) :
    ∀ u ∈ us.getLast?.or last, u.endsPart := by
  have hne : us ≠ [] := by
    rintro rfl
    exact s.shapes_ne_nil h.symm
  obtain ⟨us, t, rfl⟩ := (eq_nil_or_concat' us).resolve_left hne
  have ht : t.bare = sign ";" ∨ t.bare = sign "\x7d" := s.last_shapes t.bare (by rw [← h]; simp)
  have htext : t.text = ";" ∨ t.text = "\x7d" := ht.imp (congrArg Prod.snd) (congrArg Prod.snd)
  rw [getLast?_concat, Option.some_or]
  rintro u ⟨⟩
  rcases htext with htext | htext <;> rw [endsPart, htext] <;> rfl

lemma Passes.loose (h : Passes b ps ts) {last : Option Token}
    (hlast : ∀ u ∈ last, u.endsPart) : Code.Loose (width b) last ts := by
  induction h generalizing last with
  | nil => trivial
  | keep _ hshapes hquiet _ ih => exact hquiet.loose (ih (endsPart_last hshapes last))
  | window _ hshapes _ hquiet _ ih =>
    refine ⟨fun _ => .inr hlast, hquiet.loose (ih ?_)⟩
    have hends := endsPart_last hshapes none
    rw [getLast?_cons, Option.or_none] at hends
    rwa [Option.or_some]

lemma Laid.kept (h : Laid ps ts tail) (htail : Code.ofString tail = ⟨[], tail⟩) (b : Bool) :
    Laid (kept b ps) (Code.remove (width b) tail ts).tokens (Code.remove (width b) tail ts).tail := by
  have hpass := h.passes b
  have hshapes := hpass.map_bare_remove tail
  have hloose : Code.Loose (width b) none ts := hpass.loose (by simp)
  refine ⟨hshapes, (Code.legible_remove h.opens htail hloose).1, ?_, ?_, ?_⟩
  · intro t ht
    have hmem : t.bare ∈ ts.map bare := by
      have hbare := mem_map_of_mem (f := bare) ht
      rw [hshapes, shapes_program] at hbare
      rw [h.shapes, shapes_program]
      obtain ⟨p, hp, hbare⟩ := mem_flatMap.1 hbare
      exact mem_flatMap.2 ⟨p, mem_of_mem_filter hp, hbare⟩
    obtain ⟨u, hu, hbare⟩ := mem_map.1 hmem
    exact (h.solid u hu).of_bare hbare
  · exact fun p hp => h.wellFormed p (mem_of_mem_filter hp)
  · exact fun s hs => h.plain s (mem_of_mem_filter hs)

/-! ## Both passes -/

/-- Code consists of statements, and no literal default stands inside another statement. -/
def Consists (ps : List Part) (code : String) : Prop :=
  Laid ps (Code.ofString code).tokens (Code.ofString code).tail

def typeOf (a : Parameter.Accessors) (field : String) : ValueType :=
  ((a.declarations.get? field).map (·.type)).getD .real

def record (a : Parameter.Accessors) (values : Table String) (x : String × String) : Table String :=
  if (typeOf a x.1).isZero x.2 then values else values.put x.1 x.2

lemma liftDefault_eq (a : Parameter.Accessors) : liftDefault a = takeOut view
    (fun found m => { found with findings := found.findings ++ [.ignoredDefault (m.text "var") (Text.trim (m.text "value"))] })
    (fun found x => { found with values := record a found.values x }) := by
  funext found m
  unfold liftDefault takeOut view
  dsimp only
  cases literal? (Text.trim (m.text "value")) with
  | none => rfl
  | some literal =>
    dsimp only [Option.map_some, record]
    by_cases hzero : (typeOf a (m.text "var")).isZero literal
    · rw [if_pos hzero]
      exact congrArg (·, some "") (if_pos hzero)
    · rw [if_neg hzero]
      exact congrArg (·, some "") (if_neg hzero)

lemma Consists.pass (h : Consists ps code) (a : Parameter.Accessors) (b : Bool) (found : Defaults) :
    Consists (kept b ps) ((Pattern.mk (defaultForm b)).replaceWith (liftDefault a) found code).2 ∧
      ((Pattern.mk (defaultForm b)).replaceWith (liftDefault a) found code).1.values =
        ((ps.filterMap (Part.initial? b)).map fun d => (d.field, d.literal)).foldl (record a) found.values := by
  have hpass := h.passes b
  have htail := Code.ofString_tail code
  have hloose : Code.Loose (width b) none (Code.ofString code).tokens := hpass.loose (by simp)
  have hlegible := Code.legible_remove h.opens htail hloose
  rw [liftDefault_eq]
  constructor
  · rw [replaceWith_takeOut_text blind_view, Consists]
    exact hlegible.ofString_toString.symm ▸ h.kept htail b
  · rw [← hpass.seenFrom]
    apply replaceWith_takeOut_state blind_view Defaults.values
    · exact fun _ _ => rfl
    · exact fun _ _ => rfl

def found (ps : List Part) : List Default :=
  ps.filterMap (Part.initial? true) ++ ps.filterMap (Part.initial? false)

def others (ps : List Part) : List Part :=
  ps.filter (·.isOther)

lemma kept_kept (ps : List Part) : kept false (kept true ps) = others ps := by
  rw [kept, kept, filter_filter, others]
  refine filter_congr fun p _ => ?_
  cases p with
  | initial d => cases hb : d.braced <;> simp [Part.initial?, Part.isOther, hb]
  | other s => rfl

lemma initial_kept (ps : List Part) : (kept true ps).filterMap (Part.initial? false) = ps.filterMap (Part.initial? false) := by
  rw [kept, filterMap_filter]
  refine filterMap_congr fun p _ => ?_
  cases p with
  | initial d => cases hb : d.braced <;> simp [Part.initial?, hb]
  | other s => rfl

lemma liftDefaults_eq (a : Parameter.Accessors) (values : Table String) (code : String) :
    liftDefaults a values code = (Pattern.mk (defaultForm false)).replaceWith (liftDefault a)
      ((Pattern.mk (defaultForm true)).replaceWith (liftDefault a) ⟨values, []⟩ code).1
      ((Pattern.mk (defaultForm true)).replaceWith (liftDefault a) ⟨values, []⟩ code).2 := by
  rw [liftDefaults, defaultPatterns_eq]
  rfl

lemma consists_liftDefaults (h : Consists ps code) (a : Parameter.Accessors) (values : Table String) :
    Consists (others ps) (liftDefaults a values code).2 ∧
      (liftDefaults a values code).1.values = ((found ps).map fun d => (d.field, d.literal)).foldl (record a) values := by
  obtain ⟨hfirst, hvalues⟩ := h.pass a true ⟨values, []⟩
  obtain ⟨hsecond, hvalues'⟩ := hfirst.pass a false ((Pattern.mk (defaultForm true)).replaceWith (liftDefault a) ⟨values, []⟩ code).1
  rw [liftDefaults_eq]
  constructor
  · rwa [kept_kept] at hsecond
  · rw [hvalues', hvalues, initial_kept, found, map_append, foldl_append]

end DeviceForge.Setup
