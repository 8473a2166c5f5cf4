import DeviceForge.Proofs.Token.Kin
/-!
# Comment removal

Where a comment is taken out, what stands before it and what stands behind it come together.
-/

namespace DeviceForge

open List String Lexeme

namespace Segment

variable {c q : Char} {cs ds : List Char}

lemma segmentInduction {motive : List Char → Prop} (nil : motive [])
    (code : ∀ c cs, (extent c cs).1 = .code → motive cs → motive (c :: cs))
    (sheltered : ∀ c cs, (extent c cs).1 ≠ .code → motive (cs.drop (extent c cs).2) → motive (c :: cs)) (cs : List Char) : motive cs := by
  induction hn : cs.length using Nat.strong_induction_on generalizing cs with
  | _ n ih =>
    cases cs with
    | nil => exact nil
    | cons c cs =>
      rw [length_cons] at hn
      by_cases h : (extent c cs).1 = .code
      · exact code c cs h (ih _ (by omega) _ rfl)
      · exact sheltered c cs h (ih _ (by rw [length_drop]; omega) _ rfl)

def sheltered (cs : List Char) : List Segment :=
  (ofChars cs).filter (·.kind ≠ .code)

lemma filter_prepend {p : Segment → Bool} (hp : ∀ text, p ⟨.code, text⟩ = false) (c : Char) (segments : List Segment) :
    (prepend c segments).filter p = segments.filter p := by
  unfold prepend
  split <;> simp [hp]

lemma sheltered_code (h : (extent c cs).1 = .code) : sheltered (c :: cs) = sheltered cs := by
  rw [sheltered, ofChars_code h, filter_prepend (by simp), sheltered]

lemma sheltered_plain (h : ∀ d ∈ ds, isPlain d) (cs : List Char) : sheltered (ds ++ cs) = sheltered cs := by
  induction ds with
  | nil => rfl
  | cons d ds ih =>
    obtain ⟨hd, hds⟩ := forall_mem_cons.1 h
    rw [cons_append, sheltered_code (extent_plain hd _), ih hds]

lemma sheltered_cons (h : (extent c cs).1 ≠ .code) :
    sheltered (c :: cs) = ⟨(extent c cs).1, c :: cs.take (extent c cs).2⟩ :: sheltered (cs.drop (extent c cs).2) := by
  rw [sheltered, ofChars_cons, filter_cons_of_pos (by simpa using h), sheltered]

lemma sheltered_scan {ts : List Token} {tail : String} (h : Token.scan cs = (ts, tail)) :
    sheltered cs = (ts.filter (·.kind.segment ≠ .code)).map fun t => ⟨t.kind.segment, t.text.toList⟩ := by
  induction ts generalizing cs with
  | nil =>
    obtain ⟨-, hblank⟩ := Token.scan_nil h
    have hplain := sheltered_plain (fun d hd => plain_of_blank (hblank d hd)) []
    rw [append_nil] at hplain
    rw [hplain]
    simp [sheltered, ofChars]
  | cons t ts ih =>
    obtain ⟨c, rest, n, hext, rfl, htext, hlead, -, hscan⟩ := Token.scan_cons h
    rw [sheltered_plain fun d hd => plain_of_blank (hlead d hd)]
    rcases Token.extent_cases hext with ⟨hkind, hseg⟩ | ⟨hkind, hstart, hinner⟩
    · rw [sheltered_cons (by rwa [hseg]), hseg, ih hscan, filter_cons_of_pos (by simpa using hkind), map_cons, htext]
    · rw [sheltered_code hstart, filter_cons_of_neg (by simpa using hkind), ← ih hscan]
      conv_lhs => rw [← take_append_drop n rest]
      rw [sheltered_plain fun d hd => plain_of_inner (hinner d hd)]

/-! ## The text that is left -/

def stripped (cs : List Char) : List Char :=
  ((ofChars cs).filter (·.kind ≠ .comment)).flatMap (·.text)

lemma removeComments_eq (s : String) : removeComments s = ofList (stripped s.toList) := rfl

lemma stripped_nil : stripped [] = [] := by
  simp [stripped, ofChars]

lemma stripped_code (h : (extent c cs).1 = .code) : stripped (c :: cs) = c :: stripped cs := by
  rw [stripped, ofChars_code h, stripped]
  generalize ofChars cs = segments
  unfold prepend
  split <;> simp

lemma stripped_quoted (h : (extent c cs).1 = .quoted) :
    stripped (c :: cs) = c :: (cs.take (extent c cs).2 ++ stripped (cs.drop (extent c cs).2)) := by
  rw [stripped, ofChars_cons, filter_cons_of_pos (by simp [h]), flatMap_cons, stripped, cons_append]

lemma stripped_comment (h : (extent c cs).1 = .comment) :
    stripped (c :: cs) = stripped (cs.drop (extent c cs).2) := by
  rw [stripped, ofChars_cons, filter_cons_of_neg (by simp [h]), stripped]

lemma slash_of_comment (h : (extent c cs).1 = .comment) : c = '/' := by
  have hne : (extent c cs).1 ≠ .code := by simp [h]
  rcases (extent_ne_code_iff c cs).1 hne with hq | hline | hblock
  · simp [extent, if_pos (by simpa using hq)] at h
  · exact hline.1
  · exact hblock.1

lemma head?_stripped (h : (extent '/' cs).1 = .code) : (stripped cs).head? = cs.head? := by
  cases cs with
  | nil => rw [stripped_nil]
  | cons d ds =>
    cases hd : (extent d ds).1 with
    | code => rw [stripped_code hd, head?_cons, head?_cons]
    | quoted => rw [stripped_quoted hd, head?_cons, head?_cons]
    | comment =>
      obtain rfl := slash_of_comment hd
      simp [extent] at h

lemma extent_stripped (h : (extent c cs).1 = .code) : (extent c (stripped cs)).1 = .code := by
  by_contra hne
  have hcode := mt (extent_ne_code_iff c cs).2 (not_not.2 h)
  by_cases hc : c = '/'
  · subst hc
    rw [← ne_eq, extent_ne_code_iff, head?_stripped h] at hne
    exact hcode hne
  · rcases (extent_ne_code_iff c (stripped cs)).1 hne with hq | hline | hblock
    · exact hcode (.inl hq)
    · exact hc hline.1
    · exact hc hblock.1

lemma extent_of_quoted (h : (extent c cs).1 = .quoted) (rest : List Char) :
    (c = '"' ∨ c = '\'') ∧ extent c rest = (.quoted, quoted c rest) := by
  have hq : c = '"' ∨ c = '\'' := by
    by_contra hq
    simp only [extent, decide_eq_true_eq, Bool.or_eq_true, if_neg hq] at h
    split at h
    · cases h
    split at h <;> cases h
  exact ⟨hq, if_pos (by simpa using hq)⟩

lemma quoted_stripped (hq : q ≠ '\\') (cs : List Char) :
    quoted q (cs.take (quoted q cs) ++ stripped (cs.drop (quoted q cs))) = (cs.take (quoted q cs)).length := by
  have hlen : (cs.take (quoted q cs)).length = quoted q cs := length_take_of_le (quoted_le q cs)
  have hall : quoted q (cs.take (quoted q cs) ++ cs.drop (quoted q cs)) = (cs.take (quoted q cs)).length := by
    rw [take_append_drop, hlen]
  by_cases hrest : cs.drop (quoted q cs) = []
  · rw [hrest, stripped_nil]
    rwa [hrest] at hall
  · exact quoted_append hq _ _ (endsQuoted_of_quoted hrest _ hall)

lemma sheltered_stripped (cs : List Char) : sheltered (stripped cs) = (sheltered cs).filter (·.kind ≠ .comment) := by
  induction cs using segmentInduction with
  | nil => simp [stripped_nil, sheltered, ofChars]
  | code c cs h ih => rw [stripped_code h, sheltered_code (extent_stripped h), sheltered_code h, ih]
  | sheltered c cs h ih =>
    rw [sheltered_cons h]
    cases hkind : (extent c cs).1 with
    | code => exact absurd hkind h
    | comment => rw [stripped_comment hkind, ih, filter_cons_of_neg (by simp)]
    | quoted =>
      obtain ⟨hq, hext⟩ := extent_of_quoted hkind cs
      have hne : c ≠ '\\' := by rcases hq with rfl | rfl <;> decide
      have hnew := (extent_of_quoted hkind (cs.take (quoted c cs) ++ stripped (cs.drop (quoted c cs)))).2
      rw [quoted_stripped hne] at hnew
      rw [stripped_quoted hkind]
      rw [hext] at ih ⊢
      rw [sheltered_cons (by simp [hnew]), hnew, take_left, drop_left, ih, filter_cons_of_pos (by simp)]

lemma stripped_eq_self (h : ∀ g ∈ sheltered cs, g.kind ≠ .comment) : stripped cs = cs := by
  have hall : ∀ g ∈ ofChars cs, g.kind ≠ .comment := by
    intro g hg hkind
    exact h g (mem_filter.2 ⟨hg, by simp [hkind]⟩) hkind
  rw [stripped, filter_eq_self.2 (by simpa using hall), flatMap_text_ofChars]

end Segment

namespace Token

def isLiteral (t : Token) : Bool :=
  t.kind = .str || t.kind = .char

def bareOf (g : Segment) : Kind × String :=
  (if g.kind = .comment then .comment else if g.text.head? = some '"' then .str else .char, ofList g.text)

lemma bareOf_reads {t : Token} {rest : List Char} (h : Reads t rest) (hkind : t.kind.segment ≠ .code) :
    bareOf ⟨t.kind.segment, t.text.toList⟩ = t.bare := by
  rcases reads_cases h with hcode | ⟨quote, cs, hq, htext, -⟩ | ⟨cs, hcomment, -⟩ | ⟨cs, hcomment, -⟩
  · exact absurd hcode hkind
  · rcases hq with ⟨hk, rfl⟩ | ⟨hk, rfl⟩ <;> simp [bareOf, bare, hk, Kind.segment, htext, ← toList_inj]
  · simp [bareOf, bare, hcomment, Kind.segment]
  · simp [bareOf, bare, hcomment, Kind.segment]

lemma map_bare_sheltered (s : String) :
    ((ofString s).filter (·.kind.segment ≠ .code)).map bare = (Segment.sheltered s.toList).map bareOf := by
  have hscan := (Prod.eta (scan s.toList)).symm
  rw [Segment.sheltered_scan hscan, List.map_map]
  refine map_congr_left fun t ht => ?_
  obtain ⟨hmem, hkind⟩ := mem_filter.1 ht
  obtain ⟨rest, hreads⟩ := (legible_of_scan hscan).reads t hmem
  exact (bareOf_reads hreads (by simpa using hkind)).symm

lemma bareOf_fst_eq_comment {g : Segment} : (bareOf g).1 = .comment ↔ g.kind = .comment := by
  unfold bareOf
  split
  · simp [*]
  · split <;> simp [*]

lemma filter_literal_eq (ts : List Token) :
    (ts.filter isLiteral).map bare = ((ts.filter (·.kind.segment ≠ .code)).map bare).filter (·.1 ≠ .comment) := by
  rw [filter_map, filter_filter]
  congr 1
  refine filter_congr fun t _ => ?_
  cases hk : t.kind <;> simp [isLiteral, bare, hk, Kind.segment]

end Token

/-- A text without its comments has no comments, and the same literals. -/
theorem Segment.removeComments_spares_literals (s : String) :
    (∀ t ∈ Token.ofString (removeComments s), t.kind ≠ .comment) ∧
    ((Token.ofString (removeComments s)).filter Token.isLiteral).map Token.bare = ((Token.ofString s).filter Token.isLiteral).map Token.bare ∧
    removeComments (removeComments s) = removeComments s := by
  have hchars : (removeComments s).toList = stripped s.toList := by rw [removeComments_eq, toList_ofList]
  have hsheltered : sheltered (removeComments s).toList = (sheltered s.toList).filter (·.kind ≠ .comment) := by
    rw [hchars, sheltered_stripped]
  refine ⟨fun t ht hkind => ?_, ?_, ?_⟩
  · have hbare : t.bare ∈ (sheltered (removeComments s).toList).map Token.bareOf := by
      rw [← Token.map_bare_sheltered]
      exact mem_map_of_mem (mem_filter.2 ⟨ht, by simp [hkind, Token.Kind.segment]⟩)
    obtain ⟨g, hg, heq⟩ := mem_map.1 hbare
    rw [hsheltered, mem_filter, decide_eq_true_eq] at hg
    exact hg.2 (Token.bareOf_fst_eq_comment.1 (by rw [heq]; exact hkind))
  · rw [Token.filter_literal_eq, Token.filter_literal_eq, Token.map_bare_sheltered, Token.map_bare_sheltered, hsheltered,
      filter_map, filter_map, filter_filter]
    congr 1
    refine filter_congr fun g _ => ?_
    simp [Token.bareOf_fst_eq_comment]
  · rw [removeComments_eq (removeComments s), stripped_eq_self, ofList_toList]
    intro g hg
    rw [hsheltered, mem_filter, decide_eq_true_eq] at hg
    exact hg.2

end DeviceForge
