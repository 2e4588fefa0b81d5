import JavaSyntax.Proofs.Recording.Lookahead
import JavaSyntax.Proofs.Recording.Reading

namespace JavaSyntax

namespace Grammar

theorem segments_of_not {ts : List Token} (h : ¬(ahead ts = .dot ∧ ahead (ts.drop 1) = .ident)) :
    segments ts = Step.idle ts := by
  rcases ts with _ | ⟨d, _ | ⟨m, r⟩⟩
  · rfl
  · rfl
  · exact if_neg h

theorem dimensions_of_not (v : Bool) {ts : List Token}
    (h : ¬(ahead ts = .leftBracket ∧ ahead (ts.drop 1) = .rightBracket)) :
    dimensions v ts = ellipsis v ts := by
  rcases ts with _ | ⟨b, _ | ⟨c, r⟩⟩
  · rfl
  · rfl
  · exact if_neg h

theorem ellipsis_of_not {v : Bool} {ts : List Token} (h : ¬(v = true ∧ ahead ts = .ellipsis)) :
    ellipsis v ts = Step.idle ts := by
  cases ts with
  | nil => rfl
  | cons t r => exact if_neg h

theorem lead_classType (t : Token) (r : List Token) :
    ((classType t r).lift t).lead = some .classType := by
  rw [classType]
  rfl

/-- Without a dimension ahead there is none to make an array type of. -/
theorem isEmpty_dimensions (v : Bool) (ts : List Token) : (dimensions v ts).parts.isEmpty =
    !(ahead ts == .leftBracket && ahead (ts.drop 1) == .rightBracket || v && ahead ts == .ellipsis) := by
  by_cases hnext : ahead ts = .leftBracket ∧ ahead (ts.drop 1) = .rightBracket
  · obtain ⟨b, c, r, rfl, hb, hc⟩ := exists_of_ahead_two hnext (by decide) (by decide)
    rw [dimensions, if_pos ⟨hb, hc⟩]
    simp [ahead, hb, hc, Step.andThen, Step.node, Step.lift]
  · rw [dimensions_of_not v hnext]
    by_cases hlast : v = true ∧ ahead ts = .ellipsis
    · obtain ⟨t, r, rfl, ht⟩ := exists_of_ahead hlast.2 (by decide)
      rw [ellipsis, if_pos ⟨hlast.1, ht⟩]
      simp [ahead, hlast.1, ht, Step.node]
    · rw [ellipsis_of_not hlast]
      simp only [not_and] at hnext hlast
      by_cases hbracket : ahead ts = .leftBracket <;> cases v <;> simp_all [Step.idle]

end Grammar

namespace Recording

open Grammar

variable {ts r : List Token} {t : Token}

theorem makes_segments (ts : List Token) : Makes segments (Grammar.segments ts) := by
  refine .deeper segments.eq_2 ((looks_next ts).makes ((looks_kindAt ts 1).makes ?_))
  by_cases hnext : ahead ts = .dot ∧ ahead (ts.drop 1) = .ident
  · rw [fun_if_pos (by simpa using hnext)]
    obtain ⟨d, m, r, rfl, hd, hm⟩ := exists_of_ahead_two hnext (by decide) (by decide)
    rw [Grammar.segments, if_pos ⟨hd, hm⟩]
    exact ((makes_segments r).lead true m).lead true d
  · rw [fun_if_neg (by simpa using hnext), segments_of_not hnext]
    exact makes_idle ts
termination_by ts.length
decreasing_by grind

theorem makes_qualifiedName (ht : t.kind = .ident) :
    Makes qualifiedName ((Grammar.qualifiedName t r).lift t) :=
  Looks.makes (looks_assert ht r) ((makes_segments r).lead true t)

theorem looks_atDimension (ts : List Token) : Looks (fun _ => atDimension) ts
    (ahead ts == .leftBracket && ahead (ts.drop 1) == .rightBracket) :=
  (looks_next ts).bind ((looks_kindAt ts 1).bind .pure)

theorem makes_ellipsis (v : Bool) (ts : List Token) : Makes (fun _ => ellipsis v) (Grammar.ellipsis v ts) := by
  refine (looks_isAt ts .ellipsis).makes ?_
  by_cases hlast : v = true ∧ ahead ts = .ellipsis
  · rw [fun_if_pos (by simpa using hlast)]
    obtain ⟨t, r, rfl, ht⟩ := exists_of_ahead hlast.2 (by decide)
    rw [Grammar.ellipsis, if_pos ⟨hlast.1, ht⟩]
    exact (makes_bump true t r).node .arrayTypeDim (by decide)
  · rw [fun_if_neg (by simpa using hlast), ellipsis_of_not hlast]
    exact makes_idle ts

theorem loops_dimensions (v : Bool) (ts : List Token) :
    Loops dimensions (Grammar.ellipsis v) (Grammar.dimensions v ts) := by
  refine .deeper dimensions.eq_2 ((looks_atDimension ts).loops ?_)
  by_cases hnext : ahead ts = .leftBracket ∧ ahead (ts.drop 1) = .rightBracket
  · rw [fun_if_pos (by simpa using hnext)]
    obtain ⟨b, c, r, rfl, hb, hc⟩ := exists_of_ahead_two hnext (by decide) (by decide)
    rw [Grammar.dimensions, if_pos ⟨hb, hc⟩]
    have hdim := ((makes_bump true c r).lead true b).node .arrayTypeDim (by decide)
    have hmore := hdim.loops (loops_dimensions v r)
    simp only [bind_assoc, pure_bind] at hmore
    exact hmore
  · rw [fun_if_neg (by simpa using hnext), dimensions_of_not v hnext]
    exact loops_done _ ts
termination_by ts.length
decreasing_by grind

/-- What dimensions make of the element type in front of them. -/
def arrayTail (v : Bool) (k : Kind) (element : List Piece) (ts : List Token) : Operand ts :=
  let dims := Grammar.dimensions v ts
  if dims.parts.isEmpty then .done k element ts else .around element (dims.node .arrayDimensions) .arrayType

theorem withDimensions_eq (v : Bool) {element : Operand ts} {k : Kind} (hk : element.lead = some k) :
    Grammar.withDimensions v element = element.resume (arrayTail v k element.parts element.rest) := by
  rw [Grammar.withDimensions, arrayTail]
  split
  · obtain ⟨⟨parts, problems, rest, hle⟩, lead⟩ := element
    obtain rfl : lead = some k := hk
    simp [Operand.resume, Operand.done, Step.idle]
  · rfl

theorem continues_withDimensions (v : Bool) (k : Kind) (pieces : List Piece) (ts : List Token) :
    Continues (withDimensions v) k pieces (arrayTail v k pieces ts) := by
  refine Looks.continues (looks_atDimension ts) (Looks.continues (looks_isAt ts .ellipsis) ?_)
  rw [arrayTail, isEmpty_dimensions]
  cases hnext : (ahead ts == .leftBracket && ahead (ts.drop 1) == .rightBracket ||
    v && ahead ts == .ellipsis)
  · exact continues_done k pieces ts
  · have hdims := ((loops_dimensions v ts).makes (makes_ellipsis v)).node .arrayDimensions (by decide)
    have harray := hdims.around (k := k) pieces .arrayType (by decide)
    simp only [bind_assoc, pure_bind] at harray
    exact harray

theorem yields_primitiveType (t : Token) (r : List Token) :
    Yields (fun _ => primitiveType) (.found (Step.bump true t r) .primitiveType) :=
  (makes_bump true t r).found .primitiveType (by decide)

namespace Listing

/-- An element of the list. -/
def operand : Listing → (ts : List Token) → Operand ts
  | .arguments => Grammar.expr
  | .typeArguments => Grammar.type false

/-- The elements behind the opening bracket, and the closing one. -/
def tail : Listing → (ts : List Token) → Step ts
  | .arguments => argumentsTail
  | .typeArguments => typeArgumentsTail

/-- What follows an element, and the closing bracket. -/
def more : Listing → (ts : List Token) → Step ts
  | .arguments => argumentsMore
  | .typeArguments => typeArgumentsMore

variable {list : Listing}

theorem closing_ne_eof (list : Listing) : list.closing ≠ .eof := by cases list <;> decide

theorem tail_of_closed (h : ts = [] ∨ ahead ts = list.closing) : list.tail ts = Step.expect list.closing ts := by
  rcases ts with _ | ⟨t, r⟩
  · cases list
    · exact argumentsTail.eq_1
    · exact typeArgumentsTail.eq_1
  · have ht : t.kind = list.closing := h.resolve_left (by simp)
    cases list
    · exact (argumentsTail.eq_2 t r).trans (if_pos ht)
    · exact (typeArgumentsTail.eq_2 t r).trans (if_pos ht)

theorem tail_of_open (hts : ts ≠ []) (h : ahead ts ≠ list.closing) :
    list.tail ts = (list.operand ts).andThen
      (match (list.operand ts).lead with
        | none => Step.expect list.closing _
        | some _ => list.more _) := by
  obtain ⟨t, r, rfl⟩ := List.exists_cons_of_ne_nil hts
  cases list
  · rw [tail, argumentsTail, if_neg (show t.kind ≠ .rightParen from h)]
    cases hlead : (Grammar.expr (t :: r)).lead <;> simp only [operand, hlead] <;> rfl
  · rw [tail, typeArgumentsTail, if_neg (show t.kind ≠ .gt from h)]
    cases hlead : (Grammar.type false (t :: r)).lead <;> simp only [operand, hlead] <;> rfl

theorem more_of_comma (ht : t.kind = .comma) :
    list.more (t :: r) = ((list.tail r).lead false t).lift t := by
  cases list
  · exact (argumentsMore.eq_2 t r).trans (if_pos ht)
  · exact (typeArgumentsMore.eq_2 t r).trans (if_pos ht)

theorem more_of_not (h : ahead ts ≠ .comma) : list.more ts = Step.expect list.closing ts := by
  rcases ts with _ | ⟨t, r⟩
  · cases list
    · exact argumentsMore.eq_1
    · exact typeArgumentsMore.eq_1
  · cases list
    · exact (argumentsMore.eq_2 t r).trans (if_neg h)
    · exact (typeArgumentsMore.eq_2 t r).trans (if_neg h)

end Listing

/-- An element of the list is read as its operand, and the outcome tells if there was one. -/
def Listed (list : Listing) (ts : List Token) : Prop :=
  ∀ n : Nest, n.Faces ts → Reaches (element list) n fun found n' =>
    found = (list.operand ts).lead.isSome ∧ ∃ ps, n.Reads ps (list.operand ts).toStep n'

theorem Finds.listed {list : Listing} {x : Nat → Recording (Option CompletedMarker)}
    (hx : Finds x (list.operand ts)) (hlist : ∀ d, element list (d + 1) = x d >>= fun c => pure c.isSome) :
    Listed list ts := by
  intro n h
  obtain ⟨c, n', hrun, ps, hps, hlead⟩ := hx n h
  exact .deeper hlist ⟨_, n', hrun.bind .pure, hlead.isSome_eq, ps, hps⟩

theorem Listed.loops {list : Listing} {f : Nat → Bool → Recording Unit} {last : (ts : List Token) → Step ts}
    {b : Step (list.operand ts).rest} (hx : Listed list ts)
    (hf : Loops (fun d => f d (list.operand ts).lead.isSome) last b) :
    Loops (fun d => element list d >>= f d) last ((list.operand ts).andThen b) := by
  obtain ⟨e, he, rfl⟩ := hf
  refine ⟨(list.operand ts).andThen e, fun n h => ?_, (Step.andThen_assoc ..).symm⟩
  obtain ⟨found, n₁, hrun, rfl, ps, hps⟩ := hx n h
  obtain ⟨_, n', hrun', qs, hqs⟩ := he n₁ hps.faces
  exact ⟨(), n', hrun.bind hrun', _, hps.andThen hqs⟩

mutual

theorem loops_elements (list : Listing) {ts : List Token} (hlist : ∀ us, us.length ≤ ts.length → Listed list us) :
    Loops (elements list) (Step.expect list.closing) (list.tail ts) := by
  refine .deeper (elements.eq_2 list) (loops_until Listing.tail_of_closed fun hts hopen => ?_)
  rw [Listing.tail_of_open hts hopen]
  refine (hlist ts (Nat.le_refl _)).loops ?_
  cases (list.operand ts).lead with
  | none => exact loops_done _ _
  | some k =>
    have hrest := (list.operand ts).length_rest_le
    exact loops_more list fun us hus => hlist us (hus.trans hrest)
termination_by 2 * ts.length + 1
decreasing_by grind

theorem loops_more (list : Listing) {ts : List Token} (hlist : ∀ us, us.length ≤ ts.length → Listed list us) :
    Loops (fun d => do if ← eat .comma then elements list d) (Step.expect list.closing) (list.more ts) := by
  by_cases hcomma : ahead ts = .comma
  · obtain ⟨t, r, rfl, ht⟩ := exists_of_ahead hcomma (by decide)
    rw [Listing.more_of_comma ht]
    exact (loops_elements list fun us hus => hlist us (Nat.le_succ_of_le hus)).eat ht
  · rw [Listing.more_of_not hcomma]
    exact (looks_eat hcomma).loops (loops_done _ ts)
termination_by 2 * ts.length
decreasing_by grind

end

/-- The list in its brackets. -/
theorem makes_delimited (list : Listing) (ht : t.kind = list.opening)
    (hlist : ∀ us, us.length ≤ r.length → Listed list us) :
    Makes (delimited list) (((list.tail r).lead false t).lift t) := by
  exact .deeper (delimited.eq_2 list) (Looks.makes (looks_assert ht r)
    (((loops_elements list hlist).makes (makes_expect list.closing_ne_eof)).lead false t))

mutual

theorem finds_type (v : Bool) (ts : List Token) : Finds (type v) (Grammar.type v ts) := by
  refine .deeper (type.eq_2 v) ((looks_isAtAny ts _).finds ?_)
  rcases ts with _ | ⟨t, r⟩
  · rw [fun_if_neg (by decide +kernel), Grammar.type]
    exact (looks_isAt [] .ident).finds (makes_report .type []).missing
  rw [ahead, Grammar.type]
  by_cases hprimitive : primitiveKeywords.contains t.kind
  · rw [fun_if_pos hprimitive, if_pos hprimitive, withDimensions_eq v rfl]
    have harray := ((yields_primitiveType t r).resume rfl (continues_withDimensions v _ _ _)).finds
    simp only [bind_assoc] at harray
    exact harray
  rw [fun_if_neg hprimitive, if_neg hprimitive]
  refine (looks_isAt (t :: r) .ident).finds ?_
  by_cases hident : t.kind = .ident
  · have hlead := lead_classType t r
    rw [if_pos hident, fun_if_pos (by simpa [ahead] using hident), withDimensions_eq v hlead]
    have harray := ((yields_classType r hident).resume hlead (continues_withDimensions v _ _ _)).finds
    simp only [bind_assoc] at harray
    exact harray
  · rw [if_neg hident, fun_if_neg (by simpa [ahead] using hident)]
    exact (makes_report .type (t :: r)).missing
termination_by 8 * ts.length
decreasing_by all_goals grind

theorem yields_classType {t : Token} (r : List Token) (ht : t.kind = .ident) :
    Yields classType ((Grammar.classType t r).lift t) := by
  rw [Grammar.classType]
  refine .deeper classType.eq_2 ?_
  have h := ((makes_qualifiedName (r := r) ht).andThen (makes_typeArguments? _)).found .classType (by decide)
  simp only [bind_assoc] at h
  exact h
termination_by 8 * r.length + 5
decreasing_by all_goals grind

theorem makes_typeArguments? (ts : List Token) : Makes typeArguments? (Grammar.typeArguments? ts) := by
  refine .deeper typeArguments?.eq_2 ((looks_isAt ts .lt).makes ?_)
  rcases ts with _ | ⟨t, r⟩
  · exact Grammar.typeArguments?.eq_1 ▸ makes_idle []
  rw [Grammar.typeArguments?]
  by_cases hlt : t.kind = .lt
  · rw [if_pos hlt, fun_if_pos (by simpa [ahead] using hlt)]
    have hlist (us : List Token) (hus : us.length ≤ r.length) : Listed .typeArguments us :=
      (finds_type false us).listed element.eq_3
    exact .deeper typeArguments.eq_2
      ((makes_delimited .typeArguments hlt hlist).node .typeArguments (by decide))
  · rw [if_neg hlt, fun_if_neg (by simpa [ahead] using hlt)]
    exact makes_idle (t :: r)
termination_by 8 * ts.length + 4
decreasing_by all_goals grind

end

end Recording

end JavaSyntax
