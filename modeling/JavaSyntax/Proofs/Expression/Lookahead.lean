import JavaSyntax.Proofs.Expression.Types

namespace JavaSyntax

open Grammar Word

variable {t : Token} {ts r m : List Token} {l : Kind}

/-- A type can be looked past. Its last token has the kind `l`, and `m` is left. -/
def Skips (o : Option (Skipped ts)) (l : Kind) (m : List Token) : Prop :=
  ∃ s, o = some s ∧ s.last = l ∧ s.rest = m

theorem Skips.unique {o : Option (Skipped ts)} {k : Kind} {us : List Token} (h : Skips o l m)
    (h' : Skips o k us) : k = l ∧ us = m := by
  obtain ⟨s, rfl, rfl, rfl⟩ := h
  obtain ⟨s', hs, rfl, rfl⟩ := h'
  cases hs
  exact ⟨rfl, rfl⟩

theorem not_skips_none : ¬ Skips (none : Option (Skipped ts)) l m := nofun

theorem skips_nothing {k : Kind} : Skips (some (.nothing k ts)) l m ↔ k = l ∧ ts = m := by
  constructor
  · rintro ⟨s, hs, rfl, rfl⟩
    cases hs
    exact ⟨rfl, rfl⟩
  · rintro ⟨rfl, rfl⟩
    exact ⟨_, rfl, rfl, rfl⟩

theorem skips_lift {o : Option (Skipped r)} : Skips (o.map (Skipped.lift t)) l m ↔ Skips o l m := by
  cases o with
  | none => exact ⟨nofun, nofun⟩
  | some s =>
    constructor
    · rintro ⟨s', hs, rfl, rfl⟩
      cases hs
      exact ⟨s, rfl, rfl, rfl⟩
    · rintro ⟨s', hs, rfl, rfl⟩
      cases hs
      exact ⟨_, rfl, rfl, rfl⟩

theorem skipDimensions_of_ne (h : ahead r ≠ .leftBracket) :
    skipDimensions l r = .nothing l r := by
  rcases r with _ | ⟨b, _ | ⟨c, r⟩⟩
  · rfl
  · rfl
  · rw [skipDimensions, if_neg (fun hb => h hb.1)]

/-- What is looked past after the first identifier of a type. -/
def SkipsOn (r : List Token) (l : Kind) (m : List Token) : Prop :=
  ∃ k us, Skips (skipTypeArguments? (skipSegments r).rest) k us ∧
    (skipDimensions k us).last = l ∧ (skipDimensions k us).rest = m

theorem skips_type_ident (ht : t.kind = .ident) :
    Skips (skipType (t :: r)) l m ↔ SkipsOn r l m := by
  have hp : ¬ primitiveKeywords.contains t.kind = true := by
    rw [ht]
    decide
  rw [skipType, if_neg hp, if_pos ht]
  dsimp only
  cases hs : skipTypeArguments? (skipSegments r).rest with
  | none =>
    constructor
    · intro h
      exact absurd h not_skips_none
    · rintro ⟨k, us, hus, -⟩
      rw [hs] at hus
      exact absurd hus not_skips_none
  | some s =>
    constructor
    · rintro ⟨s', h, rfl, rfl⟩
      cases h
      exact ⟨_, _, ⟨s, hs, rfl, rfl⟩, rfl, rfl⟩
    · rintro ⟨k, us, ⟨s', hs', rfl, rfl⟩, rfl, rfl⟩
      rw [hs] at hs'
      cases hs'
      exact ⟨_, rfl, rfl, rfl⟩

theorem skips_type_primitive (ht : primitiveKeywords.contains t.kind = true) :
    Skips (skipType (t :: r)) l m ↔
      (skipDimensions t.kind r).last = l ∧ (skipDimensions t.kind r).rest = m := by
  rw [skipType, if_pos ht]
  constructor
  · rintro ⟨s, hs, rfl, rfl⟩
    cases hs
    exact ⟨rfl, rfl⟩
  · rintro ⟨rfl, rfl⟩
    exact ⟨_, rfl, rfl, rfl⟩

theorem not_skips_type (h : startsType (ahead r) = false) : ¬ Skips (skipType r) l m := by
  cases r with
  | nil =>
    rw [skipType]
    exact not_skips_none
  | cons t r =>
    obtain ⟨hident, hprimitive⟩ := Bool.or_eq_false_iff.mp h
    rw [skipType, if_neg (by simpa using hprimitive), if_neg (by simpa using hident)]
    exact not_skips_none

theorem skips_typeArguments_of_ne (h : ahead r ≠ .lt) :
    Skips (skipTypeArguments? r) l m ↔ .ident = l ∧ r = m := by
  cases r with
  | nil =>
    rw [skipTypeArguments?]
    exact skips_nothing
  | cons t r =>
    rw [skipTypeArguments?, if_neg (by simpa using h)]
    exact skips_nothing

theorem skips_typeArguments (ht : t.kind = .lt) :
    Skips (skipTypeArguments? (t :: r)) l m ↔ Skips (skipTypeArgumentsTail r) l m := by
  rw [skipTypeArguments?, if_pos ht]
  exact skips_lift

theorem skips_typeArgumentsTail_gt (ht : t.kind = .gt) :
    Skips (skipTypeArgumentsTail (t :: r)) l m ↔ .gt = l ∧ r = m := by
  rw [skipTypeArgumentsTail, if_pos ht]
  exact skips_lift.trans skips_nothing

theorem skips_typeArgumentsTail (ht : t.kind ≠ .gt) :
    Skips (skipTypeArgumentsTail (t :: r)) l m ↔ Skips (skipArguments (t :: r)) l m := by
  rw [skipTypeArgumentsTail, if_neg ht]

theorem skips_arguments : Skips (skipArguments r) l m ↔
    ∃ k us, Skips (skipType r) k us ∧ Skips (skipMoreArguments us) l m := by
  rw [skipArguments]
  cases hs : skipType r with
  | none =>
    constructor
    · intro h
      exact absurd h not_skips_none
    · rintro ⟨k, us, hus, -⟩
      exact absurd hus not_skips_none
  | some s =>
    constructor
    · rintro ⟨s', h, rfl, rfl⟩
      obtain ⟨more, hmore, rfl⟩ := Option.map_eq_some_iff.mp h
      exact ⟨_, _, ⟨s, rfl, rfl, rfl⟩, more, hmore, rfl, rfl⟩
    · rintro ⟨k, us, ⟨s', h, rfl, rfl⟩, more, hmore, rfl, rfl⟩
      cases h
      exact ⟨s.andThen more, congrArg (Option.map s.andThen) hmore, rfl, rfl⟩

theorem skips_more_comma (ht : t.kind = .comma) :
    Skips (skipMoreArguments (t :: r)) l m ↔ Skips (skipArguments r) l m := by
  rw [skipMoreArguments, if_pos ht]
  exact skips_lift

theorem skips_more_gt (ht : t.kind = .gt) :
    Skips (skipMoreArguments (t :: r)) l m ↔ .gt = l ∧ r = m := by
  rw [skipMoreArguments, if_neg (by simp [ht]), if_pos ht]
  exact skips_lift.trans skips_nothing

theorem not_skips_more (h : ahead r ≠ .comma ∧ ahead r ≠ .gt) : ¬ Skips (skipMoreArguments r) l m := by
  cases r with
  | nil =>
    rw [skipMoreArguments]
    exact not_skips_none
  | cons t r =>
    rw [skipMoreArguments, if_neg (by simpa using h.1), if_neg (by simpa using h.2)]
    exact not_skips_none

theorem rest_skipSegments_of_endsName (h : EndsName r) : (skipSegments r).rest = r := by
  rcases r with _ | ⟨d, _ | ⟨n, r⟩⟩
  · rfl
  · rfl
  · rw [skipSegments, if_neg (fun hd => h hd.1 hd.2)]
    rfl

/-- The segments of a name are looked past with the segments after them. -/
theorem rest_skipSegments (r : List Token) : ∀ {others : List Identifier} {ts : List Token},
    Spelled (others.flatMap fun i => [.dot, i.word]) ts →
      (skipSegments (ts ++ r)).rest = (skipSegments r).rest
  | [], ts, hts => by rw [hts.nil, List.nil_append]
  | i :: others, ts, hts => by
    obtain ⟨s, _, rfl, hi⟩ := hts.cons
    obtain ⟨s', us, rfl, hus⟩ := hi.cons
    rw [List.cons_append, List.cons_append, skipSegments, if_pos ⟨rfl, rfl⟩]
    exact rest_skipSegments r hus

/-- A whole name is looked past like a single identifier. -/
theorem skips_type_name {n : DottedName} (hts : Spelled n.words ts) :
    Skips (skipType (ts ++ r)) l m ↔ SkipsOn r l m := by
  obtain ⟨s, us, rfl, hus⟩ := Spelled.cons hts
  rw [List.cons_append, skips_type_ident rfl, SkipsOn, rest_skipSegments r hus, SkipsOn]

namespace TypeSyntax

/-- The last token of an element type of kind `l` with `n` dimensions. -/
def lastOf (l : Kind) (n : Nat) : Kind := if n = 0 then l else .rightBracket

def last : TypeSyntax → Kind
  | .primitive p n => lastOf p.kind n
  | .named _ n => lastOf .ident n
  | .generic _ _ n => lastOf .gt n

theorem skips_dimensions (h : ahead r ≠ .leftBracket) : ∀ {n : Nat} {ts : List Token} (l : Kind),
    Spelled (dimensionWords n) ts →
      (skipDimensions l (ts ++ r)).last = lastOf l n ∧ (skipDimensions l (ts ++ r)).rest = r
  | 0, ts, l, hts => by
    rw [hts.nil, List.nil_append, skipDimensions_of_ne h]
    exact ⟨rfl, rfl⟩
  | n + 1, ts, l, hts => by
    obtain ⟨s, _, rfl, hright⟩ := hts.cons
    obtain ⟨s', us, rfl, hus⟩ := hright.cons
    obtain ⟨hlast, hrest⟩ := skips_dimensions h .rightBracket hus
    rw [List.cons_append, List.cons_append, skipDimensions, if_pos ⟨rfl, rfl⟩]
    refine ⟨hlast.trans ?_, hrest⟩
    simp [lastOf]

theorem skipsOn {n : Nat} {ds : List Token} {k : Kind} (hname : EndsName m)
    (harguments : Skips (skipTypeArguments? m) k (ds ++ r)) (hds : Spelled (dimensionWords n) ds)
    (hend : ahead r ≠ .leftBracket) : SkipsOn m (lastOf k n) r := by
  rw [← rest_skipSegments_of_endsName hname] at harguments
  exact ⟨k, ds ++ r, harguments, skips_dimensions hend k hds⟩

mutual

/-- A type is looked past as it is written. -/
theorem skips : ∀ {t : TypeSyntax} {ts r : List Token}, Spelled t.words ts → EndsType r →
    Skips (skipType (ts ++ r)) t.last r
  | .primitive p n, ts, r, hts, hend => by
    obtain ⟨s, us, rfl, hus⟩ := Spelled.cons hts
    have hprimitive := p.contains_kind
    rw [List.cons_append, skips_type_primitive (t := ⟨p.kind, p.keyword, s⟩) hprimitive]
    exact skips_dimensions hend.ne_leftBracket p.kind hus
  | .named name n, ts, r, hts, hend => by
    obtain ⟨ns, ds, rfl, hns, hds⟩ := Spelled.append hts
    obtain ⟨hname, hlt⟩ := endsName_dimensions hds hend
    rw [List.append_assoc, skips_type_name hns]
    exact skipsOn hname ((skips_typeArguments_of_ne hlt).mpr ⟨rfl, rfl⟩) hds hend.ne_leftBracket
  | .generic name arguments n, ts, r, hts, hend => by
    obtain ⟨ns, _, rfl, hns, hls⟩ := Spelled.append hts
    obtain ⟨_, s', ds, rfl, has, hds⟩ := Spelled.middle hls
    obtain ⟨s, us, rfl, hus⟩ := has.cons
    have harguments := skips_argumentWords hus s' (ds ++ r)
    rw [List.append_assoc, List.append_assoc, List.cons_append, List.cons_append,
      skips_type_name hns]
    exact skipsOn (endsName_of_ne (by simp)) ((skips_typeArguments rfl).mpr harguments) hds
      hend.ne_leftBracket

theorem skips_argumentWords : ∀ {arguments : List TypeSyntax} {ts : List Token},
    Spelled (argumentWords arguments) ts → ∀ (s : Nat) (r : List Token),
      Skips (skipTypeArgumentsTail (ts ++ ⟨gt.kind, gt.text, s⟩ :: r)) .gt r
  | [], ts, hts, s, r => by
    rw [hts.nil, List.nil_append]
    exact (skips_typeArgumentsTail_gt rfl).mpr ⟨rfl, rfl⟩
  | t :: arguments, ts, hts, s, r => by
    obtain ⟨us, vs, rfl, hus, hvs⟩ := Spelled.append hts
    have hmore := skips_moreWords hvs s r
    have htype := skips hus (yields_more hvs s r).1
    obtain ⟨u, us, rfl, hu⟩ := starts hus
    rw [List.append_assoc]
    exact (skips_typeArgumentsTail (startsType_ne_gt hu)).mpr
      (skips_arguments.mpr ⟨_, _, htype, hmore⟩)

theorem skips_moreWords : ∀ {arguments : List TypeSyntax} {ts : List Token},
    Spelled (moreWords arguments) ts → ∀ (s : Nat) (r : List Token),
      Skips (skipMoreArguments (ts ++ ⟨gt.kind, gt.text, s⟩ :: r)) .gt r
  | [], ts, hts, s, r => by
    rw [hts.nil, List.nil_append]
    exact (skips_more_gt rfl).mpr ⟨rfl, rfl⟩
  | t :: arguments, ts, hts, s, r => by
    obtain ⟨s', _, rfl, hus⟩ := Spelled.cons hts
    obtain ⟨us, vs, rfl, hus, hvs⟩ := hus.append
    have hmore := skips_moreWords hvs s r
    have htype := skips hus (yields_more hvs s r).1
    rw [List.cons_append, List.append_assoc]
    exact (skips_more_comma rfl).mpr (skips_arguments.mpr ⟨_, _, htype, hmore⟩)

end

end TypeSyntax

end JavaSyntax
