import JavaSyntax.Proofs.Expression.Yields

namespace JavaSyntax

open Grammar Word

variable {ts us r m : List Token} {b : Branch} {bs : List Branch}

/-- No further segment of a name comes first. -/
def EndsName (r : List Token) : Prop := ahead r = .dot → ahead (r.drop 1) ≠ .ident

/-- Nothing that continues a type comes first. -/
structure EndsType (r : List Token) : Prop where
  name : EndsName r
  ne_lt : ahead r ≠ .lt
  ne_leftBracket : ahead r ≠ .leftBracket

theorem endsName_of_ne (h : ahead r ≠ .dot) : EndsName r := fun hdot => absurd hdot h

theorem endsType_of_ne (h : ahead r ≠ .dot ∧ ahead r ≠ .lt ∧ ahead r ≠ .leftBracket) : EndsType r :=
  ⟨endsName_of_ne h.1, h.2.1, h.2.2⟩

theorem Primitive.contains_kind (p : Primitive) : primitiveKeywords.contains p.kind = true := by
  cases p <;> decide

theorem segments_of_endsName (h : EndsName r) : segments r = .idle r := by
  rcases r with _ | ⟨d, _ | ⟨n, r⟩⟩
  · rfl
  · rfl
  · rw [segments, if_neg]
    rintro ⟨hd, hn⟩
    exact h hd hn

theorem yields_segments (h : EndsName r) : ∀ {others : List Identifier} {ts : List Token},
    Spelled (others.flatMap fun i => [.dot, i.word]) ts →
      (segments (ts ++ r)).Yields (others.flatMap fun i => [".", i.text]) [] r
  | [], ts, hts => by
    rw [hts.nil, List.nil_append, segments_of_endsName h]
    exact Step.yields_idle r
  | i :: others, ts, hts => by
    obtain ⟨s, _, rfl, hi⟩ := hts.cons
    obtain ⟨s', us, rfl, hus⟩ := hi.cons
    rw [List.cons_append, List.cons_append, segments, if_pos ⟨rfl, rfl⟩]
    exact (((yields_segments h hus).lead_true _).lead_true _).lift _ |>.lift _

theorem DottedName.joined_texts (n : DottedName) :
    Piece.joined (n.first.text :: n.others.flatMap fun i => [".", i.text]) = some n.text := by
  simp [Piece.joined, DottedName.text, List.foldl_flatMap]

/-- A whole name. -/
theorem yields_qualifiedName (h : EndsName r) {n : DottedName} (hts : Spelled n.words ts) :
    ∃ t us, ts = t :: us ∧ t.kind = .ident ∧
      (qualifiedName t (us ++ r)).Yields (n.first.text :: n.others.flatMap fun i => [".", i.text])
        [] r := by
  obtain ⟨s, us, rfl, hus⟩ := Spelled.cons hts
  exact ⟨_, us, rfl, rfl, (yields_segments h hus).lead_true _⟩

namespace TypeSyntax

/-- One dimension of an array type. -/
def dimension : Branch := .bare .arrayTypeDim (some "[]") []

theorem dimensions_of_ne (h : ahead r ≠ .leftBracket) : Grammar.dimensions false r = .idle r :=
  (dimensions_eq_ellipsis false h).trans (ellipsis_false r)

theorem yields_dimensions (h : ahead r ≠ .leftBracket) : ∀ {n : Nat} {ts : List Token},
    Spelled (dimensionWords n) ts →
      (Grammar.dimensions false (ts ++ r)).Yields [] (List.replicate n dimension) r ∧
        ((Grammar.dimensions false (ts ++ r)).parts.isEmpty = true ↔ n = 0)
  | 0, ts, hts => by
    rw [hts.nil, List.nil_append, dimensions_of_ne h]
    exact ⟨Step.yields_idle r, by simp [Step.idle]⟩
  | n + 1, ts, hts => by
    obtain ⟨s, _, rfl, hright⟩ := hts.cons
    obtain ⟨s', us, rfl, hus⟩ := hright.cons
    obtain ⟨hdims, -⟩ := yields_dimensions h hus
    rw [List.cons_append, List.cons_append, Grammar.dimensions, if_pos ⟨rfl, rfl⟩]
    refine ⟨?_, by simp [Step.andThen, Step.lift, Step.node]⟩
    have hpair := ((Step.yields_idle (us ++ r)).lead_true
      ⟨rightBracket.kind, rightBracket.text, s'⟩).lead_true ⟨leftBracket.kind, leftBracket.text, s⟩
    have hdim := ((hpair.node .arrayTypeDim).lift ⟨rightBracket.kind, rightBracket.text, s'⟩).lift
      ⟨leftBracket.kind, leftBracket.text, s⟩
    exact hdim.andThen hdims

/-- An element type and its dimensions. -/
theorem yields_withDimensions {element : Operand us} {n : Nat} (hts : Spelled (dimensionWords n) ts)
    (hend : ahead r ≠ .leftBracket) (helement : element.Yields b (ts ++ r)) :
    (Grammar.withDimensions false element).Yields (withDimensions b n) r := by
  obtain ⟨hdims, hempty⟩ := yields_dimensions hend hts
  have hall := (helement.toStep.andThen (f := fun us => (Grammar.dimensions false us).node
    .arrayDimensions) (hdims.node .arrayDimensions)).found .arrayType
  rw [← helement.rest] at hempty
  unfold Grammar.withDimensions withDimensions
  by_cases hn : n = 0
  · subst hn
    rw [hts.nil] at helement
    simp only [hempty.mpr rfl, if_true]
    exact helement
  · rw [if_neg hn]
    simp only [show (Grammar.dimensions false element.rest).parts.isEmpty = false by
      simpa [hn] using hempty]
    rw [Branch.settleFirst_bare rfl, Branch.settleFirst_bare rfl] at hall
    exact hall

/-- A type starts with a keyword or an identifier. -/
theorem starts : ∀ {t : TypeSyntax} {ts : List Token}, Spelled t.words ts →
    ∃ u us, ts = u :: us ∧ startsType u.kind = true
  | .primitive p _, _, hts => by
    obtain ⟨s, us, rfl, -⟩ := Spelled.cons hts
    exact ⟨_, us, rfl, Bool.or_eq_true_iff.mpr (.inr p.contains_kind)⟩
  | .named _ _, _, hts | .generic _ _ _, _, hts => by
    obtain ⟨s, us, rfl, -⟩ := Spelled.cons hts
    exact ⟨_, us, rfl, rfl⟩

theorem startsType_ne_gt {k : Kind} (h : startsType k = true) : k ≠ .gt := by
  rintro rfl
  exact absurd h (by decide)

/-- After `<` or a comma: an argument, then what comes after it. -/
theorem yields_argument {t : TypeSyntax} {ts : List Token} (hts : Spelled t.words ts)
    (ht : (Grammar.type false (ts ++ m)).Yields b m)
    (hmore : (typeArgumentsMore m).Yields [] bs r) :
    (typeArgumentsTail (ts ++ m)).Yields [] (b :: bs) r := by
  obtain ⟨u, us, rfl, hu⟩ := starts hts
  rw [List.cons_append] at ht ⊢
  rw [typeArgumentsTail, if_neg (startsType_ne_gt hu)]
  dsimp only
  rw [ht.lead]
  exact ht.toStep.andThen hmore

theorem typeArgumentsMore_gt (s : Nat) (r : List Token) :
    (typeArgumentsMore (⟨gt.kind, gt.text, s⟩ :: r)).Yields [] [] r := by
  rw [typeArgumentsMore, if_neg nofun]
  exact Step.yields_expect rfl r

theorem yields_classType {n : DottedName} (hts : Spelled n.words ts) (hname : EndsName m)
    (harguments : (typeArguments? m).Yields [] bs r) :
    ∃ t us, ts = t :: us ∧ t.kind = .ident ∧
      (classType t (us ++ m)).Yields (.bare .classType (some n.text) bs) r := by
  obtain ⟨t, us, rfl, ht, hn⟩ := yields_qualifiedName hname hts
  refine ⟨t, us, rfl, ht, ?_⟩
  have hall := (hn.andThen harguments).found .classType
  rw [Branch.settleFirst_bare rfl, List.append_nil, n.joined_texts] at hall
  rw [classType]
  exact hall

theorem typeArguments?_of_ne (h : ahead r ≠ .lt) : typeArguments? r = .idle r := by
  cases r with
  | nil => rw [typeArguments?]
  | cons t r =>
    rw [typeArguments?, if_neg (by simpa using h)]

theorem yields_typeArguments {s : Nat} (h : (typeArgumentsTail m).Yields [] bs r) :
    (typeArguments? (⟨lt.kind, lt.text, s⟩ :: m)).Yields [] [.bare .typeArguments none bs] r := by
  have hall := ((h.lead_false ⟨lt.kind, lt.text, s⟩).node .typeArguments).lift
    ⟨lt.kind, lt.text, s⟩
  rw [Branch.settleFirst_bare rfl] at hall
  rw [typeArguments?, if_pos rfl]
  exact hall

theorem ahead_dimensionWords {n : Nat} (hts : Spelled (dimensionWords n) ts) :
    (n = 0 ∧ ts = []) ∨ ∃ t us, ts = t :: us ∧ t.kind = .leftBracket := by
  cases n with
  | zero => exact .inl ⟨rfl, hts.nil⟩
  | succ n =>
    obtain ⟨s, us, rfl, -⟩ := Spelled.cons hts
    exact .inr ⟨_, us, rfl, rfl⟩

theorem endsName_dimensions {n : Nat} (hts : Spelled (dimensionWords n) ts) (h : EndsType r) :
    EndsName (ts ++ r) ∧ ahead (ts ++ r) ≠ .lt := by
  rcases ahead_dimensionWords hts with ⟨-, rfl⟩ | ⟨t, us, rfl, ht⟩
  · exact ⟨h.name, h.ne_lt⟩
  · have hdims : EndsName (t :: us ++ r) := endsName_of_ne (by simp [ht])
    exact ⟨hdims, by simp [ht]⟩

theorem yields_named {n : Nat} {name : DottedName} {ds : List Token} (hns : Spelled name.words ts)
    (hname : EndsName m) (harguments : (typeArguments? m).Yields [] bs (ds ++ r))
    (hds : Spelled (dimensionWords n) ds) (hend : ahead r ≠ .leftBracket) :
    (Grammar.type false (ts ++ m)).Yields
      (withDimensions (.bare .classType (some name.text) bs) n) r := by
  obtain ⟨t, us, rfl, ht, helement⟩ := yields_classType hns hname harguments
  have hp : ¬ primitiveKeywords.contains t.kind = true := by
    rw [ht]
    decide
  rw [List.cons_append, Grammar.type, if_neg hp, if_pos ht]
  exact yields_withDimensions hds hend (helement.lift t)

mutual

/-- A type is read as it is written. -/
theorem yields : ∀ {t : TypeSyntax} {ts r : List Token}, Spelled t.words ts → EndsType r →
    (Grammar.type false (ts ++ r)).Yields t.tree r
  | .primitive p n, ts, r, hts, hend => by
    obtain ⟨s, us, rfl, hus⟩ := Spelled.cons hts
    have helement := (Step.yields_bump_true ⟨p.kind, p.keyword, s⟩ (us ++ r)).found .primitiveType
    rw [List.cons_append, Grammar.type, if_pos p.contains_kind]
    exact yields_withDimensions hus hend.ne_leftBracket helement
  | .named name n, ts, r, hts, hend => by
    obtain ⟨ns, ds, rfl, hns, hds⟩ := Spelled.append hts
    obtain ⟨hname, hlt⟩ := endsName_dimensions hds hend
    have harguments : (typeArguments? (ds ++ r)).Yields [] [] (ds ++ r) := by
      rw [typeArguments?_of_ne hlt]
      exact Step.yields_idle _
    rw [List.append_assoc]
    exact yields_named hns hname harguments hds hend.ne_leftBracket
  | .generic name arguments n, ts, r, hts, hend => by
    obtain ⟨ns, _, rfl, hns, hls⟩ := Spelled.append hts
    obtain ⟨_, s', ds, rfl, has, hds⟩ := Spelled.middle hls
    obtain ⟨s, us, rfl, hus⟩ := has.cons
    have harguments := yields_typeArguments (s := s) (yields_arguments hus s' (ds ++ r))
    rw [List.append_assoc, List.append_assoc, List.cons_append, List.cons_append]
    exact yields_named hns (endsName_of_ne (by simp)) harguments hds hend.ne_leftBracket

theorem yields_arguments : ∀ {arguments : List TypeSyntax} {ts : List Token},
    Spelled (argumentWords arguments) ts → ∀ (s : Nat) (r : List Token),
      (typeArgumentsTail (ts ++ ⟨gt.kind, gt.text, s⟩ :: r)).Yields [] (trees arguments) r
  | [], ts, hts, s, r => by
    rw [hts.nil, List.nil_append, typeArgumentsTail, if_pos rfl]
    exact Step.yields_expect rfl r
  | t :: arguments, ts, hts, s, r => by
    obtain ⟨us, vs, rfl, hus, hvs⟩ := Spelled.append hts
    obtain ⟨hend, hmore⟩ := yields_more hvs s r
    rw [List.append_assoc]
    exact yields_argument hus (yields hus hend) hmore

theorem yields_more : ∀ {arguments : List TypeSyntax} {ts : List Token},
    Spelled (moreWords arguments) ts → ∀ (s : Nat) (r : List Token),
      EndsType (ts ++ ⟨gt.kind, gt.text, s⟩ :: r) ∧
        (typeArgumentsMore (ts ++ ⟨gt.kind, gt.text, s⟩ :: r)).Yields [] (trees arguments) r
  | [], ts, hts, s, r => by
    rw [hts.nil]
    exact ⟨endsType_of_ne (by simp), typeArgumentsMore_gt s r⟩
  | t :: arguments, ts, hts, s, r => by
    obtain ⟨s', _, rfl, hus⟩ := Spelled.cons hts
    obtain ⟨us, vs, rfl, hus, hvs⟩ := hus.append
    obtain ⟨hend, hmore⟩ := yields_more hvs s r
    have htail := yields_argument hus (yields hus hend) hmore
    refine ⟨endsType_of_ne (by simp), ?_⟩
    rw [List.cons_append, List.append_assoc, typeArgumentsMore, if_pos rfl]
    exact (htail.lead_false _).lift _

end

end TypeSyntax

theorem GenericArguments.endsName : ∀ {a : GenericArguments} {ts r : List Token}, Spelled a.words ts →
    EndsName r → EndsName (ts ++ r)
  | none, ts, r, hts, hr => by
    rw [hts.nil]
    exact hr
  | some arguments, ts, r, hts, _ => by
    obtain ⟨s, us, s', rfl, -⟩ := Spelled.enclosed hts
    exact endsName_of_ne (by simp)

/-- Type arguments in front of what is no type argument. -/
theorem GenericArguments.yields : ∀ {a : GenericArguments} {ts r : List Token}, Spelled a.words ts →
    ahead r ≠ .lt → (typeArguments? (ts ++ r)).Yields [] a.trees r
  | none, ts, r, hts, hend => by
    rw [hts.nil, List.nil_append, TypeSyntax.typeArguments?_of_ne hend]
    exact Step.yields_idle r
  | some arguments, ts, r, hts, hend => by
    obtain ⟨s, us, s', rfl, hus⟩ := Spelled.enclosed hts
    rw [List.cons_append, List.append_assoc]
    exact TypeSyntax.yields_typeArguments (TypeSyntax.yields_arguments hus s' r)

end JavaSyntax
