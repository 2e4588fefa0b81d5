import JavaSyntax.Proofs.Expression.Lookahead

namespace JavaSyntax

open Grammar Word

variable {t : Token} {ts r m : List Token} {l : Kind}

/-- An operand can start with the first token. -/
def StartsOperand (r : List Token) : Prop := expressionFirst.contains (ahead r) = true

theorem StartsOperand.ne (h : StartsOperand r) {k : Kind} (hk : expressionFirst.contains k = false) :
    ahead r ≠ k := by
  rintro rfl
  exact absurd (h.symm.trans hk) (by decide)

/-- Where type arguments can be looked past, an operand comes after them. -/
def OperandBehind (r : List Token) : Prop := ∀ l m, Skips (skipArguments r) l m → StartsOperand m

/-- No type that starts with a name in front of `r` ends in front of `::` or `.class`, and this stays
so when the name is the first of some type arguments. -/
def Apart (r : List Token) : Prop :=
  ∀ l m, SkipsOn r l m → StartsOperand m ∨
    l = .ident ∧ ∀ k us, Skips (skipMoreArguments m) k us → StartsOperand us

/-- When no arguments come after a name, it is looked past alone. -/
theorem apart_of_rest (hm : (skipSegments r).rest = m) (hlt : ahead m ≠ .lt)
    (hbracket : ahead m ≠ .leftBracket)
    (h : ∀ k us, Skips (skipMoreArguments m) k us → StartsOperand us) : Apart r := by
  rintro l us ⟨k, vs, harguments, rfl, rfl⟩
  rw [hm] at harguments
  obtain ⟨rfl, rfl⟩ := (skips_typeArguments_of_ne hlt).mp harguments
  rw [skipDimensions_of_ne hbracket]
  exact .inr ⟨rfl, h⟩

/-- A comma or `>` after a name may go on with type arguments around it. -/
theorem EndsType.apart (hend : EndsType r)
    (h : ∀ k us, Skips (skipMoreArguments r) k us → StartsOperand us) : Apart r :=
  apart_of_rest (rest_skipSegments_of_endsName hend.name) hend.ne_lt hend.ne_leftBracket h

theorem EndsType.apart_of_ne (hend : EndsType r) (h : ahead r ≠ .comma ∧ ahead r ≠ .gt) : Apart r :=
  hend.apart fun _ _ hus => absurd hus (not_skips_more h)

theorem apart_comma (ht : t.kind = .comma) (h : OperandBehind r) : Apart (t :: r) :=
  (endsType_of_ne (by simp [ht])).apart fun k us hus => h k us ((skips_more_comma ht).mp hus)

theorem apart_gt (ht : t.kind = .gt) (h : StartsOperand r) : Apart (t :: r) := by
  apply EndsType.apart (endsType_of_ne (by simp [ht]))
  intro k us hus
  obtain ⟨-, rfl⟩ := (skips_more_gt ht).mp hus
  exact h

/-- After `<` in front of an operand, type arguments end in front of another operand. -/
theorem apart_lt (ht : t.kind = .lt) (hstart : StartsOperand r) (h : OperandBehind r) :
    Apart (t :: r) := by
  rintro l us ⟨k, vs, harguments, rfl, rfl⟩
  rw [rest_skipSegments_of_endsName (endsName_of_ne (by simp [ht])), skips_typeArguments ht]
    at harguments
  have hbehind : StartsOperand vs := by
    cases r with
    | nil => cases hstart
    | cons u r => exact h k vs ((skips_typeArgumentsTail (hstart.ne (by decide))).mp harguments)
  rw [skipDimensions_of_ne (hbehind.ne (by decide))]
  exact .inl hbehind

theorem operandBehind_of_not (h : startsType (ahead r) = false) : OperandBehind r := by
  intro l m hm
  obtain ⟨k, us, hus, -⟩ := skips_arguments.mp hm
  exact absurd hus (not_skips_type h)

theorem operandBehind_name {n : DottedName} (hts : Spelled n.words ts) (h : Apart r) :
    OperandBehind (ts ++ r) := by
  intro l m hm
  obtain ⟨k, us, hus, hmore⟩ := skips_arguments.mp hm
  rcases h k us ((skips_type_name hts).mp hus) with hoperand | ⟨-, hbehind⟩
  · exact absurd hmore (not_skips_more ⟨hoperand.ne (by decide), hoperand.ne (by decide)⟩)
  · exact hbehind l m hmore

theorem operandBehind_type {type : TypeSyntax} (hts : Spelled type.words ts) (hend : EndsType r)
    (h : ahead r ≠ .comma ∧ ahead r ≠ .gt) : OperandBehind (ts ++ r) := by
  intro l m hm
  obtain ⟨k, us, hus, hmore⟩ := skips_arguments.mp hm
  obtain ⟨-, rfl⟩ := (TypeSyntax.skips hts hend).unique hus
  exact absurd hmore (not_skips_more h)

/-- A name that is apart from what comes after it is not taken for a type. -/
theorem atExplicitTypeQualifier_name {n : DottedName} (hts : Spelled n.words ts) (h : Apart r) :
    atExplicitTypeQualifier (ts ++ r) = false := by
  unfold atExplicitTypeQualifier
  dsimp only
  cases hskip : skipType (ts ++ r) with
  | none => simp
  | some s =>
    have hs := h s.last s.rest ((skips_type_name hts).mp ⟨s, hskip, rfl, rfl⟩)
    rw [Bool.and_eq_false_iff]
    right
    rcases hs with hoperand | ⟨hident, -⟩
    · have hcolon : ahead s.rest ≠ .colonColon := hoperand.ne (by decide)
      have hdot : ahead s.rest ≠ .dot := hoperand.ne (by decide)
      dsimp only
      split <;> first | contradiction | rfl
    · simp [hident]

end JavaSyntax
