import JavaSyntax.Proofs.Expression.Lookahead
import JavaSyntax.Proofs.Grammar.ExpressionStart
import JavaSyntax.Proofs.Grammar.Local
import JavaSyntax.Proofs.Grammar.Surroundings

namespace JavaSyntax.Grammar

open Step

variable {t : Token} {ts r m : List Token} {ps qs : List Piece} {l k : Kind}

/-- A node of operators, or an assignment to one. -/
def Compares (ps : List Piece) : Prop :=
  ∃ qs, ps = [.node .infixExpression qs] ∨
    ∃ rs, ps = [.node .assignmentExpression (.node .infixExpression qs :: rs)]

theorem ne_leftParen_of_skipSegments (h : ahead (skipSegments r).rest ≠ .leftParen) :
    ahead r ≠ .leftParen := by
  intro hparen
  have hrest : (skipSegments r).rest = r :=
    rest_skipSegments_of_endsName (endsName_of_ne (by simp [hparen]))
  exact h ((congrArg ahead hrest).trans hparen)

/-- A name that ends in front of no `(` ends where a qualified name does. -/
theorem rest_nameSegments : ∀ {r : List Token}, ahead (skipSegments r).rest ≠ .leftParen →
    (nameSegments r).rest = (skipSegments r).rest
  | [], _ => rfl
  | [_], _ => rfl
  | d :: n :: r, h => by
    rw [skipSegments] at h ⊢
    rw [nameSegments]
    by_cases hd : d.kind = .dot ∧ n.kind = .ident
    · rw [if_pos hd] at h ⊢
      have hbehind : ahead (skipSegments r).rest ≠ .leftParen := h
      rw [if_pos ⟨hd.1, hd.2, ne_leftParen_of_skipSegments hbehind⟩]
      exact rest_nameSegments hbehind
    · rw [if_neg hd, if_neg fun h => hd ⟨h.1, h.2.1⟩]
      rfl

/-- What stands behind the segments of a type with a name behind it. -/
theorem ahead_skipSegments (h : SkipsOn r l m) (hm : ahead m = .ident) :
    ahead (skipSegments r).rest = .lt ∨ ahead (skipSegments r).rest = .leftBracket ∨
      ahead (skipSegments r).rest = .ident := by
  obtain ⟨k, us, harguments, -, rfl⟩ := h
  by_cases hlt : ahead (skipSegments r).rest = .lt
  · exact .inl hlt
  · obtain ⟨-, rfl⟩ := (skips_typeArguments_of_ne hlt).mp harguments
    by_cases hbracket : ahead (skipSegments r).rest = .leftBracket
    · exact .inr (.inl hbracket)
    · rw [skipDimensions_of_ne hbracket] at hm
      exact .inr (.inr hm)

theorem atExplicitTypeQualifier_of_skips (h : Skips (skipType ts) l m) (hcolon : ahead m ≠ .colonColon)
    (hdot : ahead m ≠ .dot) : atExplicitTypeQualifier ts = false := by
  obtain ⟨s, hs, rfl, rfl⟩ := h
  rw [atExplicitTypeQualifier, hs, Bool.and_eq_false_iff]
  right
  dsimp only
  split
  · contradiction
  · contradiction
  · contradiction
  · rfl

theorem suffixedTail_of_ne (hdot : ahead m ≠ .dot) (hcolon : ahead m ≠ .colonColon) :
    suffixedTail k ps m = .done k ps m := by
  cases m with
  | nil => rw [suffixedTail]
  | cons t r => rw [suffixedTail, if_neg (show ¬ t.kind = .dot from hdot),
      if_neg (show ¬ t.kind = .colonColon from hcolon)]

/-- A name in front of none of the tokens that go on with it is an operand on its own. -/
theorem unary_of_skips (ht : t.kind = .ident) (hskips : Skips (skipType (t :: r)) l m)
    (hm : ahead m = .ident) : (unary (t :: r)).lead = some .ambiguousName ∧
      (unary (t :: r)).rest = (skipSegments r).rest := by
  have hbehind := ahead_skipSegments ((skips_type_ident ht).mp hskips) hm
  have hne {k : Kind} (hk : ¬ (Kind.lt = k ∨ Kind.leftBracket = k ∨ Kind.ident = k)) :
      ahead (skipSegments r).rest ≠ k := by
    rintro rfl
    exact hk (hbehind.imp Eq.symm (Or.imp Eq.symm Eq.symm))
  have hparen : ahead r ≠ .leftParen := ne_leftParen_of_skipSegments (hne (by decide))
  have hqualifier : atExplicitTypeQualifier (t :: r) = false :=
    atExplicitTypeQualifier_of_skips hskips (by simp [hm]) (by simp [hm])
  have hliteral : ¬ literalTokens.contains t.kind = true := by
    rw [ht]
    decide
  have hprimary : primary (t :: r) = (ambiguousName t r).lift t := by
    rw [primary, if_neg hliteral, if_pos ht, if_neg hparen, hqualifier, if_neg Bool.false_ne_true]
  have hlead : (primary (t :: r)).lead = some .ambiguousName := by
    rw [hprimary]
    rfl
  have hrest : (primary (t :: r)).rest = (skipSegments r).rest := by
    rw [hprimary]
    exact rest_nameSegments (hne (by decide))
  have hsuffixed : suffixed (t :: r) = (primary (t :: r)).resume
      (.done .ambiguousName (primary (t :: r)).parts (primary (t :: r)).rest) := by
    rw [suffixed, hlead]
    dsimp only
    rw [suffixedTail_of_ne (by rw [hrest]; exact hne (by decide)) (by rw [hrest]; exact hne (by decide))]
  rw [unary, if_neg (by simp [ht]), hsuffixed]
  exact ⟨rfl, hrest⟩

/-- A chain of operators stays a node of operators. -/
theorem binaryTail_infix (weakest : Nat) : ∀ (ts : List Token) (qs : List Piece),
    (binaryTail .infixExpression [.node .infixExpression qs] ts weakest).lead =
        some .infixExpression ∧
      ∃ qs', (binaryTail .infixExpression [.node .infixExpression qs] ts weakest).parts =
        [.node .infixExpression qs']
  | [], qs => by
    rw [binaryTail]
    exact ⟨rfl, qs, rfl⟩
  | t :: r, qs => by
    rw [binaryTail]
    split
    · exact ⟨rfl, qs, rfl⟩
    · next strength _ =>
      split
      · exact ⟨rfl, qs, rfl⟩
      · exact binaryTail_infix weakest (binary r (strength + 1)).rest _
termination_by ts => ts.length
decreasing_by grind

theorem binaryTail_lt (left : List Piece) (hm : ahead m = .lt) :
    (binaryTail k left m 1).lead = some .infixExpression ∧
      ∃ qs, (binaryTail k left m 1).parts = [.node .infixExpression qs] := by
  cases m with
  | nil => cases hm
  | cons t r =>
    have hstrength : precedence? t.kind = some 4 := by
      rw [show t.kind = .lt from hm]
      rfl
    rw [binaryTail, hstrength]
    exact binaryTail_infix 1 (binary r 5).rest _

theorem binaryTail_of_none (left : List Piece) (weakest : Nat) (hm : precedence? (ahead m) = none) :
    binaryTail k left m weakest = .done k left m := by
  cases m with
  | nil => rw [binaryTail]
  | cons t r => rw [binaryTail, show precedence? t.kind = none from hm]

theorem assignment_of_not (target : List Piece) (hm : isAssignment (ahead m) = false) :
    assignment k target m = .done k target m := by
  cases m with
  | nil => rw [assignment]
  | cons t r => rw [assignment, show isAssignment t.kind = false from hm, if_neg Bool.false_ne_true]

theorem compares_assignment (qs : List Piece) :
    Compares (assignment .infixExpression [.node .infixExpression qs] m).parts := by
  cases m with
  | nil =>
    rw [assignment]
    exact ⟨qs, .inl rfl⟩
  | cons t r =>
    rw [assignment]
    split
    · exact ⟨qs, .inr ⟨_, rfl⟩⟩
    · exact ⟨qs, .inl rfl⟩

/-- Where the lookahead finds a type with a name behind it, the expression is a comparison. -/
theorem compares_of_skips (ht : t.kind = .ident) (hskips : Skips (skipType (t :: r)) l m)
    (hm : ahead m = .ident) (hend : isEnd (ahead (expr (t :: r)).rest) = true) :
    Compares (expr (t :: r)).parts := by
  obtain ⟨hlead, hrest⟩ := unary_of_skips ht hskips hm
  have hbehind := ahead_skipSegments ((skips_type_ident ht).mp hskips) hm
  rw [← hrest] at hbehind
  have hbinary : binary (t :: r) 1 = (unary (t :: r)).resume
      (binaryTail .ambiguousName (unary (t :: r)).parts (unary (t :: r)).rest 1) := by
    rw [binary, hlead]
  rcases hbehind with hbehind | hbehind
  · obtain ⟨hleads, qs, hparts⟩ :=
      binaryTail_lt (k := .ambiguousName) (unary (t :: r)).parts hbehind
    have htarget : (binary (t :: r) 1).lead = some .infixExpression := by
      rw [hbinary]
      exact hleads
    have hnode : (binary (t :: r) 1).parts = [.node .infixExpression qs] := by
      rw [hbinary]
      exact hparts
    rw [expr, htarget]
    change Compares (assignment .infixExpression (binary (t :: r) 1).parts
      (binary (t :: r) 1).rest).parts
    rw [hnode]
    exact compares_assignment qs
  · have hstop : precedence? (ahead (unary (t :: r)).rest) = none ∧
        isAssignment (ahead (unary (t :: r)).rest) = false ∧
        isEnd (ahead (unary (t :: r)).rest) = false := by
      rcases hbehind with hbehind | hbehind <;> rw [hbehind] <;> decide
    have hdone : binary (t :: r) 1 = (unary (t :: r)).resume
        (.done .ambiguousName (unary (t :: r)).parts (unary (t :: r)).rest) := by
      rw [hbinary, binaryTail_of_none _ _ hstop.1]
    have hexpr : (expr (t :: r)).rest = (unary (t :: r)).rest := by
      rw [expr, hdone]
      change (assignment _ _ (unary (t :: r)).rest).rest = _
      rw [assignment_of_not _ hstop.2.1]
      rfl
    rw [hexpr, hstop.2.2] at hend
    cases hend

/-- An expression that is no comparison and starts with no primitive type is not taken for the
declaration of a variable. -/
theorem atLocalVariable_of_not_compares (hprimitive : primitiveKeywords.contains t.kind = false)
    (hs : (expr (t :: r)).problems = []) (hend : isEnd (ahead (expr (t :: r)).rest) = true)
    (hc : ¬ Compares (expr (t :: r)).parts) : atLocalVariable (t :: r) = false := by
  have hmodifier : ∀ k, expressionFirst.contains k = true → startsModifier k = false := by
    intro k
    cases k <;> decide
  have hstarts : expressionFirst.contains t.kind = true := @starts_expr (t :: r) hs
  have hnone : ∀ l m, Skips (skipType (t :: r)) l m → ahead m ≠ .ident := by
    intro l m hskips hm
    by_cases ht : t.kind = .ident
    · exact hc (compares_of_skips ht hskips hm hend)
    · have hstarts : startsType (ahead (t :: r)) = false := by
        rw [startsType, Bool.or_eq_false_iff]
        exact ⟨beq_false_of_ne ht, hprimitive⟩
      exact not_skips_type hstarts hskips
  have hno : ((skipType (t :: r)).any fun type => ahead type.rest == .ident) = false := by
    cases hskip : skipType (t :: r) with
    | none => rfl
    | some s => exact beq_false_of_ne (hnone s.last s.rest ⟨s, hskip, rfl, rfl⟩)
  rw [atLocalVariable, hno]
  change (startsModifier t.kind || primitiveKeywords.contains t.kind || false) = false
  rw [hmodifier t.kind hstarts, hprimitive]
  rfl

/-- A primitive type that starts an expression has `::` or `.` behind it. -/
theorem type_of_primitive (hprimitive : primitiveKeywords.contains t.kind = true)
    (hs : (expr (t :: r)).problems = []) : (type false (t :: r)).problems = [] ∧
      (ahead (type false (t :: r)).rest = .colonColon ∨ ahead (type false (t :: r)).rest = .dot) := by
  have hfirst : ∀ k, primitiveKeywords.contains k = true → ¬ (k = .bang ∨ k = .minus) ∧
      literalTokens.contains k = false ∧ k ≠ .ident := by
    intro k
    cases k <;> decide
  obtain ⟨hsign, hliteral, hident⟩ := hfirst t.kind hprimitive
  have hoperand := problems_primary hs hsign
  rw [primary, hliteral, if_neg Bool.false_ne_true, if_neg hident, if_pos hprimitive,
    primitiveOperand] at hoperand
  split at hoperand
  · next hbehind => exact ⟨hoperand, hbehind.imp_right And.left⟩
  · exact absurd hoperand (List.append_ne_nil_of_right_ne_nil _ (List.cons_ne_nil _ _))

/-- An expression that starts with a primitive type is read as a declaration, and the name of the
variable is missed. -/
theorem reports_statement_of_primitive (hprimitive : primitiveKeywords.contains t.kind = true)
    (hs : (expr (t :: r)).problems = []) : ∃ u, (statement t r).Reports ⟨.variableName, some u⟩ := by
  obtain ⟨htype, hbehind⟩ := type_of_primitive hprimitive hs
  have hmodifier : ∀ k, primitiveKeywords.contains k = true → startsModifier k = false := by
    intro k
    cases k <;> decide
  have hat : atLocalVariable (t :: r) = true := by
    change (startsModifier t.kind || primitiveKeywords.contains t.kind || _) = true
    rw [hprimitive, Bool.or_true, Bool.true_or]
  have htyped : (type false (t :: r)).toStep.Makes (type false (t :: r)).parts
      (type false (t :: r)).rest := ⟨rfl, htype, rfl⟩
  generalize (type false (t :: r)).rest = m at htyped hbehind
  cases m with
  | nil => rcases hbehind with h | h <;> cases h
  | cons u m =>
    have hu : ¬ u.kind = .ident := by
      rcases hbehind with h | h <;> rw [show u.kind = _ from h] <;> decide
    have hname : (variableId (u :: m)).Reports ⟨.variableName, some u⟩ := by
      rw [variableId, if_neg hu]
      exact ⟨[], rfl⟩
    have hdeclared : (declarators (u :: m)).Reports ⟨.variableName, some u⟩ := by
      rw [declarators]
      exact ((hname.andThen _).node _).andThen _
    have hall := ((makes_modifierList (hmodifier _ hprimitive) r).andThen
      (f := fun us => (type false us).toStep) htyped).reports (f := declarators) hdeclared
    have hstarts : expressionFirst.contains t.kind = true := @starts_expr (t :: r) hs
    rw [statement_of_starts hstarts, dif_pos hat]
    exact ⟨u, ((hall.andThen _).node _).within _⟩

end JavaSyntax.Grammar
