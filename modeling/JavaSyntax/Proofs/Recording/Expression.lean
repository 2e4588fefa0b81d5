import JavaSyntax.Proofs.Recording.TypeUse

namespace JavaSyntax

namespace Grammar

theorem nameSegments_of_not {ts : List Token}
    (h : ¬(ahead ts = .dot ∧ ahead (ts.drop 1) = .ident ∧ ahead (ts.drop 2) ≠ .leftParen)) :
    nameSegments ts = Step.idle ts := by
  rcases ts with _ | ⟨d, _ | ⟨m, r⟩⟩
  · rfl
  · rfl
  · exact if_neg h

/-- A keyword behind a point that none can follow. -/
def danglingKeyword : (ts : List Token) → Step ts
  | [] => .idle []
  | t :: r => if t.kind = .classKw ∨ t.kind = .thisKw then .bump false t r else .idle (t :: r)

theorem danglingPoint_eq (k : Kind) (pieces : List Piece) (d : Token) (r : List Token) :
    (danglingPoint k pieces d r).lift d =
      let error :=
        ((Step.report .memberName (d :: r)).andThen (((danglingKeyword r).lead false d).lift d)).node .error
      { error with parts := pieces ++ error.parts, lead := some k } := by
  rcases r with _ | ⟨t, r⟩
  · rfl
  · simp only [danglingPoint, danglingKeyword]
    split <;> rfl

end Grammar

namespace Recording

open Grammar

variable {ts r : List Token} {t : Token}

theorem makes_nameSegments (ts : List Token) : Makes nameSegments (Grammar.nameSegments ts) := by
  refine .deeper nameSegments.eq_2
    ((looks_next ts).makes ((looks_kindAt ts 1).makes ((looks_kindAt ts 2).makes ?_)))
  by_cases hnext : ahead ts = .dot ∧ ahead (ts.drop 1) = .ident ∧ ahead (ts.drop 2) ≠ .leftParen
  · rw [fun_if_pos (by simpa [and_assoc] using hnext)]
    obtain ⟨d, m, r, rfl, hd, hm⟩ := exists_of_ahead_two ⟨hnext.1, hnext.2.1⟩ (by decide) (by decide)
    rw [Grammar.nameSegments, if_pos ⟨hd, hm, hnext.2.2⟩]
    exact ((makes_nameSegments r).lead true m).lead true d
  · rw [fun_if_neg (by simpa [and_assoc] using hnext), nameSegments_of_not hnext]
    exact makes_idle ts
termination_by ts.length
decreasing_by grind

theorem yields_ambiguousName (r : List Token) (ht : t.kind = .ident) :
    Yields ambiguousName ((Grammar.ambiguousName t r).lift t) := by
  have hname := ((makes_nameSegments r).lead true t).found .ambiguousName (by decide)
  simp only [bind_assoc] at hname
  exact fun n h => (looks_assert ht r n h).reaches (hname n h)

theorem makes_danglingKeyword (ts : List Token) : Makes (fun _ => danglingKeyword) (Grammar.danglingKeyword ts) := by
  refine (looks_next ts).makes ?_
  rcases ts with _ | ⟨t, r⟩
  · exact makes_idle []
  · rw [Grammar.danglingKeyword]
    exact .ite (by simp [ahead]) (fun _ => makes_bump false t r) fun _ => makes_idle (t :: r)

theorem makes_danglingPoint (d : Token) (r : List Token) : Makes (fun _ => danglingPoint)
    (((Step.report .memberName (d :: r)).andThen (((Grammar.danglingKeyword r).lead false d).lift d)).node
      .error) := by
  have hpoint := ((makes_report .memberName (d :: r)).andThen ((makes_danglingKeyword r).lead false d)).node
    .error (by decide)
  simp only [bind_assoc] at hpoint
  exact hpoint

theorem continues_danglingPoint (k : Kind) (pieces : List Piece) (d : Token) (r : List Token) :
    Continues (fun _ c => danglingPoint >>= fun _ => pure c) k pieces
      ((Grammar.danglingPoint k pieces d r).lift d) := by
  rw [danglingPoint_eq]
  exact (makes_danglingPoint d r).beside

theorem makes_referenceName (ts : List Token) : Makes (fun _ => referenceName) (Grammar.referenceName ts) := by
  refine (looks_isAt ts .ident).makes ((looks_isAt ts .newKw).makes ?_)
  rcases ts with _ | ⟨t, r⟩
  · exact makes_report .methodName []
  · rw [Grammar.referenceName]
    exact .ite (by simp [ahead]) (fun _ => makes_bump true t r) fun _ => makes_report .methodName (t :: r)

theorem yields_literal (t : Token) (r : List Token) :
    Yields (fun _ => literal) (.found (Step.bump true t r) .literal) :=
  (makes_bump true t r).found .literal (by decide)

theorem yields_receiver (t : Token) (r : List Token) :
    Yields (fun _ => receiver) (.found (Step.bump false t r) .thisExpression) :=
  (makes_bump false t r).found .thisExpression (by decide)

theorem makes_afterPrimitive (ts : List Token) : Makes (fun _ => afterPrimitive)
    (if ahead ts = .colonColon ∨ (ahead ts = .dot ∧ ahead (ts.drop 1) = .classKw) then Step.idle ts
      else Step.report .afterPrimitive ts) := by
  refine (looks_isAt ts .colonColon).makes ((looks_isAt ts .dot).makes ((looks_kindAt ts 1).makes ?_))
  exact .ite (by simp) (fun _ => makes_idle ts) fun _ => makes_report .afterPrimitive ts

theorem finds_primitiveOperand (ts : List Token) : Finds primitiveOperand (Grammar.primitiveOperand ts) := by
  rw [Grammar.primitiveOperand]
  refine .deeper primitiveOperand.eq_2 ?_
  have hoperand := (finds_type false ts).beside (makes_afterPrimitive _)
  split
  · case isTrue h =>
    rw [if_pos h, Step.andThen_idle] at hoperand
    exact hoperand
  · case isFalse h =>
    rw [if_neg h] at hoperand
    simp only [Step.andThen, Step.report, Step.idle, List.append_nil] at hoperand
    exact hoperand

theorem continues_methodReference (k : Kind) (operand : List Piece) (r : List Token) (ht : t.kind = .colonColon) :
    Continues methodReference k operand
      (Operand.around operand ((((Grammar.typeArguments? r).andThen (Grammar.referenceName _)).lead false t).lift t)
        .methodReference) := by
  refine .deeper methodReference.eq_2 (Looks.continues (looks_assert ht r) ?_)
  have hreference := (((makes_typeArguments? r).andThen (makes_referenceName _)).lead false t).around (k := k)
    operand .methodReference (by decide)
  simp only [bind_assoc] at hreference
  exact hreference

theorem makes_constructedClass (ts : List Token) : Makes constructedClass (Grammar.constructedClass ts) := by
  refine .deeper constructedClass.eq_2 ((looks_isAt ts .ident).makes ?_)
  rcases ts with _ | ⟨t, r⟩
  · exact makes_report .className []
  · exact .ite beq_iff_eq (fun ht => (yields_classType r ht).makes) fun _ => makes_report .className (t :: r)

mutual

theorem finds_expr (ts : List Token) : Finds expr (Grammar.expr ts) := by
  rw [Grammar.expr]
  exact .deeper expr.eq_2 ((finds_binary ts 1).resume fun k _ => continues_assignment k _ _)
termination_by 16 * ts.length + 6
decreasing_by all_goals grind

theorem continues_assignment (k : Kind) (target : List Piece) (ts : List Token) :
    Continues assignment k target (Grammar.assignment k target ts) := by
  refine .deeper assignment.eq_2 (Looks.continues (looks_next ts) ?_)
  rcases ts with _ | ⟨t, r⟩
  · rw [Grammar.assignment]
    exact continues_done k target []
  rw [Grammar.assignment]
  refine .ite (fun _ _ => Iff.rfl) (fun _ => ?_) fun _ => continues_done k target (t :: r)
  have hvalue := ((finds_expr r).makes.lead true t).around (k := k) target
    .assignmentExpression (by decide)
  simp only [bind_assoc, pure_bind] at hvalue
  exact hvalue
termination_by 16 * ts.length
decreasing_by all_goals grind

theorem finds_binary (ts : List Token) (weakest : Nat) : Finds (binary weakest) (Grammar.binary ts weakest) := by
  rw [Grammar.binary]
  exact .deeper (binary.eq_2 weakest)
    ((finds_unary ts).resume fun k _ => continues_binaryTail k _ _ weakest)
termination_by 16 * ts.length + 5
decreasing_by all_goals grind

theorem continues_binaryTail (k : Kind) (left : List Piece) (ts : List Token) (weakest : Nat) :
    Continues (binaryTail weakest) k left (Grammar.binaryTail k left ts weakest) := by
  refine .deeper (binaryTail.eq_2 weakest) (Looks.continues (looks_next ts) ?_)
  rcases ts with _ | ⟨t, r⟩
  · rw [Grammar.binaryTail]
    exact continues_done k left []
  rw [Grammar.binaryTail, ahead]
  cases hstrength : precedence? t.kind with
  | none => exact continues_done k left (t :: r)
  | some strength =>
    by_cases hweak : strength < weakest
    · simp only [hweak, ↓reduceIte]
      exact continues_done k left (t :: r)
    · simp only [hweak, ↓reduceIte]
      have hmore := ((finds_binary r (strength + 1)).makes.lead true t).surround (k := k) left
        .infixExpression (by decide) (continues_binaryTail .infixExpression _ _ weakest)
      simp only [bind_assoc, pure_bind] at hmore
      exact hmore
termination_by 16 * ts.length
decreasing_by all_goals grind

theorem finds_unary (ts : List Token) : Finds unary (Grammar.unary ts) := by
  refine .deeper unary.eq_2 ((looks_isAt ts .bang).finds ((looks_isAt ts .minus).finds ?_))
  rcases ts with _ | ⟨t, r⟩
  · rw [Grammar.unary]
    exact finds_suffixed []
  rw [Grammar.unary]
  refine .ite (by simp [ahead]) (fun _ => ?_) fun _ => finds_suffixed (t :: r)
  have hoperand := (((finds_unary r).makes.lead true t).found .unaryExpression (by decide)).finds
  simp only [bind_assoc, pure_bind] at hoperand
  exact hoperand
termination_by 16 * ts.length + 4
decreasing_by all_goals grind

theorem finds_suffixed (ts : List Token) : Finds suffixed (Grammar.suffixed ts) := by
  rw [Grammar.suffixed]
  exact .deeper suffixed.eq_2 ((finds_primary ts).resume fun k _ => continues_suffixes k _ _)
termination_by 16 * ts.length + 3
decreasing_by all_goals grind

theorem continues_suffixes (k : Kind) (operand : List Piece) (ts : List Token) :
    Continues suffixes k operand (suffixedTail k operand ts) := by
  refine .deeper suffixes.eq_2 (Looks.continues (looks_next ts) (Looks.continues (looks_kindAt ts 1) ?_))
  rcases ts with _ | ⟨t, r⟩
  · rw [suffixedTail]
    exact continues_done k operand []
  rw [suffixedTail]
  by_cases hdot : t.kind = .dot
  · rw [if_pos hdot]
    rcases r with _ | ⟨m, s⟩
    · rw [selection]
      exact (continues_danglingPoint k operand t []).congr fun _ c _ => by simp [ahead, hdot]
    rw [selection]
    simp only [ahead_cons, List.drop_succ_cons, List.drop_zero, hdot, beq_self_eq_true, Bool.true_and,
      apply_ite (Operand.lift t)]
    refine .ite (fun c _ => beq_iff_eq) (fun _ => Looks.continues (looks_kindAt (t :: m :: s) 2) ?_) fun _ => ?_
    · refine .ite (fun c _ => beq_iff_eq) (fun hparen => ?_) fun _ => ?_
      · have hcall := (((makes_argumentList hparen).lead true m).lead false t).surround (k := k)
          operand .methodCall (by decide) (continues_suffixes .methodCall _ _)
        simp only [bind_assoc] at hcall
        exact hcall
      · have haccess := ((makes_bump true m s).lead false t).surround (k := k) operand
          .fieldAccess (by decide) (continues_suffixes .fieldAccess _ _)
        simp only [bind_assoc] at haccess
        exact haccess
    refine .ite (fun c hc => by simp [hc]) (fun _ => ?_) fun _ => ?_
    · have hliteral := ((makes_bump false m s).lead false t).surround (k := k) operand
        .classLiteral (by decide) (continues_suffixes .classLiteral _ _)
      simp only [bind_assoc] at hliteral
      exact hliteral
    refine .ite (fun c hc => by simp [hc]) (fun _ => ?_) fun _ => ?_
    · have hreceiver := ((makes_bump false m s).lead false t).surround (k := k) operand
        .thisExpression (by decide) (continues_suffixes .thisExpression _ _)
      simp only [bind_assoc] at hreceiver
      exact hreceiver
    exact continues_danglingPoint k operand t (m :: s)
  · simp only [ahead_cons, hdot, beq_eq_false_iff_ne.mpr hdot, Bool.false_and, Bool.false_eq_true, ↓reduceIte]
    refine .ite (fun c _ => beq_iff_eq) (fun hreference => ?_) fun _ => continues_done k operand (t :: r)
    exact (continues_methodReference k operand r hreference).resume rfl (continues_suffixes .methodReference _ _)
termination_by 16 * ts.length
decreasing_by all_goals grind

theorem finds_primary (ts : List Token) : Finds primary (Grammar.primary ts) := by
  refine .deeper primary.eq_2 ((looks_next ts).finds ?_)
  rcases ts with _ | ⟨t, r⟩
  · rw [Grammar.primary]
    exact (makes_report .expression []).missing
  rw [ahead, Grammar.primary]
  refine .ite Iff.rfl (fun _ => (yields_literal t r).finds) fun _ => ?_
  refine .ite beq_iff_eq (fun hident => (looks_kindAt (t :: r) 1).finds ?_) fun _ => ?_
  · refine .ite beq_iff_eq (fun hparen => (yields_call hparen).finds) fun _ => ?_
    refine (looks_atExplicitTypeQualifier (t :: r)).finds ?_
    exact .ite Iff.rfl (fun _ => finds_type false _) fun _ => (yields_ambiguousName r hident).finds
  refine .ite Iff.rfl (fun _ => finds_primitiveOperand (t :: r)) fun _ => ?_
  refine .ite beq_iff_eq (fun _ => (yields_receiver t r).finds) fun _ => ?_
  refine .ite beq_iff_eq (fun _ => (yields_parenthesized t r).finds) fun _ => ?_
  refine .ite beq_iff_eq (fun _ => (yields_construction t r).finds) fun _ => ?_
  exact .ite Iff.rfl (fun _ => (makes_report .expression (t :: r)).missing)
    fun _ => (makes_skip .expression t r).missing
termination_by 16 * ts.length + 2
decreasing_by all_goals grind

theorem yields_call {t : Token} {r : List Token} (hparen : ahead r = .leftParen) :
    Yields call (.found (((Grammar.argumentList r).lead true t).lift t) .methodCall) := by
  have hcall := ((makes_argumentList hparen).lead true t).found .methodCall (by decide)
  simp only [bind_assoc] at hcall
  exact .deeper call.eq_2 hcall
termination_by 16 * r.length + 1
decreasing_by all_goals grind

theorem yields_parenthesized (t : Token) (r : List Token) : Yields parenthesized
    (.found ((((Grammar.expr r).andThen (Step.expect .rightParen _)).lead false t).lift t)
      .parenthesizedExpression) := by
  have hinner := ((((finds_expr r).makes.andThen (makes_expect (k := .rightParen) (by decide) _)).lead false
    t).found .parenthesizedExpression (by decide))
  simp only [bind_assoc, pure_bind] at hinner
  exact .deeper parenthesized.eq_2 hinner
termination_by 16 * r.length + 7
decreasing_by all_goals grind

theorem yields_construction (t : Token) (r : List Token) : Yields construction
    (.found ((((Grammar.constructedClass r).andThen (Grammar.argumentList _)).lead false t).lift t)
      .constructorCall) := by
  have hmade := (((makes_constructedClass r).andThen (makes_constructorArguments _)).lead false t).found
    .constructorCall (by decide)
  simp only [bind_assoc] at hmade
  exact .deeper construction.eq_2 hmade
termination_by 16 * r.length + 2
decreasing_by all_goals grind

theorem makes_constructorArguments (ts : List Token) :
    Makes constructorArguments (Grammar.argumentList ts) := by
  refine .deeper constructorArguments.eq_2 ((looks_isAt ts .leftParen).makes ?_)
  by_cases hparen : ahead ts = .leftParen
  · rw [fun_if_pos (beq_iff_eq.mpr hparen)]
    exact makes_argumentList hparen
  · rw [fun_if_neg (mt beq_iff_eq.mp hparen)]
    rcases ts with _ | ⟨t, r⟩
    · exact Grammar.argumentList.eq_1 ▸ makes_report (.token .leftParen) []
    · rw [Grammar.argumentList, if_neg (show t.kind ≠ .leftParen from hparen)]
      exact makes_report (.token .leftParen) (t :: r)
termination_by 16 * ts.length + 1
decreasing_by all_goals grind

theorem makes_argumentList {r : List Token} (hparen : ahead r = .leftParen) :
    Makes argumentList (Grammar.argumentList r) := by
  obtain ⟨t, r, rfl, ht⟩ := exists_of_ahead hparen (by decide)
  rw [Grammar.argumentList, if_pos ht]
  have hlist (us : List Token) (hus : us.length ≤ r.length) : Listed .arguments us :=
    (finds_expr us).listed element.eq_2
  exact .deeper argumentList.eq_2 ((makes_delimited .arguments ht hlist).node .argumentList (by decide))
termination_by 16 * r.length
decreasing_by all_goals grind

end

end Recording

end JavaSyntax
