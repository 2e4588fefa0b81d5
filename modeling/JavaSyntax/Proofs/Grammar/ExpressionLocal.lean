import JavaSyntax.Proofs.Grammar.ExpressionReads
import JavaSyntax.Proofs.Grammar.TypeLocal

namespace JavaSyntax.Grammar

open Piece Step

variable {f : Token → Token} {z z' ts us r r' : List Token}

theorem nameSegments_of_isEnd (h : isEnd (ahead z) = true) : nameSegments z = idle z := by
  rcases z with _ | ⟨d, _ | ⟨n, r⟩⟩
  · rfl
  · rfl
  · rw [nameSegments, if_neg (not_and_of_not_left _ (kind_ne_of_isEnd h .dot rfl))]

theorem nameSegments_single (d : Token) (h : isEnd (ahead z) = true) :
    nameSegments (d :: z) = idle (d :: z) := by
  cases z with
  | nil => rfl
  | cons n r =>
    have hname := not_and_of_not_left (ahead r ≠ .leftParen) (kind_ne_of_isEnd h .ident rfl)
    rw [nameSegments, if_neg (not_and_of_not_right _ hname)]

theorem along_nameSegments (hz : Ends f z z') {ts us : List Token} (h : Alongside f z z' ts us) :
    (nameSegments ts).Along f z z' (nameSegments us) := by
  rcases h with _ | ⟨d, h⟩
  · rw [nameSegments_of_isEnd hz.here, nameSegments_of_isEnd hz.there]
    exact along_idle .behind
  rcases h with _ | ⟨n, h⟩
  · rw [nameSegments_single d hz.here, nameSegments_single (f d) hz.there]
    exact along_idle (.cons d .behind)
  · rw [nameSegments, nameSegments]
    simp only [ne_eq, hz.kind, h.ahead_eq hz .leftParen rfl]
    split
    · exact ((((along_nameSegments hz h).lead true n).lead true d).lift n).lift d
    · exact along_idle (.cons d (.cons n h))
termination_by ts.length
decreasing_by grind

theorem local_ambiguousName (hz : Ends f z z') (t : Token) (h : Alongside f z z' r r') :
    (ambiguousName t r).Local f z z' (ambiguousName (f t) r') :=
  (Operand.along_found ((along_nameSegments hz h).lead true t) _).local

theorem fails_referenceName (h : isEnd (ahead z) = true) : (referenceName z).Fails := by
  cases z with
  | nil => exact fails_report _ _
  | cons t r =>
    rw [referenceName,
      if_neg (not_or.mpr ⟨kind_ne_of_isEnd h .ident rfl, kind_ne_of_isEnd h .newKw rfl⟩)]
    exact fails_report _ _

theorem local_referenceName (hz : Ends f z z') (h : Alongside f z z' ts us) :
    (referenceName ts).Local f z z' (referenceName us) := by
  cases h with
  | behind => exact local_of_fails (fails_referenceName hz.here) (reads_referenceName [])
  | cons t h =>
    rw [referenceName, referenceName, hz.kind]
    split
    · exact (along_bump true t h).local
    · exact local_report _ (.cons t h)

theorem local_danglingPoint (hz : Ends f z z') (k : Kind) (operand : List Piece) (d : Token)
    (h : Alongside f z z' r r') :
    (danglingPoint k operand d r).Local f z z' (danglingPoint k (movedAll f operand) (f d) r') := by
  have tail {s : Step r} {s' : Step r'} (hs : s.Along f z z' s') :
      Operand.Along f z z'
        { s with
          parts := operand ++ [.node .error (.token d false :: s.parts)]
          problems := [⟨.memberName, some d⟩]
          lead := some k }
        { s' with
          parts := movedAll f operand ++ [.node .error (.token (f d) false :: s'.parts)]
          problems := [⟨.memberName, some (f d)⟩]
          lead := some k } := by
    refine ⟨⟨?_, rfl, hs.rest⟩, rfl⟩
    rw [movedAll_append, hs.parts]
    rfl
  intro hs
  obtain ⟨rfl, rfl⟩ := hs.ended (List.cons_ne_nil _ _)
  cases h with
  | behind => exact tail (along_idle .behind)
  | cons t h =>
    rw [danglingPoint, danglingPoint]
    refine tail ?_
    rw [hz.kind]
    split
    · exact along_bump false t h
    · exact along_idle (.cons t h)

theorem fails_constructedClass (h : isEnd (ahead z) = true) : (constructedClass z).Fails := by
  cases z with
  | nil => exact fails_report _ _
  | cons t r =>
    rw [constructedClass, if_neg (kind_ne_of_isEnd h .ident rfl)]
    exact fails_report _ _

theorem local_constructedClass (hz : Ends f z z') (h : Alongside f z z' ts us) :
    (constructedClass ts).Local f z z' (constructedClass us) := by
  cases h with
  | behind => exact local_of_fails (fails_constructedClass hz.here) (reads_constructedClass [])
  | cons t h =>
    rw [constructedClass, constructedClass, hz.kind]
    split
    · exact (local_classType hz t h).toStep.lift t
    · exact local_report _ (.cons t h)

theorem local_primitiveOperand (hz : Ends f z z') (h : Alongside f z z' ts us) :
    (primitiveOperand ts).Local f z z' (primitiveOperand us) := by
  intro hs
  have htype : (type false ts).toStep.Spares z z' := by
    refine hs.imp_right fun ⟨hs, hle⟩ => ?_
    rw [rest_primitiveOperand] at hle
    rw [primitiveOperand] at hs
    split at hs
    · exact ⟨hs, hle⟩
    · exact ⟨(List.append_eq_nil_iff.mp hs).1, hle⟩
  have along := local_type hz false h htype
  rw [primitiveOperand] at hs
  simp only [primitiveOperand, along.rest.ahead_eq hz .colonColon rfl,
    along.rest.ahead_two hz .dot .classKw rfl rfl]
  split at hs
  · next hsuffix =>
    rw [if_pos hsuffix, if_pos hsuffix]
    exact along
  · next hsuffix =>
    obtain ⟨rfl, rfl⟩ := hs.ended fun hn => List.cons_ne_nil _ _ (List.append_eq_nil_iff.mp hn).2
    rw [if_neg hsuffix, if_neg hsuffix]
    refine ⟨⟨along.parts, ?_, along.rest⟩, along.lead⟩
    dsimp only
    rw [List.map_append, along.problems, along.rest.eq_map, List.head?_map]
    rfl

/-- Where an operand is missing, an expression fails. -/
theorem fails_primary (h : isEnd (ahead z) = true) : (primary z).toStep.Fails := by
  cases z with
  | nil =>
    rw [primary]
    exact fails_report _ _
  | cons t r =>
    have hliteral : literalTokens.contains t.kind = false := eq_false_of_isEnd h rfl
    have hprimitive : primitiveKeywords.contains t.kind = false := eq_false_of_isEnd h rfl
    rw [primary, hliteral, hprimitive, if_neg Bool.false_ne_true, if_neg (kind_ne_of_isEnd h .ident rfl),
      if_neg Bool.false_ne_true, if_neg (kind_ne_of_isEnd h .thisKw rfl),
      if_neg (kind_ne_of_isEnd h .leftParen rfl), if_neg (kind_ne_of_isEnd h .newKw rfl)]
    split
    · exact fails_report _ _
    · exact fails_lift _ _

theorem fails_goOn {a : Operand ts} (h : a.toStep.Fails)
    {f : Kind → List Piece → (ms : List Token) → Operand ms} :
    (match a.lead with
      | none => a
      | some k => a.resume (f k a.parts a.rest)).toStep.Fails := by
  split
  · exact h
  · next k _ =>
    intro hs
    exact Nat.lt_of_le_of_lt (f k a.parts a.rest).length_rest_le (h (List.append_eq_nil_iff.mp hs).1)

theorem fails_unary (h : isEnd (ahead z) = true) : (unary z).toStep.Fails := by
  have hsuffixed : (suffixed z).toStep.Fails := by
    rw [suffixed]
    exact fails_goOn (fails_primary h)
  cases z with
  | nil =>
    rw [unary]
    exact hsuffixed
  | cons t r =>
    rw [unary, if_neg (not_or.mpr ⟨kind_ne_of_isEnd h .bang rfl, kind_ne_of_isEnd h .minus rfl⟩)]
    exact hsuffixed

theorem fails_expr (h : isEnd (ahead z) = true) : (expr z).toStep.Fails := by
  have hbinary : (binary z 1).toStep.Fails := by
    rw [binary]
    exact fails_goOn (f := fun k parts rest => binaryTail k parts rest 1) (fails_unary h)
  rw [expr]
  exact fails_goOn hbinary

theorem assignment_of_isEnd (k : Kind) (target : List Piece) (h : isEnd (ahead z) = true) :
    assignment k target z = .done k target z := by
  cases z with
  | nil => rw [assignment]
  | cons t r =>
    have hassign : isAssignment t.kind = false := eq_false_of_isEnd h rfl
    rw [assignment, hassign, if_neg Bool.false_ne_true]

theorem precedence?_of_isEnd {k : Kind} (h : isEnd k = true) : precedence? k = none := by
  rcases isEnd_cases h with rfl | rfl | rfl <;> rfl

theorem binaryTail_of_isEnd (k : Kind) (left : List Piece) (weakest : Nat)
    (h : isEnd (ahead z) = true) : binaryTail k left z weakest = .done k left z := by
  cases z with
  | nil => rw [binaryTail]
  | cons t r =>
    have hoperator : precedence? t.kind = none := precedence?_of_isEnd h
    rw [binaryTail, hoperator]

theorem suffixedTail_of_isEnd (k : Kind) (operand : List Piece) (h : isEnd (ahead z) = true) :
    suffixedTail k operand z = .done k operand z := by
  cases z with
  | nil => rw [suffixedTail]
  | cons t r =>
    rw [suffixedTail, if_neg (kind_ne_of_isEnd h .dot rfl), if_neg (kind_ne_of_isEnd h .colonColon rfl)]

/-- A point in front of what stands behind is followed by no member name. -/
theorem selection_of_isEnd (k : Kind) (operand : List Piece) (d : Token)
    (h : isEnd (ahead z) = true) : selection k operand d z = danglingPoint k operand d z := by
  cases z with
  | nil => rw [selection]
  | cons n s =>
    rw [selection, if_neg (kind_ne_of_isEnd h .ident rfl),
      if_neg (not_and_of_not_left _ (kind_ne_of_isEnd h .classKw rfl)),
      if_neg (not_and_of_not_left _ (kind_ne_of_isEnd h .thisKw rfl))]

theorem fails_argumentList (h : isEnd (ahead z) = true) : (argumentList z).Fails := by
  cases z with
  | nil =>
    rw [argumentList]
    exact fails_report _ _
  | cons t r =>
    rw [argumentList, if_neg (kind_ne_of_isEnd h .leftParen rfl)]
    exact fails_report _ _

theorem fails_argumentsTail (h : isEnd (ahead z) = true) : (argumentsTail z).Fails := by
  cases z with
  | nil =>
    rw [argumentsTail]
    exact fails_expect _ _
  | cons t r =>
    rw [argumentsTail, if_neg (kind_ne_of_isEnd h .rightParen rfl)]
    dsimp only
    split
    · exact (fails_expr h).andThen _
    · exact (fails_expr h).andThen _

theorem fails_argumentsMore (h : isEnd (ahead z) = true) : (argumentsMore z).Fails := by
  cases z with
  | nil =>
    rw [argumentsMore]
    exact fails_expect _ _
  | cons t r =>
    rw [argumentsMore, if_neg (kind_ne_of_isEnd h .comma rfl)]
    exact fails_expect _ _

mutual

theorem local_expr (hz : Ends f z z') {ts us : List Token} (h : Alongside f z z' ts us) :
    (expr ts).Local f z z' (expr us) := by
  rw [expr, expr]
  exact (local_binary hz 1 h).goOn fun k target along => local_assignment hz k target along
termination_by 16 * ts.length + 6
decreasing_by all_goals (clear * -; grind)

theorem local_assignment (hz : Ends f z z') (k : Kind) (target : List Piece) {ts us : List Token}
    (h : Alongside f z z' ts us) : (assignment k target ts).Local f z z' (assignment k (movedAll f target) us) := by
  cases h with
  | behind =>
    rw [assignment_of_isEnd k target hz.here, assignment_of_isEnd k _ hz.there]
    exact Operand.local_done k target .behind
  | @cons t r r' h =>
    rw [assignment, assignment, hz.kind]
    split
    · exact Operand.local_around target (((local_expr hz h).toStep.lead true t).lift t) _
    · exact Operand.local_done k target (.cons t h)
termination_by 16 * ts.length
decreasing_by all_goals (subst_vars; clear * -; grind)

theorem local_binary (hz : Ends f z z') (weakest : Nat) {ts us : List Token}
    (h : Alongside f z z' ts us) : (binary ts weakest).Local f z z' (binary us weakest) := by
  rw [binary, binary]
  exact (local_unary hz h).goOn (g := fun k left rest => binaryTail k left rest weakest)
    fun k left along => local_binaryTail hz k weakest left along
termination_by 16 * ts.length + 5
decreasing_by all_goals (clear * -; grind)

theorem local_binaryTail (hz : Ends f z z') (k : Kind) (weakest : Nat) (left : List Piece)
    {ts us : List Token} (h : Alongside f z z' ts us) :
    (binaryTail k left ts weakest).Local f z z' (binaryTail k (movedAll f left) us weakest) := by
  cases h with
  | behind =>
    rw [binaryTail_of_isEnd k left weakest hz.here, binaryTail_of_isEnd k _ weakest hz.there]
    exact Operand.local_done k left .behind
  | @cons t r r' h =>
    rw [binaryTail, binaryTail, hz.kind]
    split
    · exact Operand.local_done k left (.cons t h)
    · next strength _ =>
      split
      · exact Operand.local_done k left (.cons t h)
      · have right := local_binary hz (strength + 1) h
        have infixed := Operand.local_around left (right.toStep.lead true t) .infixExpression
        refine (infixed.resume fun along => ?_).lift t
        rw [along.parts]
        exact local_binaryTail hz .infixExpression weakest _ along.rest
termination_by 16 * ts.length
decreasing_by all_goals (subst_vars; clear * -; grind)

theorem local_unary (hz : Ends f z z') {ts us : List Token} (h : Alongside f z z' ts us) :
    (unary ts).Local f z z' (unary us) := by
  cases h with
  | behind => exact Operand.local_of_fails (fails_unary hz.here) (reads_unary [])
  | @cons t r r' h =>
    rw [unary, unary, hz.kind]
    split
    · exact Operand.local_found (((local_unary hz h).toStep.lead true t).lift t) _
    · exact local_suffixed hz (.cons t h)
termination_by 16 * ts.length + 4
decreasing_by all_goals (subst_vars; clear * -; grind)

theorem local_suffixed (hz : Ends f z z') {ts us : List Token} (h : Alongside f z z' ts us) :
    (suffixed ts).Local f z z' (suffixed us) := by
  rw [suffixed, suffixed]
  exact (local_primary hz h).goOn fun k operand along => local_suffixedTail hz k operand along
termination_by 16 * ts.length + 3
decreasing_by all_goals (clear * -; grind)

theorem local_suffixedTail (hz : Ends f z z') (k : Kind) (operand : List Piece) {ts us : List Token}
    (h : Alongside f z z' ts us) :
    (suffixedTail k operand ts).Local f z z' (suffixedTail k (movedAll f operand) us) := by
  cases h with
  | behind =>
    rw [suffixedTail_of_isEnd k operand hz.here, suffixedTail_of_isEnd k _ hz.there]
    exact Operand.local_done k operand .behind
  | @cons t r r' h =>
    rw [suffixedTail, suffixedTail, hz.kind]
    split
    · exact (local_selection hz k operand t h).lift t
    · split
      · have arguments := local_typeArguments? hz h
        have named := arguments.andThen fun along => local_referenceName hz along.rest
        have reference := Operand.local_around operand (named.lead false t) .methodReference
        refine (reference.resume fun along => ?_).lift t
        rw [along.parts]
        exact local_suffixedTail hz .methodReference _ along.rest
      · exact Operand.local_done k operand (.cons t h)
termination_by 16 * ts.length
decreasing_by all_goals (subst_vars; clear * -; grind)

theorem local_selection (hz : Ends f z z') (k : Kind) (operand : List Piece) (d : Token)
    {r r' : List Token} (h : Alongside f z z' r r') :
    (selection k operand d r).Local f z z' (selection k (movedAll f operand) (f d) r') := by
  cases h with
  | behind =>
    rw [selection_of_isEnd k operand d hz.here, selection_of_isEnd k _ (f d) hz.there]
    exact local_danglingPoint hz k operand d .behind
  | @cons n s s' h =>
    have selected {k' : Kind} {i : Bool} {t : Step s} {t' : Step s'} (ht : t.Local f z z' t') :
        (Operand.around operand ((t.lead i n).lead false d) k').Local f z z'
          (Operand.around (movedAll f operand) ((t'.lead i (f n)).lead false (f d)) k') :=
      Operand.local_around operand ((ht.lead i n).lead false d) k'
    have follow {k' : Kind} {a : Operand s} {a' : Operand s'} (ha : a.Local f z z' a') :
        ((a.resume (suffixedTail k' a.parts a.rest)).lift n).Local f z z'
          ((a'.resume (suffixedTail k' a'.parts a'.rest)).lift (f n)) := by
      refine (ha.resume fun along => ?_).lift n
      rw [along.parts]
      exact local_suffixedTail hz k' _ along.rest
    have idle : (idle s).Local f z z' (idle s') := (along_idle h).local
    rw [selection, selection]
    simp only [hz.kind, h.ahead_eq hz .leftParen rfl]
    split
    · split
      · exact follow (selected (local_argumentList hz h))
      · exact follow (selected idle)
    · split
      · exact follow (selected idle)
      · split
        · exact follow (selected idle)
        · exact local_danglingPoint hz k operand d (.cons n h)
termination_by 16 * r.length + 8
decreasing_by all_goals (subst_vars; clear * -; grind)

theorem local_primary (hz : Ends f z z') {ts us : List Token} (h : Alongside f z z' ts us) :
    (primary ts).Local f z z' (primary us) := by
  cases h with
  | behind => exact Operand.local_of_fails (fails_primary hz.here) (reads_primary [])
  | @cons t r r' h =>
    rw [primary, primary]
    simp only [hz.kind, h.ahead_eq hz .leftParen rfl, atExplicitTypeQualifier_along hz (.cons t h)]
    split
    · exact (Operand.along_found (along_bump true t h) _).local
    · split
      · split
        · exact Operand.local_found (((local_argumentList hz h).lead true t).lift t) _
        · split
          · exact local_type hz false (.cons t h)
          · exact (local_ambiguousName hz t h).lift t
      · split
        · exact local_primitiveOperand hz (.cons t h)
        · split
          · exact (Operand.along_found (along_bump false t h) _).local
          · split
            · have inner := (local_expr hz h).toStep
              have closed := inner.andThen fun along => local_expect hz .rightParen along.rest
              exact Operand.local_found ((closed.lead false t).lift t) _
            · split
              · have named := local_constructedClass hz h
                have made := named.andThen fun along => local_argumentList hz along.rest
                exact Operand.local_found ((made.lead false t).lift t) _
              · split
                · exact Operand.local_missing (local_report _ (.cons t h))
                · exact Operand.local_missing ((local_skip _ t h).lift t)
termination_by 16 * ts.length + 2
decreasing_by all_goals (subst_vars; clear * -; grind)

theorem local_argumentList (hz : Ends f z z') {ts us : List Token} (h : Alongside f z z' ts us) :
    (argumentList ts).Local f z z' (argumentList us) := by
  cases h with
  | behind => exact local_of_fails (fails_argumentList hz.here) (reads_argumentList [])
  | @cons t r r' h =>
    rw [argumentList, argumentList, hz.kind]
    split
    · exact (((local_argumentsTail hz h).lead false t).node _).lift t
    · exact local_report _ (.cons t h)
termination_by 16 * ts.length
decreasing_by all_goals (subst_vars; clear * -; grind)

theorem local_argumentsTail (hz : Ends f z z') {ts us : List Token} (h : Alongside f z z' ts us) :
    (argumentsTail ts).Local f z z' (argumentsTail us) := by
  cases h with
  | behind => exact local_of_fails (fails_argumentsTail hz.here) (reads_argumentsTail [])
  | @cons t r r' h =>
    rw [argumentsTail, argumentsTail, hz.kind]
    split
    · exact local_expect hz _ (.cons t h)
    · exact (local_expr hz (.cons t h)).andEither (fun along => local_expect hz _ along)
        fun along => local_argumentsMore hz along
termination_by 16 * ts.length + 8
decreasing_by all_goals (subst_vars; clear * -; grind)

theorem local_argumentsMore (hz : Ends f z z') {ts us : List Token} (h : Alongside f z z' ts us) :
    (argumentsMore ts).Local f z z' (argumentsMore us) := by
  cases h with
  | behind => exact local_of_fails (fails_argumentsMore hz.here) (reads_argumentsMore [])
  | @cons t r r' h =>
    rw [argumentsMore, argumentsMore, hz.kind]
    split
    · exact ((local_argumentsTail hz h).lead false t).lift t
    · exact local_expect hz _ (.cons t h)
termination_by 16 * ts.length + 7
decreasing_by all_goals (subst_vars; clear * -; grind)

end

end JavaSyntax.Grammar
