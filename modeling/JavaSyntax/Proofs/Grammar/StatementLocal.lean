import JavaSyntax.Proofs.Grammar.ExpressionLocal
import JavaSyntax.Proofs.Grammar.StatementReads

namespace JavaSyntax.Grammar

open Piece Step

variable {f : Token → Token} {z z' ts us r r' : List Token}

theorem initializer_of_isEnd (h : isEnd (ahead z) = true) : initializer z = idle z := by
  cases z with
  | nil => rfl
  | cons t r => rw [initializer, if_neg (kind_ne_of_isEnd h .eq rfl)]

theorem local_initializer (hz : Ends f z z') (h : Alongside f z z' ts us) :
    (initializer ts).Local f z z' (initializer us) := by
  cases h with
  | behind =>
    rw [initializer_of_isEnd hz.here, initializer_of_isEnd hz.there]
    exact (along_idle .behind).local
  | cons t h =>
    rw [initializer, initializer, hz.kind]
    split
    · exact ((local_expr hz h).toStep.lead false t).lift t
    · exact (along_idle (.cons t h)).local

theorem local_declarator (hz : Ends f z z') (h : Alongside f z z' ts us) :
    (declarator ts).Local f z z' (declarator us) :=
  ((local_variableId hz h).andThen fun along => local_initializer hz along.rest).node _

theorem moreDeclarators_of_isEnd (h : isEnd (ahead z) = true) : moreDeclarators z = idle z := by
  cases z with
  | nil => rw [moreDeclarators]
  | cons t r => rw [moreDeclarators, if_neg (kind_ne_of_isEnd h .comma rfl)]

mutual

theorem local_declarators (hz : Ends f z z') {ts us : List Token} (h : Alongside f z z' ts us) :
    (declarators ts).Local f z z' (declarators us) := by
  rw [declarators, declarators]
  exact (local_declarator hz h).andThen fun along => local_moreDeclarators hz along.rest
termination_by 2 * ts.length + 1
decreasing_by all_goals (clear * -; grind)

theorem local_moreDeclarators (hz : Ends f z z') {ts us : List Token} (h : Alongside f z z' ts us) :
    (moreDeclarators ts).Local f z z' (moreDeclarators us) := by
  cases h with
  | behind =>
    rw [moreDeclarators_of_isEnd hz.here, moreDeclarators_of_isEnd hz.there]
    exact (along_idle .behind).local
  | @cons t r r' h =>
    rw [moreDeclarators, moreDeclarators, hz.kind]
    split
    · exact ((local_declarators hz h).lead false t).lift t
    · exact (along_idle (.cons t h)).local
termination_by 2 * ts.length
decreasing_by all_goals (subst_vars; clear * -; grind)

end

theorem local_typed (hz : Ends f z z') (v : Bool) (h : Alongside f z z' ts us) :
    ((modifierList ts).andThen (type v (modifierList ts).rest).toStep).Local f z z'
      ((modifierList us).andThen (type v (modifierList us).rest).toStep) :=
  (local_modifierList hz h).andThen fun along => (local_type hz v along.rest).toStep

theorem local_condition (hz : Ends f z z') (h : Alongside f z z' ts us) :
    (condition ts).Local f z z' (condition us) := by
  have tested := (local_expect hz .leftParen h).andThen fun along => (local_expr hz along.rest).toStep
  exact tested.andThen fun along => local_expect hz _ along.rest

theorem local_foreachHead (hz : Ends f z z') (h : Alongside f z z' ts us) :
    (foreachHead ts).Local f z z' (foreachHead us) := by
  have element := (local_expect hz .leftParen h).andThen fun along => by
    have named := (local_typed hz false along.rest).andThen fun along =>
      (local_variableId hz along.rest).node .variableDeclarator
    exact named.node .localVariableDeclaration
  have divided := element.andThen fun along => local_expect hz .colon along.rest
  have iterated := divided.andThen fun along => (local_expr hz along.rest).toStep
  exact iterated.andThen fun along => local_expect hz _ along.rest

theorem local_catchHead (hz : Ends f z z') (h : Alongside f z z' ts us) :
    (catchHead ts).Local f z z' (catchHead us) := by
  have parameter := (local_expect hz .leftParen h).andThen fun along => by
    have named := (local_typed hz false along.rest).andThen fun along =>
      local_variableId hz along.rest
    exact named.node .catchParameter
  exact parameter.andThen fun along => local_expect hz _ along.rest

/-- The lookahead for a declaration does not depend on what stands behind the first token. -/
theorem atLocalVariable_along (hz : Ends f z z') (t : Token) (h : Alongside f z z' r r') :
    atLocalVariable (f t :: r') = atLocalVariable (t :: r) := by
  have skipped := along_skipType hz (.cons t h)
  rw [atLocalVariable, atLocalVariable, ahead_cons, ahead_cons, hz.kind]
  generalize skipType (t :: r) = a at skipped ⊢
  generalize skipType (f t :: r') = a' at skipped ⊢
  cases skipped with
  | none => rfl
  | some skipped =>
    congr 1
    rw [Option.any_some, Option.any_some, Bool.eq_iff_iff, beq_iff_eq, beq_iff_eq,
      skipped.rest.ahead_eq hz .ident rfl]

theorem local_localVariable (hz : Ends f z z') (h : Alongside f z z' ts us) :
    (localVariable ts).Local f z z' (localVariable us) := by
  have declared := (local_typed hz false h).andThen fun along => local_declarators hz along.rest
  exact (declared.andThen fun along => local_expect hz _ along.rest).node _

theorem local_expressionStatement (hz : Ends f z z') (h : Alongside f z z' ts us) :
    (expressionStatement ts).Local f z z' (expressionStatement us) := by
  have value := (local_expr hz h).toStep
  exact (value.andThen fun along => local_expect hz _ along.rest).node _

theorem fails_returned (h : isEnd (ahead z) = true) : (returned z).Fails := by
  have hvalue := (fails_expr h).andThen (expect .semicolon _)
  cases z with
  | nil => exact hvalue
  | cons t r =>
    rw [returned]
    split
    · exact fails_lift t _
    · exact hvalue

theorem local_returned (hz : Ends f z z') (h : Alongside f z z' ts us) :
    (returned ts).Local f z z' (returned us) := by
  have value := (local_expr hz h).toStep.andThen fun along => local_expect hz .semicolon along.rest
  cases h with
  | behind => exact local_of_fails (fails_returned hz.here) (reads_returned [])
  | cons t h =>
    rw [returned, returned, hz.kind]
    split
    · exact (along_bump false t h).local
    · exact value

theorem fails_block (h : isEnd (ahead z) = true) : (block z).Fails := by
  cases z with
  | nil =>
    rw [block]
    exact fails_report _ _
  | cons t r =>
    rw [block, if_neg (kind_ne_of_isEnd h .leftBrace rfl)]
    exact fails_report _ _

theorem upToBrace_blockTail : UpToBrace blockTail statement where
  nil := by rw [blockTail]
  cons _ _ := by rw [blockTail]

theorem fails_body : ∀ z : List Token, (body z).Fails
  | [] => by
    rw [body]
    exact fails_report _ _
  | t :: r => by
    rw [body]
    split
    · exact fails_report _ _
    · exact fails_lift t _

theorem elseBranch_of_isEnd (h : isEnd (ahead z) = true) : elseBranch z = idle z := by
  cases z with
  | nil => rw [elseBranch]
  | cons t r => rw [elseBranch, if_neg (kind_ne_of_isEnd h .elseKw rfl)]

theorem fails_catches : ∀ z : List Token, (catches z).Fails
  | [] => by
    rw [catches]
    exact fails_report _ _
  | t :: r => by
    rw [catches]
    split
    · exact fails_lift t _
    · exact fails_report _ _

theorem moreCatches_of_isEnd (h : isEnd (ahead z) = true) : moreCatches z = idle z := by
  cases z with
  | nil => rw [moreCatches]
  | cons t r => rw [moreCatches, if_neg (kind_ne_of_isEnd h .catchKw rfl)]

mutual

theorem local_block (hz : Ends f z z') {ts us : List Token} (h : Alongside f z z' ts us) :
    (block ts).Local f z z' (block us) := by
  cases h with
  | behind => exact local_of_fails (fails_block hz.here) (reads_block [])
  | @cons t r r' h =>
    rw [block, block, hz.kind]
    split
    · exact (local_blockFrom hz t h).lift t
    · exact local_report _ (.cons t h)
termination_by 8 * ts.length + 1
decreasing_by all_goals (subst_vars; clear * -; grind)

theorem local_blockFrom (hz : Ends f z z') (t : Token) {r r' : List Token} (h : Alongside f z z' r r') :
    (blockFrom t r).Local f z z' (blockFrom (f t) r') := by
  rw [blockFrom, blockFrom]
  exact ((local_blockTail hz h).lead false t).node _
termination_by 8 * r.length + 1
decreasing_by all_goals (clear * -; grind)

theorem local_blockTail (hz : Ends f z z') {ts us : List Token} (h : Alongside f z z' ts us) :
    (blockTail ts).Local f z z' (blockTail us) := by
  cases h with
  | behind => exact local_of_fails (upToBrace_blockTail.fails z) (shuts_blockTail []).toReads
  | @cons t r r' h =>
    rw [blockTail, blockTail, hz.kind]
    split
    · exact local_expect hz _ (.cons t h)
    · have first := local_statement hz t h
      exact (first.andThen fun along => local_blockTail hz along.rest).lift t
termination_by 8 * ts.length
decreasing_by all_goals (subst_vars; clear * -; grind)

theorem local_statement (hz : Ends f z z') (t : Token) {r r' : List Token} (h : Alongside f z z' r r') :
    (statement t r).Local f z z' (statement (f t) r') := by
  have compound {k : Kind} {s : Step r} {s' : Step r'} (hs : s.Local f z z' s') :
      ((s.lead false t).node k).Local f z z' ((s'.lead false (f t)).node k) := (hs.lead false t).node k
  rw [statement, statement]
  simp only [hz.kind, atLocalVariable_along hz t h]
  split
  · exact local_blockFrom hz t h
  · split
    · exact ((along_idle h).lead false t).local
    · split
      · exact compound (local_returned hz h)
      · split
        · have chosen := (local_condition hz h).andThen fun along => local_body hz along.rest
          exact compound (chosen.andThen fun along => local_elseBranch hz along.rest)
        · split
          · exact compound ((local_condition hz h).andThen fun along => local_body hz along.rest)
          · split
            · exact compound ((local_foreachHead hz h).andThen fun along => local_body hz along.rest)
            · split
              · exact compound ((local_block hz h).andThen fun along => local_catches hz along.rest)
              · split
                · exact (local_localVariable hz (.cons t h)).within _ _
                · split
                  · exact (local_expressionStatement hz (.cons t h)).within _ _
                  · exact local_skip _ t h
termination_by 8 * r.length + 4
decreasing_by all_goals (clear * -; grind)

theorem local_body (hz : Ends f z z') {ts us : List Token} (h : Alongside f z z' ts us) :
    (body ts).Local f z z' (body us) := by
  cases h with
  | behind => exact local_of_fails (fails_body z) (reads_body [])
  | @cons t r r' h =>
    rw [body, body, hz.kind]
    split
    · exact local_report _ (.cons t h)
    · exact (local_statement hz t h).lift t
termination_by 8 * ts.length
decreasing_by all_goals (subst_vars; clear * -; grind)

theorem local_elseBranch (hz : Ends f z z') {ts us : List Token} (h : Alongside f z z' ts us) :
    (elseBranch ts).Local f z z' (elseBranch us) := by
  cases h with
  | behind =>
    rw [elseBranch_of_isEnd hz.here, elseBranch_of_isEnd hz.there]
    exact (along_idle .behind).local
  | @cons t r r' h =>
    rw [elseBranch, elseBranch, hz.kind]
    split
    · exact ((local_body hz h).lead false t).lift t
    · exact (along_idle (.cons t h)).local
termination_by 8 * ts.length
decreasing_by all_goals (subst_vars; clear * -; grind)

theorem local_catches (hz : Ends f z z') {ts us : List Token} (h : Alongside f z z' ts us) :
    (catches ts).Local f z z' (catches us) := by
  cases h with
  | behind => exact local_of_fails (fails_catches z) (reads_catches [])
  | @cons t r r' h =>
    rw [catches, catches, hz.kind]
    split
    · exact (local_catchesFrom hz t h).lift t
    · exact local_report _ (.cons t h)
termination_by 8 * ts.length + 1
decreasing_by all_goals (subst_vars; clear * -; grind)

theorem local_catchesFrom (hz : Ends f z z') (t : Token) {r r' : List Token}
    (h : Alongside f z z' r r') : (catchesFrom t r).Local f z z' (catchesFrom (f t) r') := by
  have caught := (local_catchHead hz h).andThen fun along => local_block hz along.rest
  have clause := (caught.lead false t).node .catchClause
  rw [catchesFrom, catchesFrom]
  exact clause.andThen fun along => local_moreCatches hz along.rest
termination_by 8 * r.length + 3
decreasing_by all_goals (clear * -; grind)

theorem local_moreCatches (hz : Ends f z z') {ts us : List Token} (h : Alongside f z z' ts us) :
    (moreCatches ts).Local f z z' (moreCatches us) := by
  cases h with
  | behind =>
    rw [moreCatches_of_isEnd hz.here, moreCatches_of_isEnd hz.there]
    exact (along_idle .behind).local
  | @cons t r r' h =>
    rw [moreCatches, moreCatches, hz.kind]
    split
    · exact (local_catchesFrom hz t h).lift t
    · exact (along_idle (.cons t h)).local
termination_by 8 * ts.length
decreasing_by all_goals (subst_vars; clear * -; grind)

end

end JavaSyntax.Grammar
