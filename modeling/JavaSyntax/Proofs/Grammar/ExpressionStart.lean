import JavaSyntax.Proofs.Grammar.ExpressionForms

namespace JavaSyntax.Grammar

open Step

variable {ts r : List Token}

theorem problems_of_goOn {a : Operand ts} {f : Kind → List Piece → (ms : List Token) → Operand ms}
    (h : (match a.lead with
      | none => a
      | some k => a.resume (f k a.parts a.rest)).problems = []) : a.problems = [] := by
  split at h
  · exact h
  · exact (List.append_eq_nil_iff.mp h).1

theorem starts_primary (h : (primary ts).problems = []) :
    expressionFirst.contains (ahead ts) = true := by
  rw [contains_expressionFirst]
  cases ts with
  | nil =>
    rw [primary] at h
    cases h
  | cons t r =>
    change (literalTokens.contains t.kind || primitiveKeywords.contains t.kind ||
      [Kind.ident, .thisKw, .newKw, .leftParen, .bang, .minus].contains t.kind) = true
    rw [primary] at h
    split at h
    · next hliteral => simp [hliteral]
    · split at h
      · next hident => simp [hident]
      · split at h
        · next hprimitive => simp [hprimitive]
        · split at h
          · next hthis => simp [hthis]
          · split at h
            · next hparen => simp [hparen]
            · split at h
              · next hnew => simp [hnew]
              · split at h
                · cases h
                · cases h

theorem problems_unary (h : (expr ts).problems = []) : (unary ts).problems = [] := by
  rw [expr] at h
  have hbinary := problems_of_goOn h
  rw [binary] at hbinary
  exact problems_of_goOn (f := fun k left us => binaryTail k left us 1) hbinary

theorem problems_primary {t : Token} (h : (expr (t :: r)).problems = [])
    (ht : ¬ (t.kind = .bang ∨ t.kind = .minus)) : (primary (t :: r)).problems = [] := by
  have hunary := problems_unary h
  rw [unary, if_neg ht, suffixed] at hunary
  exact problems_of_goOn hunary

/-- An expression without errors starts with one of the tokens that start expressions. -/
theorem starts_expr (h : (expr ts).problems = []) : expressionFirst.contains (ahead ts) = true := by
  cases ts with
  | nil =>
    have hunary := problems_unary h
    rw [unary, suffixed] at hunary
    exact starts_primary (problems_of_goOn hunary)
  | cons t r =>
    by_cases ht : t.kind = .bang ∨ t.kind = .minus
    · change expressionFirst.contains t.kind = true
      rcases ht with ht | ht <;> rw [ht] <;> decide
    · exact starts_primary (problems_primary h ht)

/-- An expression without errors is one node. -/
theorem exists_node_expr (h : (expr ts).problems = []) : ∃ k ps, (expr ts).parts = [.node k ps] := by
  obtain ⟨_, _, hstanding⟩ := Operand.FormsExpr.found (formsExpr_expr ts) h
  obtain ⟨v, hparts, hnode, -⟩ := hstanding.strong rfl
  cases v with
  | token t i => cases hnode
  | node k ps => exact ⟨k, ps, hparts⟩

end JavaSyntax.Grammar
