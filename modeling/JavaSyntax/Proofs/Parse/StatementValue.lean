import JavaSyntax.Proofs.Grammar.StatementLookahead
import JavaSyntax.Proofs.Parse.Enclosed

namespace JavaSyntax

open Piece Grammar

variable {text : String} {k : Kind} {ps : List Piece} {x : Branch}

/-- What may stand as a statement: a call, a construction, or an assignment to a name or a field. -/
def Branch.IsStatementExpression (x : Branch) : Prop :=
  x.kind = .methodCall ∨ x.kind = .constructorCall ∨
    x.kind = .assignmentExpression ∧
      ∃ c cs, x.children = c :: cs ∧ (c.kind = .ambiguousName ∨ c.kind = .fieldAccess)

/-- A comparison is no statement, and neither is an assignment to one. -/
theorem not_compares (hx : ∀ gap, ((Piece.node k ps).branch gap).map Branch.disambiguated = [x])
    (h : x.IsStatementExpression) : ¬ Compares [.node k ps] := by
  have hx := hx 0
  rintro ⟨qs, hcompares | ⟨rs, hcompares⟩⟩
  · cases hcompares
    rw [branch, List.map_singleton, Branch.disambiguated_mk rfl] at hx
    cases hx
    rcases h with h | h | ⟨h, -⟩ <;> cases h
  · cases hcompares
    rw [branch, List.map_singleton, Branch.disambiguated_mk rfl, branches, branch, List.map_append,
      List.map_singleton, Branch.disambiguated_mk rfl] at hx
    cases hx
    rcases h with h | h | ⟨-, c, cs, h, hc⟩
    · cases h
    · cases h
    · cases h
      rcases hc with hc | hc <;> cases hc

/-- Where an expression stands does not matter for whether it may be a statement. -/
theorem Branch.IsStatementExpression.shift (h : x.IsStatementExpression) (n : Nat) :
    (x.shift n).IsStatementExpression := by
  obtain ⟨k, image, span, cs⟩ := x
  refine h.imp_right (Or.imp_right ?_)
  rintro ⟨hk, c, ds, hcs, hc⟩
  obtain rfl : cs = c :: ds := hcs
  refine ⟨hk, c.shift n, _, rfl, ?_⟩
  cases c
  exact hc

/-- A file whose tokens are those of a method around a broken statement. -/
theorem parse_brokenStatement {t : Token} {r : List Token} {e : Problem}
    (htokens : significantTokens text =
      [⟨.classKw, "class", 0⟩, ⟨.ident, "A", 6⟩, ⟨.leftBrace, "\x7b", 8⟩, ⟨.voidKw, "void", 10⟩,
        ⟨.ident, "m", 15⟩, ⟨.leftParen, "(", 16⟩, ⟨.rightParen, ")", 17⟩, ⟨.leftBrace, "\x7b", 19⟩] ++
        t :: r)
    (ht : t.kind ≠ .rightBrace) (h : (statement t r).Reports e) :
    ∃ p es, parse text = .ok p ∧ p.errors = Problem.diagnostic text e :: es := by
  have hmember := reports_method (t := ⟨.voidKw, "void", 10⟩) (n := ⟨.ident, "m", 15⟩)
    (l := ⟨.leftParen, "(", 16⟩) (p := ⟨.rightParen, ")", 17⟩) (b := ⟨.leftBrace, "\x7b", 19⟩)
    rfl rfl rfl rfl rfl (reports_blockTail ht h)
  obtain ⟨es, hes⟩ := reports_classDeclarations (c := ⟨.classKw, "class", 0⟩) (n := ⟨.ident, "A", 6⟩)
    (b := ⟨.leftBrace, "\x7b", 8⟩) rfl rfl rfl (reports_membersTail (by decide) hmember)
  have hproblems : (compilationUnit (significantTokens text)).problems = e :: es := by
    rw [htokens]
    exact hes
  refine ⟨_, es.map (Problem.diagnostic text), parse_eq text, ?_⟩
  dsimp only
  rw [hproblems, List.map_cons]

/-- The tokens of a method around an expression, which comes first in its block. -/
theorem significantTokens_method (h : IsValue text k ps x)
    (hknown : ∀ t ∈ significantTokens text, t.kind ≠ .unknown) (hopen : ¬ EndsInComment text) :
    ∃ (t s u w : Token) (r : List Token), t.kind = ahead (significantTokens text) ∧
      s.kind = .semicolon ∧ u.kind = .rightBrace ∧ w.kind = .rightBrace ∧
      (expr (t :: r)).toStep.Makes [.node k (movedAll (Token.shift 21) ps)] [s, u, w] ∧
      significantTokens (between "class A \x7b void m() \x7b" text "; \x7d \x7d") =
        [⟨.classKw, "class", 0⟩, ⟨.ident, "A", 6⟩, ⟨.leftBrace, "\x7b", 8⟩, ⟨.voidKw, "void", 10⟩,
          ⟨.ident, "m", 15⟩, ⟨.leftParen, "(", 16⟩, ⟨.rightParen, ")", 17⟩,
          ⟨.leftBrace, "\x7b", 19⟩] ++ t :: r := by
  obtain ⟨s, u, w, hs, hu, hw, htokens⟩ : ∃ s u w : Token,
      s.kind = .semicolon ∧ u.kind = .rightBrace ∧ w.kind = .rightBrace ∧
      significantTokens (between "class A \x7b void m() \x7b" text "; \x7d \x7d") =
        [⟨.classKw, "class", 0⟩, ⟨.ident, "A", 6⟩, ⟨.leftBrace, "\x7b", 8⟩, ⟨.voidKw, "void", 10⟩,
          ⟨.ident, "m", 15⟩, ⟨.leftParen, "(", 16⟩, ⟨.rightParen, ")", 17⟩,
          ⟨.leftBrace, "\x7b", 19⟩] ++
          ((significantTokens text).map (Token.shift 21) ++ [s, u, w]) :=
    ⟨_, _, _, by rfl, by rfl, by rfl, significantTokens_between
      (q := [⟨.semicolon, ";", 0⟩, ⟨.rightBrace, "\x7d", 2⟩, ⟨.rightBrace, "\x7d", 4⟩])
      (by decide +kernel) (by decide +kernel) (by decide) (by decide) (by decide) hknown hopen⟩
  have hend : isEnd (ahead [s, u, w]) = true := by
    rw [ahead, hs]
    rfl
  have hmakes := h.makes_moved 21 hend
  obtain ⟨t, r, htext⟩ := List.exists_cons_of_ne_nil h.ne_nil
  rw [htext] at htokens hmakes ⊢
  exact ⟨t.shift 21, s, u, w, r.map (Token.shift 21) ++ [s, u, w], rfl, hs, hu, hw, hmakes, htokens⟩

/-- What may stand as a statement does, unless it starts with the keyword of a primitive type. Then the
name of a variable is missed. -/
theorem parse_statementExpression {p : Parse} (hp : parseExpression text = .ok p) (he : p.errors = [])
    (hopen : ¬ EndsInComment text) : ∃ x, p.tree.root.children = [x] ∧ (x.IsStatementExpression →
      ∃ q, parse (between "class A \x7b void m() \x7b" text "; \x7d \x7d") = .ok q ∧
        if primitiveKeywords.contains (ahead (significantTokens text)) then
          ∃ span es, q.errors = ⟨"expected a variable name", span⟩ :: es
        else q.errors = [] ∧
          ∃ span, q.tree.root.HasStatement ⟨.expressionStatement, none, span, [x.shift 21]⟩) := by
  obtain ⟨k, ps, x, hvalue, hx⟩ := exists_isValue hp he
  have hknown := known_of_no_errors (.inr hp) he
  obtain ⟨t, s, u, w, r, ht, hs, hu, hw, hmakes, htokens⟩ :=
    significantTokens_method hvalue hknown hopen
  have hstarts : expressionFirst.contains t.kind = true := @starts_expr (t :: r) hmakes.problems
  have hne : t.kind ≠ .rightBrace := by
    intro hbrace
    rw [hbrace] at hstarts
    cases hstarts
  refine ⟨x, hx, fun hstatement => ?_⟩
  rw [← ht]
  cases hprimitive : primitiveKeywords.contains t.kind with
  | true =>
    obtain ⟨v, hreports⟩ := reports_statement_of_primitive hprimitive hmakes.problems
    obtain ⟨q, es, hq, hes⟩ := parse_brokenStatement htokens hne hreports
    exact ⟨q, hq, if_pos rfl ▸ ⟨_, es, hes⟩⟩
  | false =>
    have hend : isEnd (ahead (expr (t :: r)).rest) = true := by
      rw [hmakes.rest, ahead, hs]
      rfl
    have hcompares : ¬ Compares (expr (t :: r)).parts := by
      rw [hmakes.parts]
      exact not_compares (hvalue.branch_moved 21) (hstatement.shift 21)
    have hat := atLocalVariable_of_not_compares hprimitive hmakes.problems hend hcompares
    obtain ⟨span, hfinish⟩ := ((finish_nil.token s false).cons (hvalue.branch_moved 21)).node
      (k := .expressionStatement) rfl (finish_nil.token u false)
      (by simp [tokensOfAll, Piece.tokens])
    obtain ⟨q, hq, hes, hroot⟩ := parse_statement htokens hne hu hw
      (makes_expressionStatement hstarts hat hs hmakes) hfinish
    exact ⟨q, hq, if_neg Bool.false_ne_true ▸ ⟨hes, span, hroot⟩⟩

/-- An assignment to a name. -/
theorem parse_statementExpression_assignment :
    let text := "a.b = f(c)"
    ∃ p, parseExpression text = .ok p ∧ p.errors = [] ∧ ¬ EndsInComment text ∧
      ∃ x, p.tree.root.children = [x] ∧ x.IsStatementExpression ∧
        ∃ q, parse (between "class A \x7b void m() \x7b" text "; \x7d \x7d") = .ok q ∧
          q.errors = [] ∧
          ∃ span, q.tree.root.HasStatement ⟨.expressionStatement, none, span, [x.shift 21]⟩ := by
  intro text
  have hproblems : (loneExpression (significantTokens text)).problems = [] := by decide +kernel
  have herrors : (loneExpression (significantTokens text)).problems.map
      (Problem.diagnostic text) = [] := List.map_eq_nil_iff.mpr hproblems
  have hopen : ¬ EndsInComment text := not_endsInComment (by decide +kernel)
  have hkinds : (tree .expressionStatement (expressionParts text)).disambiguated.children.map
      (fun x => (x.kind, x.children.map Branch.kind)) =
        [(.assignmentExpression, [.ambiguousName, .methodCall])] := by decide +kernel
  have hfirst : primitiveKeywords.contains (ahead (significantTokens text)) = false := by
    decide +kernel
  obtain ⟨x, hx, h⟩ := parse_statementExpression (parseExpression_eq text) herrors hopen
  have hone : (tree .expressionStatement (expressionParts text)).disambiguated.children = [x] := hx
  rw [hone] at hkinds
  obtain ⟨hk, hcs⟩ := Prod.mk.inj (List.singleton_inj.mp hkinds)
  obtain ⟨c, cs, hcs, hc, -⟩ := List.map_eq_cons_iff.mp hcs
  have hstatement : x.IsStatementExpression := .inr (.inr ⟨hk, c, cs, hcs, .inl hc⟩)
  obtain ⟨q, hq, hes⟩ := h hstatement
  rw [hfirst, if_neg Bool.false_ne_true] at hes
  exact ⟨_, parseExpression_eq text, herrors, hopen, x, hx, hstatement, q, hq, hes⟩

/-- A call on the literal for a primitive type is an expression, but no statement. -/
theorem parse_primitiveClass :
    let text := "int.class.getName()"
    ∃ p q x, parseExpression text = .ok p ∧ p.errors = [] ∧ ¬ EndsInComment text ∧
      p.tree.root.children = [x] ∧ x.IsStatementExpression ∧
      parse (between "class A \x7b void m() \x7b" text "; \x7d \x7d") = .ok q ∧ q.errors ≠ [] := by
  intro text
  have hproblems : (loneExpression (significantTokens text)).problems = [] := by decide +kernel
  have hkinds : (tree .expressionStatement (expressionParts text)).disambiguated.children.map
      Branch.kind = [.methodCall] := by decide +kernel
  have hbroken : (compilationUnit (significantTokens
      (between "class A \x7b void m() \x7b" text "; \x7d \x7d"))).problems ≠ [] := by decide +kernel
  obtain ⟨x, hx, hk⟩ := List.map_eq_singleton_iff.mp hkinds
  exact ⟨_, _, x, parseExpression_eq text, List.map_eq_nil_iff.mpr hproblems,
    not_endsInComment (by decide +kernel), hx, .inl hk, parse_eq _,
    fun h => hbroken (List.map_eq_nil_iff.mp h)⟩

end JavaSyntax
