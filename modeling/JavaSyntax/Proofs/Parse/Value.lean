import JavaSyntax.Proofs.Grammar.ExpressionStart
import JavaSyntax.Proofs.Grammar.Surroundings
import JavaSyntax.Proofs.Parse.Append

namespace JavaSyntax

open Piece Grammar

variable {text : String} {k : Kind} {ps : List Piece} {x : Branch} {p : Parse}

/-- The piece and the finished node of a text that is one expression. -/
structure IsValue (text : String) (k : Kind) (ps : List Piece) (x : Branch) : Prop where
  makes : (expr (significantTokens text)).toStep.Makes [.node k ps] []
  tokens : tokensOfAll ps = significantTokens text
  branch : ∀ gap, ((Piece.node k ps).branch gap).map Branch.disambiguated = [x]

/-- A single expression without errors is a value and nothing else. -/
theorem exists_isValue (hp : parseExpression text = .ok p) (he : p.errors = []) :
    ∃ k ps x, IsValue text k ps x ∧ p.tree.root.children = [x] := by
  rw [parseExpression_eq] at hp
  cases hp
  have hproblems : (loneExpression (significantTokens text)).problems = [] := List.map_eq_nil_iff.mp he
  obtain ⟨hexpr, hunexpected⟩ := List.append_eq_nil_iff.mp hproblems
  have hrest : (expr (significantTokens text)).rest = [] := by
    cases hrest : (expr (significantTokens text)).rest with
    | nil => rfl
    | cons t r =>
      change (unexpectedRest (expr (significantTokens text)).rest).problems = [] at hunexpected
      rw [hrest] at hunexpected
      cases hunexpected
  obtain ⟨k, ps, hparts⟩ := exists_node_expr hexpr
  have htokens : tokensOfAll ps = significantTokens text := by
    have h := (reads_expr (significantTokens text)).tokens_eq
    rw [hparts, hrest, List.append_nil] at h
    simpa [tokensOfAll, Piece.tokens] using h
  have hall : expressionParts text = [.node k ps] := by
    change (expr (significantTokens text)).parts ++
      (unexpectedRest (expr (significantTokens text)).rest).parts = _
    rw [hparts, hrest]
    rfl
  have hne : (Piece.node k ps).tokens ≠ [] := by
    intro hnil
    have hstarts := starts_expr hexpr
    rw [← htokens, show tokensOfAll ps = [] from hnil] at hstarts
    cases hstarts
  have hbranch (gap : Nat) : (Piece.node k ps).branch gap = (Piece.node k ps).branch 0 :=
    branch_of_tokens hne gap 0
  refine ⟨k, ps, (grown 0 k ps).disambiguated, ⟨⟨hparts, hexpr, hrest⟩, htokens, ?_⟩, ?_⟩
  · intro gap
    rw [hbranch gap]
    rfl
  · change (tree .expressionStatement (expressionParts text)).disambiguated.children = _
    rw [hall, tree, Branch.disambiguated_mk rfl]
    change ((Piece.node k ps).branch _ ++ []).map Branch.disambiguated = _
    rw [List.append_nil, hbranch]
    rfl

namespace IsValue

theorem starts (h : IsValue text k ps x) :
    expressionFirst.contains (ahead (significantTokens text)) = true :=
  starts_expr h.makes.problems

theorem ne_nil (h : IsValue text k ps x) : significantTokens text ≠ [] := by
  intro hnil
  have hstarts := h.starts
  rw [hnil] at hstarts
  cases hstarts

/-- Behind other tokens an expression starts as it does on its own. -/
theorem ahead_moved (h : IsValue text k ps x) (n : Nat) (q : List Token) :
    ahead ((significantTokens text).map (Token.shift n) ++ q) = ahead (significantTokens text) := by
  obtain ⟨t, ts, hts⟩ := List.exists_cons_of_ne_nil h.ne_nil
  rw [hts]
  rfl

/-- Behind other text the finished node stands as much further on. -/
theorem branch_moved (h : IsValue text k ps x) (n gap : Nat) :
    (((Piece.node k ps).moved (Token.shift n)).branch gap).map Branch.disambiguated = [x.shift n] := by
  have hne : ((Piece.node k ps).moved (Token.shift n)).tokens ≠ [] := by
    rw [tokens_moved, Piece.tokens, h.tokens]
    exact fun hnil => h.ne_nil (List.map_eq_nil_iff.mp hnil)
  have hshift : Branch.disambiguated ∘ Branch.shift n = Branch.shift n ∘ Branch.disambiguated :=
    funext (Branch.disambiguated_shift n)
  rw [branch_of_tokens hne gap (0 + n), branch_shift, Branch.shiftAll_eq_map, List.map_map, hshift,
    ← List.map_map, h.branch 0]
  rfl

/-- In front of `;` and `}` the same is read. -/
theorem makes_moved (h : IsValue text k ps x) (n : Nat) {q : List Token} (hq : isEnd (ahead q) = true) :
    (expr ((significantTokens text).map (Token.shift n) ++ q)).toStep.Makes
      [.node k (movedAll (Token.shift n) ps)] q := by
  have hbehind := alongside_append (Token.shift n) (significantTokens text) [] q
  rw [List.append_nil] at hbehind
  have along := local_expr ⟨(Token.moves_shift n).toKeepsKinds, rfl, hq⟩ hbehind
    (.inr ⟨h.makes.problems, Nat.zero_le _⟩)
  refine ⟨?_, ?_, along.rest.eq_of_eq h.makes.rest⟩
  · rw [along.parts, h.makes.parts]
    rfl
  · rw [along.problems, h.makes.problems, List.map_nil]

end IsValue

end JavaSyntax
