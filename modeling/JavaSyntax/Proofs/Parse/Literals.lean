import JavaSyntax.Proofs.Parse.TypeNames
import JavaSyntax.Proofs.Token.Literals
import JavaSyntax.Proofs.View.Variables

namespace JavaSyntax

open Piece

theorem Kind.isLiteral_of_literalTokens {k : Kind} (h : Grammar.literalTokens.contains k = true) :
    k.isLiteral = true := by
  revert h
  cases k <;> decide +kernel

/-- What a literal is made of. -/
theorem exists_token_of_literal {clean : Bool} {ps : List Piece}
    (h : symbols ps ∈ content clean .literal) :
    ∃ t, ps = [.token t true] ∧ t.kind.isLiteral = true := by
  obtain ⟨k, hk, hsymbols⟩ := h
  obtain ⟨p, rfl, hp⟩ := List.map_eq_singleton_iff.mp hsymbols
  cases p with
  | node j qs => cases hp
  | token t i =>
    cases hp
    exact ⟨t, rfl, Kind.isLiteral_of_literalTokens hk⟩

/-- A literal of a parsed text is one token. It has the token's span and text and no children, and its text
shows the kind that the token tells. -/
theorem parse_literals {text : String} {p : Parse}
    (hp : parse text = .ok p ∨ parseExpression text = .ok p) (v : Literal p.tree) :
    ∃ t, tokensIn text v.span = [t] ∧ v.span = t.span ∧ v.image = some t.text ∧
      p.tree.children v.node = [] ∧ LiteralKind.ofToken? t = some (Literal.kind v) := by
  have hk : p.tree.kind v.node = .literal := v.kind_node
  obtain ⟨ps, hmade, himage⟩ := @exists_made_with_image false text p hp (fun h => by cases h) v.node
    (Tree.lt_size_of_isNode (by rw [hk]; rfl)) (by rw [hk]; rfl)
  have hformed := hmade.formed.1.1
  rw [hk] at hformed
  obtain ⟨t, rfl, hliteral⟩ := exists_token_of_literal hformed
  obtain ⟨gap, hspan, _⟩ := hmade.stands
  have htext : v.image = some t.text := by
    rw [View.image, himage, payload_none]
    rfl
  have hmem : t ∈ significantTokens text := hmade.tokens.subset List.mem_cons_self
  refine ⟨t, hmade.tokensIn_eq, hspan, htext, List.map_eq_nil_iff.mp hmade.kinds_eq, ?_⟩
  rw [LiteralKind.ofToken?_eq hmem hliteral, Literal.kind, Literal.value, htext]
  rfl

/-- The digits of a hexadecimal number look like an exponent and the suffix of a floating-point number. -/
theorem parse_literals_hex :
    let text := "class A \x7b int x = 0x1e2d; \x7d"
    ∃ (p : Parse) (v : Literal p.tree) (t : Token), parse text = .ok p ∧ tokensIn text v.span = [t] ∧
      t.kind = .intLiteral ∧ LiteralKind.ofToken? t = some (Literal.kind v) := by
  intro text
  have hp := parse_eq_of_no_problems text (by decide +kernel)
  let tree : Tree := .ofBranch text (Piece.tree .compilationUnit (fileParts text)).disambiguated
  let v : Literal tree := ⟨9, by decide +kernel⟩
  obtain ⟨t, htokens, -, -, -, hkind⟩ := parse_literals (.inl hp) v
  have ht : tokensIn text v.span = [⟨.intLiteral, "0x1e2d", 18⟩] := by decide +kernel
  obtain rfl := List.singleton_inj.mp (ht.symm.trans htokens)
  exact ⟨_, v, _, hp, htokens, rfl, hkind⟩

end JavaSyntax
