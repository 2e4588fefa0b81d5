import JavaSyntax.Proofs.Expression.Shape
import JavaSyntax.Proofs.Grammar.Formed
import JavaSyntax.Proofs.Token.Spelling

namespace JavaSyntax

open Piece Content Grammar Computability

theorem BinaryOperator.ofToken?_token (o : BinaryOperator) : ofToken? o.token = some o := by
  cases o <;> rfl

theorem AssignmentOperator.ofToken?_token (o : AssignmentOperator) : ofToken? o.token = some o := by
  cases o <;> rfl

theorem UnaryOperator.ofToken?_token (o : UnaryOperator) : ofToken? o.token = some o := by
  cases o <;> rfl

theorem BinaryOperator.token_of_ofToken? {s : String} {o : BinaryOperator} (h : ofToken? s = some o) :
    o.token = s := by
  have htoken := List.find?_some h
  exact of_decide_eq_true htoken

theorem AssignmentOperator.token_of_ofToken? {s : String} {o : AssignmentOperator}
    (h : ofToken? s = some o) : o.token = s := by
  have htoken := List.find?_some h
  exact of_decide_eq_true htoken

theorem UnaryOperator.token_of_ofToken? {s : String} {o : UnaryOperator} (h : ofToken? s = some o) :
    o.token = s := by
  have htoken := List.find?_some h
  exact of_decide_eq_true htoken

/-- The text of an operator is read as that operator. -/
theorem bind_of_token {α : Type} {token : α → String} {ofToken? : String → Option α}
    (h : ∀ o, ofToken? (token o) = some o) {image : Option String} {o : α}
    (hi : image = some (token o)) : image.bind ofToken? = some o := by
  rw [hi, Option.bind_some, h]

theorem exists_binary {k : Kind} {s : Nat} (h : precedence? k = some s) :
    ∃ o : BinaryOperator, o.strength = s ∧ k.sign? = some o.token := by
  unfold precedence? at h
  split at h
  · exact ⟨.or, Option.some.inj h, rfl⟩
  · exact ⟨.and, Option.some.inj h, rfl⟩
  · exact ⟨.eq, Option.some.inj h, rfl⟩
  · exact ⟨.ne, Option.some.inj h, rfl⟩
  · exact ⟨.lt, Option.some.inj h, rfl⟩
  · exact ⟨.gt, Option.some.inj h, rfl⟩
  · exact ⟨.le, Option.some.inj h, rfl⟩
  · exact ⟨.ge, Option.some.inj h, rfl⟩
  · exact ⟨.add, Option.some.inj h, rfl⟩
  · exact ⟨.sub, Option.some.inj h, rfl⟩
  · exact ⟨.mul, Option.some.inj h, rfl⟩
  · exact ⟨.div, Option.some.inj h, rfl⟩
  · exact ⟨.rem, Option.some.inj h, rfl⟩
  · cases h

theorem exists_assignment {k : Kind} (h : isAssignment k = true) :
    ∃ o : AssignmentOperator, k.sign? = some o.token := by
  simp only [isAssignment, Bool.or_eq_true, beq_iff_eq] at h
  rcases h with (rfl | rfl) | rfl
  · exact ⟨.assign, rfl⟩
  · exact ⟨.addAssign, rfl⟩
  · exact ⟨.subAssign, rfl⟩

theorem exists_unary {k : Kind} (h : isPrefix k = true) :
    ∃ o : UnaryOperator, k.sign? = some o.token := by
  simp only [isPrefix, Bool.or_eq_true, beq_iff_eq] at h
  rcases h with rfl | rfl
  · exact ⟨.not, rfl⟩
  · exact ⟨.neg, rfl⟩

namespace Piece

variable {ps : List Piece} {w : List Symbol} {k : Kind} {i : Bool} {P V W : Kind → Bool}

theorem of_symbols_node (h : symbols ps = .node k :: w) :
    ∃ qs more, ps = .node k qs :: more ∧ symbols more = w := by
  obtain ⟨p, more, rfl, hp, hmore⟩ := List.map_eq_cons_iff.mp h
  cases p with
  | token t i => cases hp
  | node k' qs =>
    cases hp
    exact ⟨qs, more, rfl, hmore⟩

theorem of_symbols_token (h : symbols ps = .token k i :: w) :
    ∃ t more, ps = .token t i :: more ∧ t.kind = k ∧ symbols more = w := by
  obtain ⟨p, more, rfl, hp, hmore⟩ := List.map_eq_cons_iff.mp h
  cases p with
  | node k' qs => cases hp
  | token t i =>
    cases hp
    exact ⟨t, more, rfl, rfl, hmore⟩

theorem of_symbols_nil (h : symbols ps = []) : ps = [] := List.map_eq_nil_iff.mp h

/-- An operator with a node on each side. -/
theorem of_mem_operator (h : symbols ps ∈ nodeOf V * wordOf P * nodeOf W) :
    ∃ a qs t b rs, ps = [.node a qs, .token t true, .node b rs] ∧ V a = true ∧ P t.kind = true ∧
      W b = true := by
  obtain ⟨_, ⟨_, ⟨a, ha, rfl⟩, _, ⟨k, hk, rfl⟩, rfl⟩, _, ⟨b, hb, rfl⟩, hs⟩ := h
  obtain ⟨qs, _, rfl, h₁⟩ := of_symbols_node hs.symm
  obtain ⟨t, _, rfl, rfl, h₂⟩ := of_symbols_token h₁
  obtain ⟨rs, _, rfl, h₃⟩ := of_symbols_node h₂
  rw [of_symbols_nil h₃]
  exact ⟨a, qs, t, b, rs, rfl, ha, hk, hb⟩

/-- An operator in front of a node. -/
theorem of_mem_prefix (h : symbols ps ∈ wordOf P * nodeOf V) :
    ∃ t a qs, ps = [.token t true, .node a qs] ∧ P t.kind = true ∧ V a = true := by
  obtain ⟨_, ⟨k, hk, rfl⟩, _, ⟨a, ha, rfl⟩, hs⟩ := h
  obtain ⟨t, _, rfl, rfl, h₁⟩ := of_symbols_token hs.symm
  obtain ⟨qs, _, rfl, h₂⟩ := of_symbols_node h₁
  rw [of_symbols_nil h₂]
  exact ⟨t, a, qs, rfl, hk, ha⟩

/-- A field of what stands in front of the point. -/
theorem of_mem_fieldAccess (h : symbols ps ∈ nodeOf V * mark .dot * word .ident) :
    ∃ a qs point name, ps = [.node a qs, .token point false, .token name true] ∧ point.kind = .dot := by
  obtain ⟨_, ⟨_, ⟨a, ha, rfl⟩, _, rfl, rfl⟩, _, rfl, hs⟩ := h
  obtain ⟨qs, _, rfl, h₁⟩ := of_symbols_node hs.symm
  obtain ⟨point, _, rfl, hpoint, h₂⟩ := of_symbols_token h₁
  obtain ⟨name, _, rfl, _, h₃⟩ := of_symbols_token h₂
  rw [of_symbols_nil h₃]
  exact ⟨a, qs, point, name, rfl, hpoint⟩

/-- A call, perhaps of a method of what stands in front of the point. -/
theorem of_mem_methodCall
    (h : symbols ps ∈ (1 + nodeOf V * mark .dot) * word .ident * one .argumentList) :
    (∃ name rs, ps = [.token name true, .node .argumentList rs]) ∨
      ∃ a qs point name rs, ps = [.node a qs, .token point false, .token name true,
        .node .argumentList rs] ∧ point.kind = .dot := by
  obtain ⟨_, ⟨_, hq | ⟨_, ⟨a, ha, rfl⟩, _, rfl, rfl⟩, _, rfl, rfl⟩, _, rfl, hs⟩ := h
  · cases hq
    obtain ⟨name, _, rfl, _, h₁⟩ := of_symbols_token hs.symm
    obtain ⟨rs, _, rfl, h₂⟩ := of_symbols_node h₁
    rw [of_symbols_nil h₂]
    exact .inl ⟨name, rs, rfl⟩
  · obtain ⟨qs, _, rfl, h₁⟩ := of_symbols_node hs.symm
    obtain ⟨point, _, rfl, hpoint, h₂⟩ := of_symbols_token h₁
    obtain ⟨name, _, rfl, _, h₃⟩ := of_symbols_token h₂
    obtain ⟨rs, _, rfl, h₄⟩ := of_symbols_node h₃
    rw [of_symbols_nil h₄]
    exact .inr ⟨a, qs, point, name, rs, rfl, hpoint⟩

/-- A method reference, perhaps with type arguments. -/
theorem of_mem_methodReference (h : symbols ps ∈ nodeOf V * mark .colonColon *
    (1 + one .typeArguments) * (word .ident + word .newKw)) :
    ∃ a qs colons name, colons.kind = .colonColon ∧
      (ps = [.node a qs, .token colons false, .token name true] ∨
        ∃ rs, ps = [.node a qs, .token colons false, .node .typeArguments rs, .token name true]) := by
  obtain ⟨_, ⟨_, ⟨_, ⟨a, ha, rfl⟩, _, rfl, rfl⟩, v, hv, rfl⟩, w, hw, hs⟩ := h
  have hname : ∃ k, w = [.token k true] := by
    rcases hw with rfl | rfl
    · exact ⟨_, rfl⟩
    · exact ⟨_, rfl⟩
  obtain ⟨k, rfl⟩ := hname
  rcases hv with hv | rfl
  · cases hv
    obtain ⟨qs, _, rfl, h₁⟩ := of_symbols_node hs.symm
    obtain ⟨colons, _, rfl, hcolons, h₂⟩ := of_symbols_token h₁
    obtain ⟨name, _, rfl, _, h₃⟩ := of_symbols_token h₂
    rw [of_symbols_nil h₃]
    exact ⟨a, qs, colons, name, hcolons, .inl rfl⟩
  · obtain ⟨qs, _, rfl, h₁⟩ := of_symbols_node hs.symm
    obtain ⟨colons, _, rfl, hcolons, h₂⟩ := of_symbols_token h₁
    obtain ⟨rs, _, rfl, h₃⟩ := of_symbols_node h₂
    obtain ⟨name, _, rfl, _, h₄⟩ := of_symbols_token h₃
    rw [of_symbols_nil h₄]
    exact ⟨a, qs, colons, name, hcolons, .inr ⟨rs, rfl⟩⟩

variable {text : String}

/-- Between its operands the node of a binary operator has a token of that operator, which is also its
payload. -/
theorem binary_of_formed (hf : (Piece.node .infixExpression ps).Formed true)
    (ht : tokensOfAll ps <:+: significantTokens text) :
    ∃ a qs t b rs, ∃ o : BinaryOperator, ps = [.node a qs, .token t true, .node b rs] ∧
      payload none ps = some o.token ∧ t.text = o.token ∧ precedence? t.kind = some o.strength := by
  have hs : symbols ps ∈ nodeOf (isValue true) * wordOf (fun k => (precedence? k).isSome) *
      nodeOf (isValue true) := by
    have hcontent := hf.1.1
    rwa [content, operand, value, due_true, junk_true, add_zero, mul_one] at hcontent
  obtain ⟨a, qs, t, b, rs, rfl, _, hp, _⟩ := of_mem_operator hs
  obtain ⟨s, hs⟩ := Option.isSome_iff_exists.mp hp
  obtain ⟨o, rfl, hsign⟩ := exists_binary hs
  have htext : t.text = o.token := text_of_sign (ht.subset (by simp [tokensOfAll, tokens])) hsign
  refine ⟨a, qs, t, b, rs, o, rfl, ?_, htext, hs⟩
  rw [payload_none, ← htext]
  rfl

theorem assignment_of_formed (hf : (Piece.node .assignmentExpression ps).Formed true)
    (ht : tokensOfAll ps <:+: significantTokens text) :
    ∃ a qs t b rs, ∃ o : AssignmentOperator, ps = [.node a qs, .token t true, .node b rs] ∧
      payload none ps = some o.token ∧ t.text = o.token := by
  have hs : symbols ps ∈ nodeOf (isValue true) * wordOf isAssignment * nodeOf (isValue true) := by
    have hcontent := hf.1.1
    rwa [content, operand, value, due_true, junk_true, add_zero, mul_one] at hcontent
  obtain ⟨a, qs, t, b, rs, rfl, _, hp, _⟩ := of_mem_operator hs
  obtain ⟨o, hsign⟩ := exists_assignment hp
  have htext : t.text = o.token := text_of_sign (ht.subset (by simp [tokensOfAll, tokens])) hsign
  refine ⟨a, qs, t, b, rs, o, rfl, ?_, htext⟩
  rw [payload_none, ← htext]
  rfl

theorem unary_of_formed (hf : (Piece.node .unaryExpression ps).Formed true)
    (ht : tokensOfAll ps <:+: significantTokens text) :
    ∃ t a qs, ∃ o : UnaryOperator, ps = [.token t true, .node a qs] ∧
      payload none ps = some o.token ∧ t.text = o.token := by
  have hs : symbols ps ∈ wordOf isPrefix * nodeOf (isValue true) := by
    have hcontent := hf.1.1
    rwa [content, value, due_true, junk_true, add_zero, mul_one] at hcontent
  obtain ⟨t, a, qs, rfl, hp, _⟩ := of_mem_prefix hs
  obtain ⟨o, hsign⟩ := exists_unary hp
  have htext : t.text = o.token := text_of_sign (ht.subset (by simp [tokensOfAll, tokens])) hsign
  refine ⟨t, a, qs, o, rfl, ?_, htext⟩
  rw [payload_none, ← htext]
  rfl

end Piece

end JavaSyntax
