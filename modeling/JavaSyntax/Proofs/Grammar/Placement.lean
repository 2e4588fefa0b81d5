import JavaSyntax.Proofs.Grammar.Avoided
import JavaSyntax.Proofs.Grammar.Shadow

namespace JavaSyntax.Layout

open Computability

section

variable {k j : Kind} {c : Category} {l m : Language Kind} {ks : List Kind}

theorem avoids_child (h : c.contains k = false) : Avoids k (child c) := by
  rintro _ ⟨j, hj, rfl⟩ hk
  rw [← List.mem_singleton.mp hk, h] at hj
  cases hj

theorem avoids_only (h : j ≠ k) : Avoids k (only j) :=
  avoids_child (beq_eq_false_iff_ne.mpr h.symm)

/-- Declarators and parameters have the name of a variable. -/
def namesVariable (k : Kind) : Bool :=
  k == .variableDeclarator || k == .formalParameter || k == .catchParameter

/-- Fields and local variables are declared by declarators. -/
def declaresVariables (k : Kind) : Bool := k == .fieldDeclaration || k == .localVariableDeclaration

/-- Names of variables and declarators stand in no other nodes. -/
theorem avoids_layout (h : j = .variableDeclaratorId ∧ namesVariable k = false ∨
    j = .variableDeclarator ∧ declaresVariables k = false) : Avoids j (layout k) := by
  rcases h with ⟨rfl, h⟩ | ⟨rfl, h⟩
  all_goals unfold layout
  all_goals split
  any_goals cases h
  all_goals repeat' first
    | exact avoids_zero
    | exact avoids_nil
    | exact avoids_child rfl
    | exact avoids_only (by decide)
    | apply avoids_add
    | apply avoids_mul
    | apply avoids_kstar

/-- A loop has a declaration, an expression and perhaps a statement, in this order. -/
theorem eq_of_mem_foreachStatement (h : ks ∈ layout .foreachStatement) :
    ∃ e, Category.expr.contains e = true ∧ (ks = [.localVariableDeclaration, e] ∨
      ∃ s, Category.statement.contains s = true ∧ ks = [.localVariableDeclaration, e, s]) := by
  obtain ⟨_, ⟨_, hd, _, ⟨e, he, rfl⟩, rfl⟩, _, ⟨s, hs, rfl⟩ | rfl, rfl⟩ := h
  · rw [mem_only.mp hd]
    exact ⟨e, he, .inr ⟨s, hs, rfl⟩⟩
  · rw [mem_only.mp hd]
    exact ⟨e, he, .inl rfl⟩

theorem contains_of_mem_foreachStatement (h : ks ∈ layout .foreachStatement) (hk : k ∈ ks) :
    Category.expr.contains k = true ∨ Category.statement.contains k = true := by
  obtain ⟨e, he, rfl | ⟨s, hs, rfl⟩⟩ := eq_of_mem_foreachStatement h
  all_goals simp only [List.mem_cons, List.not_mem_nil, or_false] at hk
  · rcases hk with rfl | rfl
    · exact .inr rfl
    · exact .inl he
  · rcases hk with rfl | rfl | rfl
    · exact .inr rfl
    · exact .inl he
    · exact .inr hs

/-- A declarator has one name, and perhaps an initializer. -/
theorem count_of_mem_variableDeclarator (h : ks ∈ layout .variableDeclarator) :
    ks.count .variableDeclaratorId = 1 := by
  obtain ⟨_, hd, _, rfl | ⟨e, he, rfl⟩, rfl⟩ := h
  · rw [mem_only.mp hd]
    rfl
  · have hne : e ≠ .variableDeclaratorId := by
      rintro rfl
      cases he
    rw [mem_only.mp hd]
    change List.count _ [.variableDeclaratorId, e] = 1
    rw [List.count_cons_self, List.count_cons_of_ne hne]
    rfl

theorem avoids_oneOf {P : Kind → Bool} (h : P k = false) : Avoids k (oneOf P) := by
  rintro _ ⟨j, hj, rfl⟩ hk
  rw [← List.mem_singleton.mp hk, h] at hj
  cases hj

theorem count_of_mem_only_mul (hl : Avoids k l) (h : ks ∈ only k * l) : ks.count k = 1 := by
  obtain ⟨_, hone, v, hv, rfl⟩ := h
  rw [mem_only.mp hone]
  change (k :: v).count k = 1
  rw [List.count_cons_self, List.count_eq_zero.mpr (hl v hv)]

theorem count_of_mem_mul_only (hl : Avoids k l) (h : ks ∈ l * only k) : ks.count k = 1 := by
  obtain ⟨v, hv, _, hone, rfl⟩ := h
  rw [mem_only.mp hone]
  change (v ++ [k]).count k = 1
  rw [List.count_append, List.count_eq_zero.mpr (hl v hv), List.count_singleton_self]

open Content

theorem avoids_shadow (h : j = .variableDeclaratorId ∧ namesVariable k = false ∨
    j = .variableDeclarator ∧ declaresVariables k = false) : Avoids j (shadow (content false k)) := by
  rcases h with ⟨rfl, h⟩ | ⟨rfl, h⟩
  all_goals unfold content
  all_goals split
  any_goals cases h
  all_goals simp only [Content.condition, value, typed, statement, semicolon, declarators, parameters,
    Content.resultType, operand, listed, dotted, broken_false, due_false, junk_false, shadow_add,
    shadow_mul, shadow_kstar, shadow_mark, shadow_marks, shadow_word, shadow_one, shadow_zero,
    shadow_one_only, shadow_nodeOf, shadow_modifierKeywords, shadow_primitiveKeywords,
    shadow_literalTokens, shadow_isPrefix, shadow_isAssignment, shadow_precedence]
  all_goals repeat' first
    | exact avoids_zero
    | exact avoids_nil
    | exact avoids_oneOf rfl
    | exact avoids_only (by decide)
    | apply avoids_add
    | apply avoids_mul
    | apply avoids_kstar

/-- A declarator and a parameter have the name of one variable. -/
theorem count_of_mem_shadow (hk : namesVariable k = true) (h : ks ∈ shadow (content false k)) :
    ks.count .variableDeclaratorId = 1 := by
  have hparameter (h : ks ∈ shadow (one .modifierList * typed false * one .variableDeclaratorId)) :
      ks.count .variableDeclaratorId = 1 := by
    simp only [typed, due_false, shadow_mul, shadow_add, shadow_one, shadow_one_only, shadow_nodeOf] at h
    exact count_of_mem_mul_only
      (avoids_mul (avoids_only (by decide)) (avoids_add (avoids_oneOf rfl) avoids_nil)) h
  rw [namesVariable, Bool.or_eq_true, Bool.or_eq_true, beq_iff_eq, beq_iff_eq, beq_iff_eq] at hk
  rcases hk with (rfl | rfl) | rfl
  · rw [content, shadow_mul, shadow_one_only, shadow_add, shadow_one, shadow_mul, shadow_mark, one_mul,
      value, due_false, junk_false, shadow_mul, shadow_add, shadow_add, shadow_nodeOf, shadow_one,
      shadow_one_only] at h
    exact count_of_mem_only_mul (avoids_add avoids_nil (avoids_mul
      (avoids_add (avoids_oneOf rfl) avoids_nil) (avoids_add avoids_nil (avoids_only (by decide))))) h
  · exact hparameter h
  · exact hparameter h

end

end JavaSyntax.Layout
