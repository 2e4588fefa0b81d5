import JavaSyntax.Proofs.Grammar.Formed

namespace JavaSyntax

open Computability

/-- The kind a symbol counts for among the children of a node. -/
def Symbol.child? : Symbol → Option Kind
  | .token _ _ => none
  | .node k => some k

namespace Layout

def oneOf (P : Kind → Bool) : Language Kind := {w | ∃ k, P k = true ∧ w = [k]}

/-- One child that can be viewed in a certain way. -/
def child (c : Category) : Language Kind := oneOf c.contains

/-- One child of a certain kind. -/
def only (k : Kind) : Language Kind := child (.only k)

theorem mem_only {k : Kind} {w : List Kind} : w ∈ only k ↔ w = [k] := by
  constructor
  · rintro ⟨k', hk, rfl⟩
    rw [Category.contains, beq_iff_eq] at hk
    rw [hk]
  · rintro rfl
    exact ⟨k, beq_self_eq_true k, rfl⟩

end Layout

namespace Content

open Layout

/-- What a language of symbols says of children. -/
def shadow (l : Language Symbol) : Language Kind := {w | ∃ v ∈ l, v.filterMap Symbol.child? = w}

section

variable (l m : Language Symbol)

theorem shadow_zero : shadow 0 = 0 := by
  ext w
  constructor
  · rintro ⟨v, hv, _⟩
    cases hv
  · intro h
    cases h

theorem shadow_singleton (v : List Symbol) : shadow {v} = {v.filterMap Symbol.child?} := by
  ext w
  constructor
  · rintro ⟨_, rfl, rfl⟩
    rfl
  · rintro rfl
    exact ⟨v, rfl, rfl⟩

theorem shadow_one : shadow 1 = 1 := shadow_singleton []

theorem shadow_add : shadow (l + m) = shadow l + shadow m := by
  ext w
  constructor
  · rintro ⟨v, hv | hv, rfl⟩
    · exact .inl ⟨v, hv, rfl⟩
    · exact .inr ⟨v, hv, rfl⟩
  · rintro (⟨v, hv, rfl⟩ | ⟨v, hv, rfl⟩)
    · exact ⟨v, .inl hv, rfl⟩
    · exact ⟨v, .inr hv, rfl⟩

theorem shadow_mul : shadow (l * m) = shadow l * shadow m := by
  ext w
  constructor
  · rintro ⟨_, ⟨a, ha, b, hb, rfl⟩, rfl⟩
    refine ⟨_, ⟨a, ha, rfl⟩, _, ⟨b, hb, rfl⟩, ?_⟩
    exact List.filterMap_append.symm
  · rintro ⟨_, ⟨a, ha, rfl⟩, _, ⟨b, hb, rfl⟩, rfl⟩
    refine ⟨a ++ b, Language.append_mem_mul ha hb, ?_⟩
    exact List.filterMap_append

theorem shadow_kstar : shadow l∗ = (shadow l)∗ := by
  ext w
  constructor
  · rintro ⟨v, hv, rfl⟩
    obtain ⟨parts, rfl, hparts⟩ := Language.mem_kstar.mp hv
    rw [List.filterMap_flatten]
    apply Language.join_mem_kstar
    intro y hy
    obtain ⟨x, hx, rfl⟩ := List.mem_map.mp hy
    exact ⟨x, hparts x hx, rfl⟩
  · intro h
    obtain ⟨parts, rfl, hparts⟩ := Language.mem_kstar.mp h
    clear h
    induction parts with
    | nil => exact ⟨[], Language.nil_mem_kstar l, rfl⟩
    | cons p ps ih =>
      obtain ⟨v, hv, hp⟩ := hparts p List.mem_cons_self
      obtain ⟨u, hu, hps⟩ := ih fun y hy => hparts y (List.mem_cons_of_mem _ hy)
      refine ⟨v ++ u, mem_kstar_cons (Language.append_mem_mul hv hu), ?_⟩
      rw [List.flatten_cons, ← hp, ← hps]
      exact List.filterMap_append

end

theorem shadow_mark (k : Kind) : shadow (mark k) = 1 := shadow_singleton _

theorem shadow_word (k : Kind) : shadow (word k) = 1 := shadow_singleton _

theorem shadow_marks : shadow marks = 1 := by
  ext w
  constructor
  · rintro ⟨v, hv, rfl⟩
    refine List.filterMap_eq_nil_iff.mpr fun s hs => ?_
    obtain ⟨k, rfl⟩ := hv s hs
    rfl
  · rintro rfl
    refine ⟨[], ?_, rfl⟩
    rintro s ⟨⟩

theorem shadow_wordOf {P : Kind → Bool} (k : Kind) (h : P k = true) : shadow (wordOf P) = 1 := by
  ext w
  constructor
  · rintro ⟨_, ⟨k, _, rfl⟩, rfl⟩
    rfl
  · rintro rfl
    exact ⟨_, ⟨k, h, rfl⟩, rfl⟩

theorem shadow_modifierKeywords : shadow (wordOf Grammar.modifierKeywords.contains) = 1 :=
  shadow_wordOf .finalKw rfl

theorem shadow_primitiveKeywords : shadow (wordOf Grammar.primitiveKeywords.contains) = 1 :=
  shadow_wordOf .intKw rfl

theorem shadow_literalTokens : shadow (wordOf Grammar.literalTokens.contains) = 1 :=
  shadow_wordOf .nullKw rfl

theorem shadow_isPrefix : shadow (wordOf isPrefix) = 1 := shadow_wordOf .bang rfl

theorem shadow_isAssignment : shadow (wordOf Grammar.isAssignment) = 1 := shadow_wordOf .eq rfl

theorem shadow_precedence : shadow (wordOf fun k => (Grammar.precedence? k).isSome) = 1 :=
  shadow_wordOf .plus rfl

theorem shadow_nodeOf (P : Kind → Bool) : shadow (nodeOf P) = oneOf P := by
  ext w
  constructor
  · rintro ⟨_, ⟨k, hk, rfl⟩, rfl⟩
    exact ⟨k, hk, rfl⟩
  · rintro ⟨k, hk, rfl⟩
    exact ⟨_, ⟨k, hk, rfl⟩, rfl⟩

theorem shadow_one_only (k : Kind) : shadow (one k) = only k := by
  ext w
  rw [mem_only]
  constructor
  · rintro ⟨_, rfl, rfl⟩
    rfl
  · rintro rfl
    exact ⟨_, rfl, rfl⟩

theorem shadow_contains (c : Category) : shadow (nodeOf c.contains) = child c := shadow_nodeOf _

theorem contains_type_eq : Category.type.contains = Kind.isType := by
  funext k
  cases k <;> rfl

theorem shadow_isType : shadow (nodeOf Kind.isType) = child .type := by
  rw [shadow_nodeOf, child, contains_type_eq]

/-- In a clean text only expressions are values. -/
theorem shadow_isValue : shadow (nodeOf (isValue true)) = child .expr := shadow_nodeOf _

end Content

section

variable {α : Type} (l m : Language α)

theorem Layout.kstar_add_one : (l + 1)∗ = l∗ := by
  apply le_antisymm
  · apply kstar_le_of_mul_le_right one_le_kstar
    rw [add_mul, one_mul]
    exact add_le mul_kstar_le_kstar le_rfl
  · exact kstar_mono (le_add_right le_rfl)

theorem Layout.kstar_mul_one_add : l∗ * (1 + l) = l∗ := by
  rw [mul_add, mul_one]
  exact add_eq_left_iff_le.mpr kstar_mul_le_kstar

theorem Layout.mul_kstar_add_self : l * m∗ + l = l * m∗ := by
  apply add_eq_left_iff_le.mpr
  calc
    l = l * 1 := (mul_one l).symm
    _ ≤ l * m∗ := mul_le_mul_right one_le_kstar l

theorem Layout.one_add_add_one : 1 + (l + 1) = l + 1 := by
  rw [add_left_comm, add_idem]

end

open Layout in
/-- The children of a node of each kind in a text without errors, in order. An empty statement leaves
no child. -/
def layout : Kind → Language Kind
  | .compilationUnit => (only .classDeclaration)∗
  | .classDeclaration => only .modifierList * only .classBody
  | .classBody => (child .member)∗
  | .modifierList => (only .modifier + only .annotationUse)∗
  | .fieldDeclaration =>
    only .modifierList * (only .voidType + child .type) *
      (only .variableDeclarator * (only .variableDeclarator)∗)
  | .methodDeclaration =>
    only .modifierList * (only .voidType + child .type) * only .formalParameters * (only .block + 1)
  | .formalParameters => (only .formalParameter)∗
  | .formalParameter | .catchParameter =>
    only .modifierList * child .type * only .variableDeclaratorId
  | .variableDeclarator => only .variableDeclaratorId * (1 + child .expr)
  | .classType => 1 + only .typeArguments
  | .arrayType => (only .primitiveType + only .classType) * only .arrayDimensions
  | .arrayDimensions => only .arrayTypeDim * (only .arrayTypeDim)∗
  | .typeArguments => (child .type)∗
  | .block => (child .statement)∗
  | .localVariableDeclaration =>
    only .modifierList * child .type * (only .variableDeclarator * (only .variableDeclarator)∗)
  | .expressionStatement => child .expr
  | .returnStatement => 1 + child .expr
  | .ifStatement => child .expr * (child .statement + 1) * (child .statement + 1)
  | .whileStatement => child .expr * (child .statement + 1)
  | .foreachStatement => only .localVariableDeclaration * child .expr * (child .statement + 1)
  | .tryStatement => only .block * (only .catchClause * (only .catchClause)∗)
  | .catchClause => only .catchParameter * only .block
  | .assignmentExpression | .infixExpression => child .expr * child .expr
  | .unaryExpression | .parenthesizedExpression | .fieldAccess => child .expr
  | .methodCall => (1 + child .expr) * only .argumentList
  | .argumentList => (child .expr)∗
  | .constructorCall => only .classType * only .argumentList
  | .methodReference => child .expr * (1 + only .typeArguments)
  | .classLiteral | .typeExpression => child .type
  | .thisExpression => 1 + only .typeExpression
  | .modifier | .annotationUse | .variableDeclaratorId | .primitiveType | .arrayTypeDim | .voidType
  | .literal | .ambiguousName => 1
  | _ => 0

namespace Content

open Layout

/-- Nodes whose first child keeps its meaning are laid out as their productions say. -/
theorem mem_layout_of_shadow {k : Kind} (hk : Piece.isQualified k = false) :
    ∀ w ∈ shadow (content true k), w ∈ layout k := by
  change shadow (content true k) ≤ layout k
  unfold content layout
  split
  any_goals cases hk
  all_goals simp only [Content.condition, value, typed, statement, semicolon, declarators, parameters,
    Content.resultType, operand, listed, dotted, broken, due_true, junk_true, if_true, shadow_add,
    shadow_mul, shadow_kstar, shadow_mark, shadow_word, shadow_one, shadow_zero, shadow_one_only,
    shadow_isValue, shadow_isType, shadow_contains, shadow_modifierKeywords,
    shadow_primitiveKeywords, shadow_literalTokens, shadow_isPrefix, shadow_isAssignment,
    shadow_precedence, add_zero, mul_one, one_mul, add_idem, kstar_one, kstar_zero, kstar_add_one,
    kstar_mul_one_add, mul_kstar_add_self, one_add_add_one, le_refl]
  exact fun w hw => by cases hw

end Content

end JavaSyntax
