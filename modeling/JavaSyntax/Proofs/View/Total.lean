import JavaSyntax.Proofs.Parse.Layout
import JavaSyntax.View.Statement

namespace JavaSyntax

open Piece Content Layout Computability

/-- What the children of a node are in every text, as far as an accessor relies on it. -/
def Promised (k : Kind) (ks : List Kind) : Prop :=
  match k with
  | .methodReference | .classLiteral | .typeExpression | .arrayType | .arrayDimensions =>
    ks ∈ layout k
  | .infixExpression | .assignmentExpression => ks ≠ []
  | .formalParameter | .catchParameter | .variableDeclarator => .variableDeclaratorId ∈ ks
  | .localVariableDeclaration => .variableDeclarator ∈ ks
  | .foreachStatement => ks.head? = some .localVariableDeclaration
  | _ => True

section

variable {ks : List Kind} {l : Language Kind} {k : Kind}

theorem mem_of_only_mul (h : ks ∈ only k * l) : k ∈ ks := by
  obtain ⟨v, hv, w, _, rfl⟩ := h
  exact List.mem_append_left _ (mem_only.mp hv ▸ List.mem_cons_self)

theorem mem_of_mul_only (h : ks ∈ l * only k) : k ∈ ks := by
  obtain ⟨v, _, w, hw, rfl⟩ := h
  exact List.mem_append_right _ (mem_only.mp hw ▸ List.mem_cons_self)

theorem head?_of_only_mul (h : ks ∈ only k * l) : ks.head? = some k := by
  obtain ⟨v, hv, w, _, rfl⟩ := h
  rw [mem_only.mp hv]
  rfl

theorem contains_of_child_mul {d : Category} (h : ks ∈ child d * l) :
    ∃ k ∈ ks.head?, d.contains k = true := by
  obtain ⟨k, v, hk, _, rfl⟩ := mem_oneOf_mul.mp h
  exact ⟨k, rfl, hk⟩

/-- One child of a category and then more of the same. -/
theorem contains_of_many {d : Category} (h : ks ∈ child d * (child d)∗) :
    ks ≠ [] ∧ ∀ k ∈ ks, d.contains k = true := by
  obtain ⟨k, v, hk, hv, rfl⟩ := mem_oneOf_mul.mp h
  refine ⟨List.cons_ne_nil k v, List.forall_mem_cons.mpr ⟨hk, fun j hj => ?_⟩⟩
  obtain ⟨parts, rfl, hparts⟩ := Language.mem_kstar.mp hv
  obtain ⟨part, hpart, hj⟩ := List.mem_flatten.mp hj
  obtain ⟨i, hi, rfl⟩ := hparts part hpart
  rw [List.mem_singleton.mp hj]
  exact hi

/-- An operator has something in front of it. -/
theorem ne_nil_of_oneOf_mul {P : Kind → Bool} (h : ks ∈ oneOf P * l) : ks ≠ [] := by
  obtain ⟨k, v, _, _, rfl⟩ := mem_oneOf_mul.mp h
  exact List.cons_ne_nil k v

theorem promised_of_shadow (hk : isQualified k = false) (h : ks ∈ shadow (content false k)) :
    Promised k ks := by
  unfold Promised
  split
  · cases hk
  · cases hk
  · obtain ⟨_, hnone, _⟩ : ks ∈ shadow 0 := h
    cases hnone
  · exact mem_layout_of_shadow hk _ h
  · exact mem_layout_of_shadow hk _ h
  · rw [content, operand, mul_assoc, mul_assoc, shadow_mul, shadow_nodeOf] at h
    exact ne_nil_of_oneOf_mul h
  · rw [content, operand, mul_assoc, mul_assoc, shadow_mul, shadow_nodeOf] at h
    exact ne_nil_of_oneOf_mul h
  · rw [content, shadow_mul, shadow_one_only] at h
    exact mem_of_mul_only h
  · rw [content, shadow_mul, shadow_one_only] at h
    exact mem_of_mul_only h
  · rw [content, shadow_mul, shadow_one_only] at h
    exact mem_of_only_mul h
  · simp only [content, declarators, mul_assoc, shadow_mul, shadow_add, shadow_one_only] at h
    obtain ⟨_, _, _, ⟨_, _, w, hw | hw, rfl⟩, rfl⟩ := h
    · exact List.mem_append_right _ (List.mem_append_right _ (mem_of_only_mul hw))
    · rw [mem_only.mp hw]
      exact List.mem_append_right _ (List.mem_append_right _ List.mem_cons_self)
  · simp only [content, mul_assoc, shadow_mul, shadow_mark, shadow_due (shadow_mark _), one_mul,
      shadow_one_only] at h
    exact head?_of_only_mul h
  · trivial

end

theorem admits_promised : Branch.Admits fun h cs => Promised h.kind (cs.map Head.kind) where
  named _ := trivial
  wrapped h ht := ⟨h.kind, by rwa [contains_type_eq], rfl⟩

/-- A node keeps what is promised of it when it has settled its first child. -/
theorem promised_of_formed {k : Kind} {ps : List Piece} (hf : (Piece.node k ps).Formed false)
    (image : Option String) : Promised k ((Head.settle ⟨k, image⟩ (heads ps)).map Head.kind) := by
  cases hk : isQualified k with
  | true =>
    have hlayout := settled_of_isQualified hk hf.1.1 image
    simp only [isQualified, Bool.or_eq_true, beq_iff_eq] at hk
    rcases hk with (rfl | rfl) | rfl
    · exact hlayout
    · exact hlayout
    · trivial
  | false =>
    rw [settle_eq_self hk]
    exact promised_of_shadow hk (shadow_of_mem hf.1.1)

/-- All nodes of the tree have what accessors rely on. -/
def Tree.KeepsPromises (t : Tree) : Prop := ∀ n, Promised (t.kind n) ((t.children n).map t.kind)

theorem keepsPromises_of_parsed {text : String} {p : Parse}
    (hp : parse text = .ok p ∨ parseExpression text = .ok p) : p.tree.KeepsPromises := by
  intro n
  by_cases hn : n < p.tree.size
  · have hall := forall_parsed hp (fun h => Bool.noConfusion h) admits_promised
      fun _ _ hf _ => promised_of_formed hf _
    rw [← Tree.map_kind_heads]
    exact Tree.forall_heads (R := fun h cs => Promised h.kind (cs.map Head.kind)) hall hn
  · have hkind : p.tree.kind n = .leftParen := by
      rw [Tree.kind, Tree.row, Array.getElem?_eq_none (Nat.le_of_not_lt hn)]
      rfl
    rw [hkind]
    trivial

namespace View

variable {t : Tree} {c d : Category} {n m : NodeId} {k : Kind}

theorem of?_of_contains (h : c.contains (t.kind n) = true) : of? t c n = some ⟨n, h⟩ := dif_pos h

theorem exists_firstUnder (hk : k ∈ (t.children n).map t.kind) (hd : d.contains k = true) :
    ∃ w, firstUnder t n d = some w := by
  obtain ⟨m, hm, rfl⟩ := List.mem_map.mp hk
  cases hfirst : firstUnder t n d with
  | some w => exact ⟨w, rfl⟩
  | none =>
    have hnone := List.findSome?_eq_none_iff.mp hfirst m hm
    rw [of?_of_contains hd] at hnone
    cases hnone

theorem exists_mem_allUnder (hk : k ∈ (t.children n).map t.kind) (hd : d.contains k = true) :
    ∃ w, w ∈ allUnder t n d := by
  obtain ⟨m, hm, rfl⟩ := List.mem_map.mp hk
  exact ⟨_, List.mem_filterMap.mpr ⟨m, hm, of?_of_contains hd⟩⟩

theorem exists_childAt_zero {v : View t c}
    (h : ∃ k ∈ ((t.children v.node).map t.kind).head?, d.contains k = true) :
    ∃ w, v.childAt 0 d = some w := by
  obtain ⟨k, hk, hd⟩ := h
  rw [List.head?_map] at hk
  obtain ⟨n, hn, rfl⟩ := Option.map_eq_some_iff.mp hk
  rw [List.head?_eq_getElem?] at hn
  refine ⟨⟨n, hd⟩, ?_⟩
  rw [childAt, Tree.child?, hn]
  exact of?_of_contains hd

theorem expected_of_contains (h : d.contains (t.kind n) = true) : expected d n = .ok ⟨n, h⟩ := by
  rw [expected, of?_of_contains h]

variable {v : View t c}

theorem exists_firstNode (h : t.children v.node ≠ []) :
    ∃ n ∈ (t.children v.node).head?, v.firstNode = .ok n := by
  rw [firstNode, Tree.firstChild]
  cases hn : (t.children v.node).head? with
  | none => exact absurd (List.head?_eq_none_iff.mp hn) h
  | some n => exact ⟨n, rfl, rfl⟩

theorem exists_lastNode (h : t.children v.node ≠ []) :
    ∃ n ∈ (t.children v.node).getLast?, v.lastNode = .ok n := by
  rw [lastNode, Tree.lastChild]
  cases hn : (t.children v.node).getLast? with
  | none => exact absurd (List.getLast?_eq_none_iff.mp hn) h
  | some n => exact ⟨n, rfl, rfl⟩

/-- Nodes whose children all belong to a category, and which have some. -/
def Filled (v : View t c) (d : Category) : Prop :=
  t.children v.node ≠ [] ∧ ∀ n ∈ t.children v.node, d.contains (t.kind n) = true

theorem filled_of_many (h : (t.children v.node).map t.kind ∈ Layout.child d * (Layout.child d)∗) : v.Filled d := by
  obtain ⟨hne, hall⟩ := contains_of_many h
  exact ⟨fun hnil => hne (List.map_eq_nil_iff.mpr hnil), fun n hn => hall _ (List.mem_map_of_mem hn)⟩

theorem filled_of_child (h : (t.children v.node).map t.kind ∈ Layout.child d) : v.Filled d := by
  have hle : Layout.child d ≤ Layout.child d * (Layout.child d)∗ :=
    calc
      Layout.child d = Layout.child d * 1 := (mul_one _).symm
      _ ≤ Layout.child d * (Layout.child d)∗ := mul_le_mul_right one_le_kstar _
  exact filled_of_many (hle h)

theorem Filled.firstAs (h : v.Filled d) : ∃ w, v.firstAs d = .ok w := by
  obtain ⟨n, hn, hfirst⟩ := exists_firstNode h.1
  refine ⟨⟨n, h.2 n (List.mem_of_head? hn)⟩, ?_⟩
  rw [View.firstAs, hfirst]
  exact expected_of_contains _

theorem Filled.lastAs (h : v.Filled d) : ∃ w, v.lastAs d = .ok w := by
  obtain ⟨n, hn, hlast⟩ := exists_lastNode h.1
  refine ⟨⟨n, h.2 n (List.mem_of_getLast? hn)⟩, ?_⟩
  rw [View.lastAs, hlast]
  exact expected_of_contains _

end View

namespace Tree.KeepsPromises

variable {t : Tree} {k : Kind} {d : Category} (ht : t.KeepsPromises)

include ht

theorem promised (v : View t (.only k)) : Promised k ((t.children v.node).map t.kind) := by
  have hkind : t.kind v.node = k := beq_iff_eq.mp v.contains_kind
  have hnode := ht v.node
  rwa [hkind] at hnode

theorem filled_arrayDimensions (v : ArrayDimensions t) : v.Filled (.only .arrayTypeDim) :=
  View.filled_of_many (ht.promised v)

theorem filled_typeExpression (v : TypeExpression t) : v.Filled .type :=
  View.filled_of_child (ht.promised v)

theorem filled_classLiteral (v : ClassLiteral t) : v.Filled .type :=
  View.filled_of_child (ht.promised v)

/-- A method reference refers to something. -/
theorem exists_operand (v : MethodReference t) : ∃ e, MethodReference.operand v = .ok e := by
  obtain ⟨e, he⟩ := View.exists_childAt_zero (contains_of_child_mul (ht.promised v))
  refine ⟨e, ?_⟩
  rw [MethodReference.operand, View.qualifier, he]

theorem exists_variableId (v : View t (.only k))
    (hk : Promised k = fun ks => Kind.variableDeclaratorId ∈ ks) : ∃ i, v.variableId = .ok i := by
  have hmem := ht.promised v
  rw [hk] at hmem
  obtain ⟨i, hi⟩ := View.exists_firstUnder (d := .only .variableDeclaratorId) hmem (beq_self_eq_true _)
  refine ⟨i, ?_⟩
  rw [View.variableId, View.child, hi]

/-- The loop variable of a `for` has a declaration with a declarator, and that has a name's place. -/
theorem exists_loopVariable (v : ForeachStatement t) :
    ∃ i, ForeachStatement.variableId v = .ok i := by
  obtain ⟨declaration, hdeclaration⟩ := View.exists_childAt_zero (v := v)
    (d := .only .localVariableDeclaration) ⟨_, ht.promised v, beq_self_eq_true _⟩
  obtain ⟨declarator, hdeclarator⟩ := View.exists_mem_allUnder (d := .only .variableDeclarator)
    (ht.promised declaration) (beq_self_eq_true _)
  obtain ⟨i, hi⟩ := View.exists_mem_allUnder (d := .only .variableDeclaratorId)
    (ht.promised declarator) (beq_self_eq_true _)
  have hids : i ∈ declaration.variableIds := List.mem_flatMap.mpr ⟨declarator, hdeclarator, hi⟩
  rw [ForeachStatement.variableId, ForeachStatement.element, hdeclaration, Option.bind_some]
  cases hhead : declaration.variableIds.head? with
  | none =>
    rw [List.head?_eq_none_iff.mp hhead] at hids
    cases hids
  | some j => exact ⟨j, rfl⟩

theorem exists_isVarargs (v : ArrayType t) : ∃ b, ArrayType.isVarargs v = .ok b := by
  rw [ArrayType.isVarargs]
  split
  · exact ⟨false, rfl⟩
  · next dims _ =>
    obtain ⟨w, hw⟩ := (ht.filled_arrayDimensions dims).lastAs
    rw [hw]
    exact ⟨_, rfl⟩

theorem exists_isVarargs_parameter (v : FormalParameter t) : ∃ b, FormalParameter.isVarargs v = .ok b := by
  rw [FormalParameter.isVarargs]
  split
  · exact ⟨false, rfl⟩
  · next array _ => exact ht.exists_isVarargs array

theorem exists_isVarargs_method (v : MethodDeclaration t) :
    ∃ b, MethodDeclaration.isVarargs v = .ok b := by
  rw [MethodDeclaration.isVarargs]
  split
  · exact ⟨false, rfl⟩
  · next parameter _ => exact ht.exists_isVarargs_parameter parameter

end Tree.KeepsPromises

/-- The kinds of the nodes that always have a child. -/
def parentKinds : List Kind :=
  [.arrayDimensions, .arrayType, .typeExpression, .classLiteral, .methodReference, .infixExpression,
    .assignmentExpression]

theorem ne_nil_of_promised {k : Kind} {ks : List Kind} (hk : k ∈ parentKinds) (h : Promised k ks) :
    ks ≠ [] := by
  have hchild : ∀ {d : Category}, ks ∈ child d → ks ≠ [] := by
    rintro d ⟨k, _, rfl⟩
    exact List.cons_ne_nil k []
  simp only [parentKinds, List.mem_cons, List.not_mem_nil, or_false] at hk
  rcases hk with rfl | rfl | rfl | rfl | rfl | rfl | rfl
  · exact (contains_of_many (d := .only .arrayTypeDim) h).1
  · obtain ⟨_, hprimitive | hclass, _, _, rfl⟩ := h
    · exact List.append_ne_nil_of_left_ne_nil (mem_only.mp hprimitive ▸ List.cons_ne_nil _ _) _
    · exact List.append_ne_nil_of_left_ne_nil (mem_only.mp hclass ▸ List.cons_ne_nil _ _) _
  · exact hchild h
  · exact hchild h
  · exact ne_nil_of_oneOf_mul h
  · exact h
  · exact h

/-- The accessors that promise a part of a node find it at every node of the tree. -/
structure Tree.ViewsTotal (t : Tree) : Prop where
  operand : ∀ v : MethodReference t, ∃ e, MethodReference.operand v = .ok e
  typeOfExpression : ∀ v : TypeExpression t, ∃ ty, v.namedType = .ok ty
  typeOfLiteral : ∀ v : ClassLiteral t, ∃ ty, v.namedType = .ok ty
  parameterId : ∀ v : FormalParameter t, ∃ i, v.variableId = .ok i
  catchParameterId : ∀ v : CatchParameter t, ∃ i, v.variableId = .ok i
  declaratorId : ∀ v : VariableDeclarator t, ∃ i, v.variableId = .ok i
  loopVariableId : ∀ v : ForeachStatement t, ∃ i, ForeachStatement.variableId v = .ok i
  firstNode : ∀ k ∈ parentKinds, ∀ v : View t (.only k), ∃ n, v.firstNode = .ok n
  lastNode : ∀ k ∈ parentKinds, ∀ v : View t (.only k), ∃ n, v.lastNode = .ok n
  firstDimension : ∀ v : ArrayDimensions t, ∃ d, v.firstAs (.only .arrayTypeDim) = .ok d
  lastDimension : ∀ v : ArrayDimensions t, ∃ d, v.lastAs (.only .arrayTypeDim) = .ok d
  firstTypeOfExpression : ∀ v : TypeExpression t, ∃ ty, v.firstAs .type = .ok ty
  lastTypeOfExpression : ∀ v : TypeExpression t, ∃ ty, v.lastAs .type = .ok ty
  firstTypeOfLiteral : ∀ v : ClassLiteral t, ∃ ty, v.firstAs .type = .ok ty
  lastTypeOfLiteral : ∀ v : ClassLiteral t, ∃ ty, v.lastAs .type = .ok ty
  arrayVarargs : ∀ v : ArrayType t, ∃ b, ArrayType.isVarargs v = .ok b
  parameterVarargs : ∀ v : FormalParameter t, ∃ b, FormalParameter.isVarargs v = .ok b
  methodVarargs : ∀ v : MethodDeclaration t, ∃ b, MethodDeclaration.isVarargs v = .ok b

theorem Tree.KeepsPromises.viewsTotal {t : Tree} (ht : t.KeepsPromises) : t.ViewsTotal := by
  have hne : ∀ k ∈ parentKinds, ∀ v : View t (.only k), t.children v.node ≠ [] :=
    fun k hk v hnil => ne_nil_of_promised hk (ht.promised v) (List.map_eq_nil_iff.mpr hnil)
  exact {
    operand := ht.exists_operand
    typeOfExpression := fun v => (ht.filled_typeExpression v).firstAs
    typeOfLiteral := fun v => (ht.filled_classLiteral v).firstAs
    parameterId := fun v => ht.exists_variableId v rfl
    catchParameterId := fun v => ht.exists_variableId v rfl
    declaratorId := fun v => ht.exists_variableId v rfl
    loopVariableId := ht.exists_loopVariable
    firstNode := fun k hk v => (View.exists_firstNode (hne k hk v)).imp fun _ h => h.2
    lastNode := fun k hk v => (View.exists_lastNode (hne k hk v)).imp fun _ h => h.2
    firstDimension := fun v => (ht.filled_arrayDimensions v).firstAs
    lastDimension := fun v => (ht.filled_arrayDimensions v).lastAs
    firstTypeOfExpression := fun v => (ht.filled_typeExpression v).firstAs
    lastTypeOfExpression := fun v => (ht.filled_typeExpression v).lastAs
    firstTypeOfLiteral := fun v => (ht.filled_classLiteral v).firstAs
    lastTypeOfLiteral := fun v => (ht.filled_classLiteral v).lastAs
    arrayVarargs := ht.exists_isVarargs
    parameterVarargs := ht.exists_isVarargs_parameter
    methodVarargs := ht.exists_isVarargs_method }

/-- Whatever the errors in a text, no accessor that promises a part fails. -/
theorem parse_viewsTotal (text : String) :
    (∃ p, parse text = .ok p ∧ p.tree.ViewsTotal) ∧
      ∃ p, parseExpression text = .ok p ∧ p.tree.ViewsTotal :=
  ⟨⟨_, parse_eq text, (keepsPromises_of_parsed (.inl (parse_eq text))).viewsTotal⟩,
    ⟨_, parseExpression_eq text, (keepsPromises_of_parsed (.inr (parseExpression_eq text))).viewsTotal⟩⟩

end JavaSyntax
