import JavaSyntax.Proofs.Expression.Operators
import JavaSyntax.Proofs.Grammar.Shadow
import JavaSyntax.Proofs.Parse.Nodes
import JavaSyntax.View.Expression

namespace JavaSyntax

open Piece Content Layout Computability

namespace Layout

variable {P Q : Kind → Bool} {l : Language Kind} {w : List Kind}

theorem mem_oneOf_mul : w ∈ oneOf P * l ↔ ∃ k v, P k = true ∧ v ∈ l ∧ w = k :: v := by
  constructor
  · rintro ⟨_, ⟨k, hk, rfl⟩, v, hv, rfl⟩
    exact ⟨k, v, hk, hv, rfl⟩
  · rintro ⟨k, v, hk, hv, rfl⟩
    exact ⟨[k], ⟨k, hk, rfl⟩, v, hv, rfl⟩

end Layout

namespace Head

variable {P Q : Kind → Bool} {l : Language Kind}

/-- If every first child of some kinds is read as one of other kinds, the layout changes alike. -/
theorem settle_mem {h : Head} {cs : List Head}
    (hread : ∀ c : Head, P c.kind = true → Q (c.read (.ofNode h.kind h.image c.kind)).kind = true)
    (hcs : cs.map kind ∈ oneOf P * l) : (h.settle cs).map kind ∈ oneOf Q * l := by
  obtain ⟨k, v, hk, hv, hw⟩ := mem_oneOf_mul.mp hcs
  obtain ⟨c, ds, rfl, rfl, rfl⟩ := List.map_eq_cons_iff.mp hw
  exact mem_oneOf_mul.mpr ⟨_, _, hread c hk, hv, rfl⟩

/-- In front of `::` a type is read as an expression. -/
theorem expr_read_methodReference {c : Head} (hc : isOperand c.kind = true) (image : Option String) :
    Category.expr.contains (c.read (.ofNode .methodReference image c.kind)).kind = true := by
  rw [Reading.ofNode]
  split
  · rfl
  · split
    · rfl
    · next htype =>
      rw [isOperand, Bool.eq_false_iff.mpr htype, Bool.or_false] at hc
      exact hc

/-- In front of `.class` a name is read as a type. -/
theorem type_read_classLiteral {c : Head} (hc : c.kind = .ambiguousName ∨ c.kind.isType = true)
    (image : Option String) :
    Category.type.contains (c.read (.ofNode .classLiteral image c.kind)).kind = true := by
  rw [Reading.ofNode]
  split
  · rfl
  · next hname =>
    rw [contains_type_eq]
    exact hc.resolve_left hname

/-- In front of `.this` a name is read as a type expression. -/
theorem kind_read_thisExpression {c : Head} (hc : c.kind = .ambiguousName) (image : Option String) :
    (c.read (.ofNode .thisExpression image c.kind)).kind = .typeExpression := by
  rw [hc]
  rfl

end Head

namespace Piece

variable {ps : List Piece} {l : Language Symbol} {k : Kind} {clean : Bool}

theorem map_kind_heads (ps : List Piece) :
    (heads ps).map Head.kind = (symbols ps).filterMap Symbol.child? := by
  induction ps with
  | nil => rfl
  | cons p ps ih =>
    cases p with
    | token t i => exact ih
    | node k qs => exact congrArg (k :: ·) ih

theorem shadow_of_mem (h : symbols ps ∈ l) : (heads ps).map Head.kind ∈ shadow l :=
  ⟨_, h, (map_kind_heads ps).symm⟩

/-- A node that could lack one token has the same children with or without it. -/
theorem shadow_due (h : shadow l = 1) : shadow (due clean l) = 1 := by
  cases clean with
  | true => rw [due_true, h]
  | false =>
    calc
      shadow (due false l) = shadow l + shadow 1 := shadow_add l 1
      _ = 1 := by rw [h, shadow_one, add_idem]

theorem settle_eq_self (hk : isQualified k = false) (image : Option String) (cs : List Head) :
    Head.settle ⟨k, image⟩ cs = cs := by
  simp only [isQualified, Bool.or_eq_false_iff, beq_eq_false_iff_ne] at hk
  exact Head.settle_of_not_isQualified hk.1.1 hk.1.2 hk.2 cs

theorem settled_methodReference (h : symbols ps ∈ content clean .methodReference)
    (image : Option String) :
    (Head.settle ⟨.methodReference, image⟩ (heads ps)).map Head.kind ∈ layout .methodReference := by
  have hname : shadow (due clean (word .ident + word .newKw)) = 1 := by
    apply shadow_due
    simp only [shadow_add, shadow_word, add_idem]
  have hshadow := shadow_of_mem h
  simp only [content, shadow_mul, shadow_add, shadow_nodeOf, shadow_mark, shadow_one, shadow_one_only,
    hname, mul_one] at hshadow
  exact Head.settle_mem (fun c hc => Head.expr_read_methodReference hc image) hshadow

theorem settled_classLiteral (h : symbols ps ∈ content clean .classLiteral) (image : Option String) :
    (Head.settle ⟨.classLiteral, image⟩ (heads ps)).map Head.kind ∈ layout .classLiteral := by
  have hread : ∀ {P : Kind → Bool}, (∀ k, P k = true → k = .ambiguousName ∨ k.isType = true) →
      (heads ps).map Head.kind ∈ oneOf P →
      (Head.settle ⟨.classLiteral, image⟩ (heads ps)).map Head.kind ∈ child .type := by
    intro P hP hw
    rw [← mul_one (oneOf P)] at hw
    rw [child, ← mul_one (oneOf _)]
    exact Head.settle_mem (fun c hc => Head.type_read_classLiteral (hP _ hc) image) hw
  have hshadow := shadow_of_mem h
  simp only [content, shadow_mul, shadow_add, shadow_mark, shadow_one_only, shadow_isType,
    mul_one] at hshadow
  rcases hshadow with hname | htype
  · exact hread (fun k hk => .inl (beq_iff_eq.mp hk)) hname
  · exact hread (fun k hk => .inr (contains_type_eq ▸ hk)) htype

theorem settled_thisExpression (h : symbols ps ∈ content clean .thisExpression)
    (image : Option String) :
    (Head.settle ⟨.thisExpression, image⟩ (heads ps)).map Head.kind ∈ layout .thisExpression := by
  have hshadow := shadow_of_mem h
  simp only [content, shadow_mul, shadow_add, shadow_mark, shadow_one_only, mul_one] at hshadow
  rcases hshadow with hplain | hname
  · left
    rw [List.map_eq_nil_iff.mp ((Language.mem_one _).mp hplain)]
    rfl
  · right
    obtain ⟨c, hc, hkind⟩ := List.map_eq_singleton_iff.mp (mem_only.mp hname)
    rw [hc, Head.settle, List.map_singleton, Head.kind_read_thisExpression hkind]
    exact mem_only.mpr rfl

/-- What is settled is laid out alike in every text, with or without errors. -/
theorem settled_of_isQualified (hk : isQualified k = true) (h : symbols ps ∈ content clean k)
    (image : Option String) : (Head.settle ⟨k, image⟩ (heads ps)).map Head.kind ∈ layout k := by
  simp only [isQualified, Bool.or_eq_true, beq_iff_eq] at hk
  rcases hk with (rfl | rfl) | rfl
  · exact settled_methodReference h image
  · exact settled_classLiteral h image
  · exact settled_thisExpression h image

/-- Behind `::` stands a name, or `new`. -/
theorem image_of_methodReference (h : symbols ps ∈ content true .methodReference) :
    (payload none ps).isSome = true := by
  rw [content, due_true] at h
  obtain ⟨a, qs, colons, name, _, rfl | ⟨rs, rfl⟩⟩ := of_mem_methodReference h
  · rfl
  · rfl

end Piece

namespace Head

/-- The payload is as the view of the node reads it. -/
def Signed (h : Head) : Prop :=
  match h.kind with
  | .infixExpression => ∃ o : BinaryOperator, h.image = some o.token
  | .assignmentExpression => ∃ o : AssignmentOperator, h.image = some o.token
  | .unaryExpression => ∃ o : UnaryOperator, h.image = some o.token
  | .methodReference => h.image.isSome = true
  | _ => True

/-- A node as its view expects it. -/
def LaidOut (h : Head) (cs : List Head) : Prop := cs.map kind ∈ layout h.kind ∧ h.Signed

theorem admits_laidOut : Branch.Admits LaidOut where
  named _ := ⟨.inl rfl, trivial⟩
  wrapped h ht := ⟨⟨h.kind, by rwa [contains_type_eq], rfl⟩, trivial⟩

end Head

namespace Piece

variable {text : String} {k : Kind} {ps : List Piece}

theorem signed_of_formed (hf : (Piece.node k ps).Formed true)
    (ht : tokensOfAll ps <:+: significantTokens text) : Head.Signed ⟨k, payload none ps⟩ := by
  unfold Head.Signed
  split
  · next hk =>
    cases hk
    obtain ⟨_, _, _, _, _, o, _, himage, _⟩ := binary_of_formed hf ht
    exact ⟨o, himage⟩
  · next hk =>
    cases hk
    obtain ⟨_, _, _, _, _, o, _, himage, _⟩ := assignment_of_formed hf ht
    exact ⟨o, himage⟩
  · next hk =>
    cases hk
    obtain ⟨_, _, _, o, _, himage, _⟩ := unary_of_formed hf ht
    exact ⟨o, himage⟩
  · next hk =>
    cases hk
    exact image_of_methodReference hf.1.1
  · trivial

/-- A clean node is laid out when it has settled its first child. -/
theorem laidOut_of_formed (hf : (Piece.node k ps).Formed true)
    (ht : tokensOfAll ps <:+: significantTokens text) :
    Head.LaidOut ⟨k, payload none ps⟩ (Head.settle ⟨k, payload none ps⟩ (heads ps)) := by
  refine ⟨?_, signed_of_formed hf ht⟩
  cases hk : isQualified k with
  | true => exact settled_of_isQualified hk hf.1.1 _
  | false =>
    rw [settle_eq_self hk]
    exact mem_layout_of_shadow hk _ (shadow_of_mem hf.1.1)

end Piece

section

variable {text : String} {p : Parse}

theorem laidOut_of_no_errors (hp : parse text = .ok p ∨ parseExpression text = .ok p)
    (he : p.errors = []) {n : NodeId} (hn : n < p.tree.size) :
    (p.tree.head n).LaidOut (p.tree.heads n) :=
  Tree.forall_heads (forall_parsed hp (fun _ => he) Head.admits_laidOut fun _ _ => Piece.laidOut_of_formed) hn

/-- The children of every node are laid out as in a text without errors. -/
def Tree.LaidOut (t : Tree) : Prop :=
  ∀ n < t.size, (t.children n).map t.kind ∈ layout (t.kind n)

theorem laidOut_tree (hp : parse text = .ok p ∨ parseExpression text = .ok p) (he : p.errors = []) :
    p.tree.LaidOut := by
  intro n hn
  rw [← Tree.map_kind_heads]
  exact (laidOut_of_no_errors hp he hn).1

theorem Tree.LaidOut.children_mem {t : Tree} (ht : t.LaidOut) {k : Kind} (hk : k.isNode = true)
    (v : View t (.only k)) : (t.children v.node).map t.kind ∈ layout k := by
  have hkind : t.kind v.node = k := beq_iff_eq.mp v.contains_kind
  have hchildren := ht v.node (lt_size_of_isNode (by rwa [hkind]))
  rwa [hkind] at hchildren

theorem signed_of_no_errors (hp : parse text = .ok p ∨ parseExpression text = .ok p)
    (he : p.errors = []) {k : Kind} (hk : k.isNode = true) (v : View p.tree (.only k)) :
    Head.Signed ⟨k, v.image⟩ := by
  have hkind : p.tree.kind v.node = k := beq_iff_eq.mp v.contains_kind
  have hn : v.node < p.tree.size := Tree.lt_size_of_isNode (by rwa [hkind])
  have hsigned : Head.Signed ⟨p.tree.kind v.node, v.image⟩ := (laidOut_of_no_errors hp he hn).2
  rwa [hkind] at hsigned

/-- In a text without errors every node has the children that its view expects, in their places, and
the operators and method references are complete. -/
theorem parse_layout (hp : parse text = .ok p ∨ parseExpression text = .ok p) (he : p.errors = []) :
    (∀ n < p.tree.size, (p.tree.children n).map p.tree.kind ∈ layout (p.tree.kind n)) ∧
    (∀ v : InfixExpression p.tree, (InfixExpression.operator v).isSome = true) ∧
    (∀ v : AssignmentExpression p.tree, (AssignmentExpression.operator v).isSome = true) ∧
    (∀ v : UnaryExpression p.tree, (UnaryExpression.operator v).isSome = true) ∧
    ∀ v : MethodReference p.tree, v.image.isSome = true := by
  refine ⟨fun n hn => ?_, fun v => ?_, fun v => ?_, fun v => ?_, fun v => ?_⟩
  · rw [← Tree.map_kind_heads]
    exact (laidOut_of_no_errors hp he hn).1
  · obtain ⟨o, ho⟩ : ∃ o : BinaryOperator, v.image = some o.token := signed_of_no_errors hp he rfl v
    exact Option.isSome_of_eq_some (bind_of_token BinaryOperator.ofToken?_token ho)
  · obtain ⟨o, ho⟩ : ∃ o : AssignmentOperator, v.image = some o.token := signed_of_no_errors hp he rfl v
    exact Option.isSome_of_eq_some (bind_of_token AssignmentOperator.ofToken?_token ho)
  · obtain ⟨o, ho⟩ : ∃ o : UnaryOperator, v.image = some o.token := signed_of_no_errors hp he rfl v
    exact Option.isSome_of_eq_some (bind_of_token UnaryOperator.ofToken?_token ho)
  · exact signed_of_no_errors hp he rfl v

/-- A loop over variable arguments with a reference to a constructor, an assignment, a call and a class
literal. -/
theorem parse_layout_varargs :
    let text := "class A { void m(T... ts) { for (int i : ts) x += f(T::new, int[].class); } }"
    ∃ p, parse text = .ok p ∧ p.errors = [] ∧
      (∀ n < p.tree.size, (p.tree.children n).map p.tree.kind ∈ layout (p.tree.kind n)) ∧
      (∀ v : InfixExpression p.tree, (InfixExpression.operator v).isSome = true) ∧
      (∀ v : AssignmentExpression p.tree, (AssignmentExpression.operator v).isSome = true) ∧
      (∀ v : UnaryExpression p.tree, (UnaryExpression.operator v).isSome = true) ∧
      ∀ v : MethodReference p.tree, v.image.isSome = true := by
  intro text
  have hproblems : (Grammar.compilationUnit (significantTokens text)).problems = [] := by
    decide +kernel
  have herrors : (Grammar.compilationUnit (significantTokens text)).problems.map
      (Grammar.Problem.diagnostic text) = [] := List.map_eq_nil_iff.mpr hproblems
  exact ⟨_, parse_eq text, herrors, parse_layout (.inl (parse_eq text)) herrors⟩

end

end JavaSyntax
