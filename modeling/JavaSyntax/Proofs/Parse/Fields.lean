import JavaSyntax.Proofs.Expression.Operators
import JavaSyntax.Proofs.Grammar.Placement
import JavaSyntax.Proofs.Parse.Layout
import JavaSyntax.Proofs.Parse.Made
import JavaSyntax.Proofs.View.Total
import JavaSyntax.Proofs.View.Variables

namespace JavaSyntax

open Piece Content Computability

namespace Piece

variable {ps qs : List Piece} {k : Kind}

/-- The first token of the pieces starts a type. -/
def StartsType (ps : List Piece) : Prop :=
  ∃ t ts, tokensOfAll ps = t :: ts ∧ Grammar.startsType t.kind = true

theorem startsType_of_classType (h : symbols qs ∈ content true .classType) : StartsType qs := by
  obtain ⟨_, ⟨_, rfl, v, _, rfl⟩, w, _, hs⟩ := h
  obtain ⟨t, more, rfl, ht, _⟩ := of_symbols_token hs.symm
  refine ⟨t, tokensOfAll more, rfl, ?_⟩
  rw [ht]
  rfl

theorem startsType_of_primitiveType (h : symbols qs ∈ content true .primitiveType) : StartsType qs := by
  obtain ⟨j, hj, hs⟩ := h
  obtain ⟨t, more, rfl, rfl, _⟩ := of_symbols_token hs
  refine ⟨t, tokensOfAll more, rfl, ?_⟩
  rw [Grammar.startsType, hj, Bool.or_true]

theorem StartsType.node (h : StartsType qs) (k : Kind) (ps : List Piece) :
    StartsType (.node k qs :: ps) := by
  obtain ⟨t, ts, htokens, ht⟩ := h
  exact ⟨t, ts ++ tokensOfAll ps, by rw [tokensOfAll_node, htokens, List.cons_append], ht⟩

/-- A type starts with the keyword of a primitive type or with a name. -/
theorem startsType_of_isType (hf : (Piece.node k qs).Formed true) (hk : k.isType = true) :
    StartsType qs := by
  cases k with
  | primitiveType => exact startsType_of_primitiveType hf.1.1
  | classType => exact startsType_of_classType hf.1.1
  | arrayType =>
    obtain ⟨_, rfl | rfl, _, rfl, hs⟩ := hf.1.1
    · obtain ⟨rs, more, rfl, _⟩ := of_symbols_node hs.symm
      exact (startsType_of_primitiveType hf.2.1.1.1).node _ _
    · obtain ⟨rs, more, rfl, _⟩ := of_symbols_node hs.symm
      exact (startsType_of_classType hf.2.1.1.1).node _ _
  | _ => cases hk

/-- What stands behind the modifiers of a field is a type, or `void`, and its tokens tell which. -/
theorem of_mem_fieldDeclaration (hf : (Piece.node .fieldDeclaration ps).Formed true) :
    ∃ ms k qs rest, ps = .node .modifierList ms :: .node k qs :: rest ∧
      (k = .voidType ∧ (tokensOfAll qs).map Token.kind = [.voidKw] ∨
        k.isType = true ∧ (tokensOfAll qs).map Token.kind ≠ [.voidKw]) := by
  have hcontent := hf.1.1
  simp only [content, resultType, typed, due_true, mul_assoc] at hcontent
  obtain ⟨_, rfl, _, ⟨v, hv, w, _, rfl⟩, hs⟩ := hcontent
  obtain ⟨ms, more, rfl, hmore⟩ := of_symbols_node hs.symm
  rcases hv with rfl | ⟨k, hk, rfl⟩
  · obtain ⟨qs, rest, rfl, _⟩ := of_symbols_node hmore
    refine ⟨ms, _, qs, rest, rfl, .inl ⟨rfl, ?_⟩⟩
    have hqs : symbols qs = [.token .voidKw true] := hf.2.2.1.1.1
    obtain ⟨t, _, rfl, ht, hnil⟩ := of_symbols_token hqs
    rw [of_symbols_nil hnil, tokensOfAll_token, List.map_cons, ht]
    rfl
  · obtain ⟨qs, rest, rfl, _⟩ := of_symbols_node hmore
    refine ⟨ms, k, qs, rest, rfl, .inr ⟨hk, fun hvoid => ?_⟩⟩
    obtain ⟨t, ts, htokens, ht⟩ := startsType_of_isType hf.2.2.1 hk
    rw [htokens, List.map_cons] at hvoid
    rw [(List.cons.inj hvoid).1] at ht
    cases ht

end Piece

namespace Layout

/-- Behind its modifiers and its type a field has one declarator or more. -/
theorem eq_of_mem_fieldDeclaration {ks : List Kind} (h : ks ∈ layout .fieldDeclaration) :
    ∃ ty d ds, ks = .modifierList :: ty :: d :: ds ∧ ∀ k ∈ d :: ds, k = .variableDeclarator := by
  obtain ⟨_, ⟨_, hm, v, hv, rfl⟩, w, hw, rfl⟩ := h
  obtain ⟨ty, rfl⟩ : ∃ ty, v = [ty] := by
    rcases hv with hv | ⟨ty, _, hv⟩
    · exact ⟨_, mem_only.mp hv⟩
    · exact ⟨ty, hv⟩
  obtain ⟨hne, hall⟩ := contains_of_many (d := .only .variableDeclarator) hw
  obtain ⟨d, ds, rfl⟩ := List.exists_cons_of_ne_nil hne
  rw [mem_only.mp hm]
  exact ⟨ty, d, ds, rfl, fun k hk => beq_iff_eq.mp (hall k hk)⟩

end Layout

namespace FieldDeclaration

variable {t : Tree} {text : String} {p : Parse}

/-- A field consists of modifiers, a type and declarators, and its type is found from the field and from
each of its variables. -/
structure Typed (f : FieldDeclaration t) : Prop where
  children : ∃ m ty d ds, t.children f.node = m :: ty :: d :: ds ∧ t.kind m = .modifierList ∧
    Category.type.contains (t.kind ty) = true ∧ ∀ c ∈ d :: ds, t.kind c = .variableDeclarator
  typeNode : f.typeNode.isSome = true
  declaredType : ∀ x ∈ f.variableIds, (VariableDeclaratorId.declaredType x).isSome = true

/-- In the place of the type of a field stands `void`. -/
def IsVoid (text : String) (f : FieldDeclaration t) : Prop :=
  ∃ m ty rest, t.children f.node = m :: ty :: rest ∧
    (tokensIn text (t.span ty)).map Token.kind = [.voidKw]

/-- The variables of a field have its type. -/
theorem declaredType_eq {f : FieldDeclaration t} {x : VariableDeclaratorId t} (hx : x ∈ f.variableIds) :
    VariableDeclaratorId.declaredType x = f.typeNode := by
  rw [VariableDeclaratorId.declaredType, View.owner_of_mem_variableIds hx]
  dsimp only
  rw [f.kind_node]
  rfl

theorem isSome_typeNode {f : FieldDeclaration t} {ty : NodeId} (h : ty ∈ t.children f.node)
    (hk : Category.type.contains (t.kind ty) = true) : f.typeNode.isSome = true := by
  obtain ⟨w, hw⟩ := View.exists_firstUnder (d := .type) (List.mem_map_of_mem h) hk
  exact Option.isSome_of_eq_some hw

theorem typeNode_eq_none {f : FieldDeclaration t} (h : ∀ c ∈ t.children f.node,
    Category.type.contains (t.kind c) = false) : f.typeNode = none :=
  List.findSome?_eq_none_iff.mpr fun c hc => dif_neg (Bool.eq_false_iff.mp (h c hc))

/-- A declarator of a text declares a variable. -/
theorem exists_mem_variableIds (hp : parse text = .ok p ∨ parseExpression text = .ok p)
    {f : FieldDeclaration p.tree} (d : VariableDeclarator p.tree) (hd : d.node ∈ p.tree.children f.node) :
    ∃ x, x ∈ f.variableIds := by
  obtain ⟨x, hx⟩ := View.exists_mem_allUnder (d := .only .variableDeclaratorId)
    ((keepsPromises_of_parsed hp).promised d) (beq_self_eq_true _)
  exact ⟨x, View.mem_variableIds.mpr ⟨d, hd, View.mem_allUnder.mp hx⟩⟩

/-- In a text without errors the children of a field are modifiers, what stands for its type, and
declarators. -/
theorem exists_children (hp : parse text = .ok p ∨ parseExpression text = .ok p) (he : p.errors = [])
    (f : FieldDeclaration p.tree) : ∃ m ty d ds, p.tree.children f.node = m :: ty :: d :: ds ∧
      p.tree.kind m = .modifierList ∧ (∀ c ∈ d :: ds, p.tree.kind c = .variableDeclarator) ∧
      (p.tree.kind ty = .voidType ∧ (tokensIn text (p.tree.span ty)).map Token.kind = [.voidKw] ∨
        Category.type.contains (p.tree.kind ty) = true ∧
          (tokensIn text (p.tree.span ty)).map Token.kind ≠ [.voidKw]) := by
  have hnode := f.kind_node
  obtain ⟨ty', d', ds', hks, hdeclarators⟩ :=
    Layout.eq_of_mem_fieldDeclaration ((laidOut_tree hp he).children_mem rfl f)
  obtain ⟨m, _, hchildren, hm, hks⟩ := List.map_eq_cons_iff.mp hks
  obtain ⟨ty, _, rfl, hty, hks⟩ := List.map_eq_cons_iff.mp hks
  obtain ⟨d, ds, rfl, rfl, rfl⟩ := List.map_eq_cons_iff.mp hks
  refine ⟨m, ty, d, ds, hchildren, hm, fun c hc => hdeclarators _ (List.mem_map_of_mem hc), ?_⟩
  obtain ⟨ps, hmade⟩ := exists_made hp (fun _ : true = true => he)
    (Tree.lt_size_of_isNode (by rw [hnode]; rfl)) (by rw [hnode]; rfl)
  have hformed := hmade.formed
  rw [hnode] at hformed
  obtain ⟨ms, k, qs, rest, rfl, hkind⟩ := of_mem_fieldDeclaration hformed
  have hkinds := hmade.kinds_eq
  have htokens := hmade.childTokens_eq
  rw [hchildren] at hkinds htokens
  have hk : p.tree.kind ty = k := (List.cons.inj (List.cons.inj hkinds).2).1
  have hqs : tokensIn text (p.tree.span ty) = tokensOfAll qs :=
    (List.cons.inj (List.cons.inj htokens).2).1
  rw [hk, hqs, contains_type_eq]
  exact hkind

/-- In a text without errors a field has a type just if `void` does not stand in the place of one. With
`void` there, which is no type, the field is as any other, but neither the field nor any of its variables
has a type. -/
theorem parse_fields (hp : parse text = .ok p ∨ parseExpression text = .ok p) (he : p.errors = [])
    (f : FieldDeclaration p.tree) :
    (f.Typed ↔ ¬ f.IsVoid text) ∧
      (f.IsVoid text → (∃ m v d ds, p.tree.children f.node = m :: v :: d :: ds ∧
        p.tree.kind m = .modifierList ∧ p.tree.kind v = .voidType ∧
        ∀ c ∈ d :: ds, p.tree.kind c = .variableDeclarator) ∧
        f.typeNode = none ∧ f.variableIds ≠ [] ∧
        ∀ x ∈ f.variableIds, VariableDeclaratorId.declaredType x = none) := by
  obtain ⟨m, ty, d, ds, hchildren, hm, hds, hty⟩ := exists_children hp he f
  have hvoid : f.IsVoid text ↔ (tokensIn text (p.tree.span ty)).map Token.kind = [.voidKw] := by
    constructor
    · rintro ⟨_, _, _, hsame, htokens⟩
      cases hchildren.symm.trans hsame
      exact htokens
    · exact fun htokens => ⟨m, ty, d :: ds, hchildren, htokens⟩
  rcases hty with ⟨hk, htokens⟩ | ⟨hk, htokens⟩
  · have hnone : f.typeNode = none := by
      refine typeNode_eq_none ?_
      rw [hchildren, List.forall_mem_cons, List.forall_mem_cons, hm, hk]
      exact ⟨rfl, rfl, fun c hc => by rw [hds c hc]; rfl⟩
    have hfirst : d ∈ p.tree.children f.node := hchildren ▸ .tail _ (.tail _ (.head _))
    have hdeclarator : p.tree.kind d = .variableDeclarator := hds d (.head _)
    refine ⟨iff_of_false (fun h => ?_) (not_not_intro (hvoid.mpr htokens)),
      fun _ => ⟨⟨m, ty, d, ds, hchildren, hm, hk, hds⟩, hnone, ?_, fun x hx => ?_⟩⟩
    · have htype := h.typeNode
      rw [hnone] at htype
      cases htype
    · obtain ⟨x, hx⟩ := exists_mem_variableIds hp ⟨d, beq_iff_eq.mpr hdeclarator⟩ hfirst
      exact List.ne_nil_of_mem hx
    · rw [declaredType_eq hx, hnone]
  · have hsome : f.typeNode.isSome = true := isSome_typeNode (hchildren ▸ .tail _ (.head _)) hk
    refine ⟨iff_of_true ⟨⟨m, ty, d, ds, hchildren, hm, hk, hds⟩, hsome, fun x hx => ?_⟩
      fun h => htokens (hvoid.mp h), fun h => absurd (hvoid.mp h) htokens⟩
    rw [declaredType_eq hx]
    exact hsome

/-- A field with a type like any other, and two variables. -/
theorem parse_fields_array :
    let text := "class A \x7b static int[] a, b = a; \x7d"
    ∃ p, (parse text = .ok p ∨ parseExpression text = .ok p) ∧ p.errors = [] ∧
      ∃ f : FieldDeclaration p.tree, (f.Typed ↔ ¬ f.IsVoid text) ∧
        (f.IsVoid text → (∃ m v d ds, p.tree.children f.node = m :: v :: d :: ds ∧
          p.tree.kind m = .modifierList ∧ p.tree.kind v = .voidType ∧
          ∀ c ∈ d :: ds, p.tree.kind c = .variableDeclarator) ∧
          f.typeNode = none ∧ f.variableIds ≠ [] ∧
          ∀ x ∈ f.variableIds, VariableDeclaratorId.declaredType x = none) := by
  intro text
  have hp := parse_eq_of_no_problems text (by decide +kernel)
  let t : Tree := .ofBranch text (Piece.tree .compilationUnit (fileParts text)).disambiguated
  let f : FieldDeclaration t := ⟨4, by decide +kernel⟩
  exact ⟨_, .inl hp, rfl, f, parse_fields (.inl hp) rfl f⟩

/-- A field and its variable can be without a type. -/
theorem typeNode_of_void :
    let text := "class A \x7b void x; \x7d"
    ∃ p, parse text = .ok p ∧ p.errors = [] ∧
      ∃ (f : FieldDeclaration p.tree) (x : VariableDeclaratorId p.tree), f.typeNode = none ∧
        x ∈ f.variableIds ∧ VariableDeclaratorId.declaredType x = none ∧
        (p.tree.children f.node).map p.tree.kind = [.modifierList, .voidType, .variableDeclarator] := by
  intro text
  have hp := parse_eq_of_no_problems text (by decide +kernel)
  let t : Tree := .ofBranch text (Piece.tree .compilationUnit (fileParts text)).disambiguated
  let f : FieldDeclaration t := ⟨4, by decide +kernel⟩
  let d : VariableDeclarator t := ⟨7, by decide +kernel⟩
  let x : VariableDeclaratorId t := ⟨8, by decide +kernel⟩
  have hkinds : (t.children f.node).map t.kind = [.modifierList, .voidType, .variableDeclarator] := by
    decide +kernel
  have hd : d.node ∈ t.children f.node := by decide +kernel
  have hx : x ∈ f.variableIds := View.mem_variableIds.mpr ⟨d, hd, by decide +kernel⟩
  have hnone : f.typeNode = none := typeNode_eq_none (by decide +kernel)
  exact ⟨_, hp, rfl, f, x, hnone, hx,
    (declaredType_eq hx).trans hnone, hkinds⟩

end FieldDeclaration

end JavaSyntax
