import JavaSyntax.Proofs.Parse.LoopVariables
import JavaSyntax.Proofs.Tree.Looks

namespace JavaSyntax

open Piece Content Layout

/-- Where names of variables and declarators can be among the children of a node of any text. -/
structure PlacesVariables (k : Kind) (ks : List Kind) : Prop where
  named : namesVariable k = true → ks.count .variableDeclaratorId = 1
  nameless : namesVariable k = false → .variableDeclaratorId ∉ ks
  undeclared : declaresVariables k = false → .variableDeclarator ∉ ks

theorem placesVariables_of_avoids {k : Kind} {ks : List Kind} (hk : namesVariable k = false)
    (hname : .variableDeclaratorId ∉ ks) (hdeclarator : .variableDeclarator ∉ ks) : PlacesVariables k ks where
  named h := absurd (hk.symm.trans h) Bool.false_ne_true
  nameless _ := hname
  undeclared _ := hdeclarator

theorem admits_placesVariables :
    Branch.Admits fun h cs => PlacesVariables h.kind (cs.map Head.kind) where
  named _ := placesVariables_of_avoids rfl List.not_mem_nil List.not_mem_nil
  wrapped h ht := by
    refine placesVariables_of_avoids rfl (fun hmem => ?_) fun hmem => ?_
    all_goals
      rw [← List.mem_singleton.mp hmem] at ht
      cases ht

/-- A node keeps this when it has settled its first child. -/
theorem placesVariables_of_formed {k : Kind} {ps : List Piece} (hf : (Piece.node k ps).Formed false)
    (image : Option String) :
    PlacesVariables k ((Head.settle ⟨k, image⟩ (heads ps)).map Head.kind) := by
  cases hk : isQualified k with
  | true =>
    have hlayout := settled_of_isQualified hk hf.1.1 image
    have hkind : namesVariable k = false ∧ declaresVariables k = false := by
      revert hk
      cases k <;> decide
    exact placesVariables_of_avoids hkind.1 (avoids_layout (.inl ⟨rfl, hkind.1⟩) _ hlayout)
      (avoids_layout (.inr ⟨rfl, hkind.2⟩) _ hlayout)
  | false =>
    rw [settle_eq_self hk]
    have hshadow := shadow_of_mem hf.1.1
    exact ⟨fun h => count_of_mem_shadow h hshadow, fun h => avoids_shadow (.inl ⟨rfl, h⟩) _ hshadow,
      fun h => avoids_shadow (.inr ⟨rfl, h⟩) _ hshadow⟩

/-- All nodes have names of variables and declarators where they can be. -/
def Tree.PlacesVariables (t : Tree) : Prop :=
  ∀ n < t.size, JavaSyntax.PlacesVariables (t.kind n) ((t.children n).map t.kind)

theorem placesVariables_of_parsed {text : String} {p : Parse}
    (hp : parse text = .ok p ∨ parseExpression text = .ok p) : p.tree.PlacesVariables := by
  intro n hn
  have hall := forall_parsed hp (fun h => Bool.noConfusion h) admits_placesVariables
    fun _ _ hf _ => placesVariables_of_formed hf _
  rw [← Tree.map_kind_heads]
  exact Tree.forall_heads (R := fun h cs => JavaSyntax.PlacesVariables h.kind (cs.map Head.kind)) hall hn

namespace View

variable {t : Tree} {n : NodeId} {k : Kind} {w : View t (.only k)}

theorem length_allUnder (t : Tree) (n : NodeId) (k : Kind) :
    (allUnder t n (.only k)).length = ((t.children n).map t.kind).count k := by
  rw [allUnder]
  induction t.children n with
  | nil => rfl
  | cons m ms ih =>
    by_cases hm : t.kind m = k
    · have hview : of? t (.only k) m = some ⟨m, beq_iff_eq.mpr hm⟩ := of?_eq_some_iff.mpr rfl
      rw [List.filterMap_cons_some hview, List.length_cons, ih, List.map_cons, hm, List.count_cons_self]
    · have hview : of? t (.only k) m = none := dif_neg fun h => hm (beq_iff_eq.mp h)
      rw [List.filterMap_cons_none hview, ih, List.map_cons, List.count_cons_of_ne hm]

/-- The only child of a kind. -/
theorem allUnder_of_count (h : ((t.children n).map t.kind).count k = 1) (hw : w.node ∈ t.children n) :
    allUnder t n (.only k) = [w] := by
  rw [← length_allUnder] at h
  obtain ⟨v, hv⟩ := List.length_eq_one_iff.mp h
  have hmem := mem_allUnder.mpr hw
  rw [hv] at hmem
  rw [hv, List.mem_singleton.mp hmem]

end View

namespace Tree.PlacesVariables

variable {t : Tree} (ht : t.PlacesVariables) {k : Kind} {x : VariableDeclaratorId t}

include ht

/-- There is one name in what has a name. -/
theorem count_name (hk : namesVariable k = true) (v : View t (.only k)) :
    ((t.children v.node).map t.kind).count .variableDeclaratorId = 1 := by
  have hnode : (t.kind v.node).isNode = true := by
    rw [v.kind_node]
    revert hk
    cases k <;> decide
  exact (ht v.node (lt_size_of_isNode hnode)).named (by rwa [v.kind_node])

theorem variableId_eq_ok_iff (hk : namesVariable k = true) (v : View t (.only k)) :
    v.variableId = .ok x ↔ x.node ∈ t.children v.node := by
  have hone := ht.count_name hk v
  constructor
  · intro h
    rw [View.variableId] at h
    split at h
    · cases h
    · next y hy =>
      cases h
      exact View.mem_of_firstUnder hy
  · intro h
    rw [View.variableId, View.child, View.firstUnder_eq_head?, View.allUnder_of_count hone h]
    rfl

theorem exists_name (hk : namesVariable k = true) (v : View t (.only k)) :
    ∃ x : VariableDeclaratorId t, x.node ∈ t.children v.node := by
  have hmem := List.count_pos_iff.mp (Nat.lt_of_lt_of_eq Nat.one_pos (ht.count_name hk v).symm)
  obtain ⟨n, hn, hkind⟩ := List.mem_map.mp hmem
  exact ⟨⟨n, beq_iff_eq.mpr hkind⟩, hn⟩

/-- What has a name of its own declares it. -/
theorem owner_eq_iff_child (hk : k = .formalParameter ∨ k = .catchParameter) (v : View t (.only k)) :
    VariableDeclaratorId.owner x = some v.node ↔ x.node ∈ t.children v.node := by
  have hkind : t.kind v.node ≠ .variableDeclarator ∧ declaresVariables (t.kind v.node) = false := by
    rw [v.kind_node]
    rcases hk with rfl | rfl <;> decide
  rw [VariableDeclaratorId.owner_eq_some_iff]
  refine ⟨fun h => h.elim And.left ?_, fun h => .inl ⟨h, hkind.1⟩⟩
  rintro ⟨d, hd, _⟩
  have hmem : Kind.variableDeclarator ∈ (t.children v.node).map t.kind :=
    List.mem_map.mpr ⟨d.node, hd, d.kind_node⟩
  exact absurd hmem ((ht v.node (lt_size_of_mem_children hd)).undeclared hkind.2)

/-- What has declarators declares their names. -/
theorem owner_eq_iff_mem (hk : declaresVariables k = true) (v : View t (.only k)) :
    VariableDeclaratorId.owner x = some v.node ↔ x ∈ v.variableIds := by
  have hkind : namesVariable (t.kind v.node) = false := by
    rw [v.kind_node]
    revert hk
    cases k <;> decide
  rw [VariableDeclaratorId.owner_eq_some_iff, View.mem_variableIds]
  refine ⟨fun h => h.resolve_left ?_, .inr⟩
  rintro ⟨hx, _⟩
  have hmem : Kind.variableDeclaratorId ∈ (t.children v.node).map t.kind :=
    List.mem_map.mpr ⟨x.node, hx, x.kind_node⟩
  exact absurd hmem ((ht v.node (lt_size_of_mem_children hx)).nameless hkind)

/-- A declarator lists its only name. -/
theorem exists_of_declarator (d : VariableDeclarator t) :
    ∃ y : VariableDeclaratorId t, d.children (.only .variableDeclaratorId) = [y] ∧ d.variableId = .ok y := by
  obtain ⟨y, hy⟩ := ht.exists_name rfl d
  exact ⟨y, View.allUnder_of_count (ht.count_name rfl d) hy, (ht.variableId_eq_ok_iff rfl d).mpr hy⟩

/-- The variables of a declaration are those of its declarators. -/
theorem map_variableId (v : View t (.only k)) :
    v.declarators.map View.variableId = v.variableIds.map .ok := by
  rw [View.variableIds]
  induction v.declarators with
  | nil => rfl
  | cons d ds ih =>
    obtain ⟨y, hlist, hname⟩ := ht.exists_of_declarator d
    rw [List.map_cons, List.flatMap_cons, List.map_append, ih, hlist, hname]
    rfl

end Tree.PlacesVariables

namespace Branch

/-- Siblings come one after the other. -/
theorem Placed.pairwise {text : String} {b : Branch} (h : b.Placed text) :
    b.children.Pairwise fun c d => c.span.stop ≤ d.span.start := by
  have hordered := h.ordered
  generalize b.children = bs at hordered
  induction bs with
  | nil => exact .nil
  | cons b bs ih =>
    have hmore := ih fun before c d after hsplit =>
      hordered (b :: before) c d after (by rw [hsplit, List.cons_append])
    refine List.pairwise_cons.mpr ⟨fun c hc => ?_, hmore⟩
    cases bs with
    | nil => cases hc
    | cons d ds =>
      have hnext := hordered [] b d ds rfl
      rcases List.mem_cons.mp hc with rfl | hc
      · exact hnext
      · have := d.span.start_le_stop
        have := (List.pairwise_cons.mp hmore).1 c hc
        omega

end Branch

namespace Tree

variable {t : Tree} {n m : NodeId}

/-- One node and all below it come before another and all below it, also in the text. -/
def Before (t : Tree) (n m : NodeId) : Prop :=
  (∀ a ∈ t.preorder n, ∀ b ∈ t.preorder m, a < b) ∧ (t.span n).stop ≤ (t.span m).start

/-- Nodes stand in the text as they do in the tree. -/
structure InSourceOrder (t : Tree) : Prop where
  inside : ∀ n, ∀ c ∈ t.children n,
    (t.span n).start ≤ (t.span c).start ∧ (t.span c).stop ≤ (t.span n).stop
  ordered : ∀ n, (t.children n).Pairwise t.Before

theorem Rooted.map_span_children {b : Branch} (h : t.Rooted n b) :
    (t.children n).map t.span = b.children.map Branch.span :=
  h.map_children fun _ _ hc => hc.span_eq

theorem inSourceOrder_of_placed {text : String} (h : ∀ b ∈ t.root.subtrees, b.Placed text) :
    t.InSourceOrder where
  inside n c hc := by
    obtain ⟨b, hb, hrooted⟩ := exists_rooted (lt_size_of_mem_children hc)
    have hspan := List.mem_map_of_mem (f := t.span) hc
    rw [hrooted.map_span_children] at hspan
    obtain ⟨d, hd, heq⟩ := List.mem_map.mp hspan
    rw [← heq, hrooted.span_eq]
    exact (h b hb).inside d hd
  ordered n := by
    by_cases hn : n < t.size
    · obtain ⟨b, hb, hrooted⟩ := exists_rooted hn
      have hspans : (t.children n).Pairwise fun c d => (t.span c).stop ≤ (t.span d).start := by
        rw [← List.pairwise_map (f := t.span) (R := fun a b : Span => a.stop ≤ b.start),
          hrooted.map_span_children, List.pairwise_map]
        exact (h b hb).pairwise
      have hnodes : (t.preorder n).Pairwise (· < ·) := by
        rw [preorder_eq_range' hn]
        exact List.pairwise_lt_range'
      rw [preorder_eq, List.pairwise_cons, List.pairwise_flatMap] at hnodes
      exact hnodes.2.2.and hspans
    · have hnone : t.children n = [] := by
        rw [children, row, Array.getElem?_eq_none (Nat.le_of_not_lt hn)]
        rfl
      rw [hnone]
      exact .nil

theorem inSourceOrder_of_parsed {text : String} {p : Parse} (hp : parse text = .ok p) :
    p.tree.InSourceOrder := by
  rw [parse_eq] at hp
  cases hp
  exact inSourceOrder_of_placed (holds_fileParts text).placed.2

end Tree

/-- One view comes before another, in the tree and in the text. -/
def View.Precedes {t : Tree} {c : Category} (v w : View t c) : Prop :=
  v.node < w.node ∧ v.span.stop ≤ w.span.start

/-- The variables of a declaration are in source order, each of them once. -/
theorem Tree.InSourceOrder.pairwise_variableIds {t : Tree} (h : t.InSourceOrder)
    (ht : t.PlacesVariables) {c : Category} (v : View t c) : v.variableIds.Pairwise View.Precedes := by
  have hdeclarators : v.declarators.Pairwise fun d e => t.Before d.node e.node := by
    rw [View.declarators, View.children, View.allUnder, List.pairwise_filterMap]
    refine (h.ordered v.node).imp fun hbefore d hd e he => ?_
    rwa [View.of?_eq_some_iff.mp hd, View.of?_eq_some_iff.mp he]
  rw [View.variableIds, List.pairwise_flatMap]
  refine ⟨fun d _ => ?_, hdeclarators.imp fun {d e} hde x hx y hy => ?_⟩
  · obtain ⟨y, hlist, _⟩ := ht.exists_of_declarator d
    rw [hlist]
    exact List.pairwise_singleton ..
  · have hx := View.mem_allUnder.mp hx
    have hy := View.mem_allUnder.mp hy
    have hnodes := hde.1 x.node (mem_preorder_of_mem_children (mem_preorder_self t _) hx) y.node
      (mem_preorder_of_mem_children (mem_preorder_self t _) hy)
    have hinside := (h.inside _ _ hx).2
    have hinside' := (h.inside _ _ hy).1
    exact ⟨hnodes, Nat.le_trans hinside (Nat.le_trans hde.2 hinside')⟩

namespace VariableDeclaratorId

variable {t : Tree}

/-- The nodes that declare variables. -/
def ownerKinds : List Kind :=
  [.formalParameter, .catchParameter, .fieldDeclaration, .localVariableDeclaration]

/-- A variable belongs to one declaration, which tells its sort and its type. Seen from the declarations it is
the variable of a parameter, or among those of a field or a local variable declaration, of this one only. -/
structure Declared (x : VariableDeclaratorId t) : Prop where
  owned : ∃ k ∈ ownerKinds, ∃ v : View t (.only k), owner x = some v.node
  sort : [isFormalParameter x, isCatchParameter x, isField x, isLocalVariable x].count true = 1
  parameter : ∀ k, k = .formalParameter ∨ k = .catchParameter → ∀ v : View t (.only k),
    owner x = some v.node ↔ v.variableId = .ok x
  listed : ∀ k, k = .fieldDeclaration ∨ k = .localVariableDeclaration → ∀ v : View t (.only k),
    owner x = some v.node ↔ x ∈ v.variableIds
  type : ∀ k ∈ ownerKinds, ∀ v : View t (.only k), owner x = some v.node → declaredType x = v.typeNode

variable {x : VariableDeclaratorId t} {o : NodeId}

theorem count_sorts (ho : owner x = some o) (hk : t.kind o ∈ ownerKinds) :
    [isFormalParameter x, isCatchParameter x, isField x, isLocalVariable x].count true = 1 := by
  have hsorts (k : Kind) : ownerIs x k = decide (t.kind o = k) := by
    rw [ownerIs, ho]
    rfl
  rw [isFormalParameter, isCatchParameter, isField, isLocalVariable, hsorts, hsorts, hsorts, hsorts]
  generalize t.kind o = k at hk
  revert hk
  cases k <;> decide

theorem declaredType_eq {k : Kind} (hk : k ∈ ownerKinds) (v : View t (.only k))
    (ho : owner x = some v.node) : declaredType x = v.typeNode := by
  have hmem : ([.formalParameter, .catchParameter, .localVariableDeclaration, .fieldDeclaration] :
      List Kind).contains (t.kind v.node) = true := by
    rw [v.kind_node]
    revert hk
    cases k <;> decide
  rw [declaredType, ho]
  exact if_pos hmem

end VariableDeclaratorId

/-- What is neither a file nor out of the tree stands in something. -/
theorem View.exists_around {t : Tree} (hroot : t.kind 0 = .compilationUnit) {k : Kind}
    (hk : k.isNode = true) (hne : k ≠ .compilationUnit) (v : View t (.only k)) :
    ∃ n < t.size, v.node ∈ t.children n := by
  have hlt : v.node < t.size := Tree.lt_size_of_isNode (by rwa [v.kind_node])
  have hzero : v.node ≠ 0 := fun h => hne (v.kind_node.symm.trans (h ▸ hroot))
  obtain ⟨n, _, hn⟩ := Tree.exists_mem_children hlt hzero
  exact ⟨n, Tree.lt_size_of_mem_children hn, hn⟩

namespace Tree.PlacesVariables

open VariableDeclaratorId

variable {t : Tree} (ht : t.PlacesVariables)

include ht

/-- A name stands in a parameter or, with a declarator between them, in a declaration. -/
theorem exists_owner (hroot : t.kind 0 = .compilationUnit) (x : VariableDeclaratorId t) :
    ∃ o, owner x = some o ∧ t.kind o ∈ ownerKinds := by
  obtain ⟨n, hn, hx⟩ := View.exists_around hroot rfl (by decide) x
  have hnames : namesVariable (t.kind n) = true := by
    by_contra h
    exact (ht n hn).nameless (Bool.eq_false_iff.mpr h) (List.mem_map.mpr ⟨x.node, hx, x.kind_node⟩)
  rw [namesVariable, Bool.or_eq_true, Bool.or_eq_true, beq_iff_eq, beq_iff_eq, beq_iff_eq] at hnames
  rcases hnames with (hk | hk) | hk
  · let d : VariableDeclarator t := ⟨n, beq_iff_eq.mpr hk⟩
    obtain ⟨o, ho, hd⟩ := View.exists_around hroot rfl (by decide) d
    have hdeclares : declaresVariables (t.kind o) = true := by
      by_contra h
      exact (ht o ho).undeclared (Bool.eq_false_iff.mpr h) (List.mem_map.mpr ⟨n, hd, hk⟩)
    refine ⟨o, owner_eq_some_iff.mpr (.inr ⟨d, hd, hx⟩), ?_⟩
    rw [declaresVariables, Bool.or_eq_true, beq_iff_eq, beq_iff_eq] at hdeclares
    rcases hdeclares with h | h <;> rw [h] <;> decide
  all_goals
    refine ⟨n, owner_eq_some_iff.mpr (.inl ⟨hx, ?_⟩), ?_⟩ <;> rw [hk] <;> decide

theorem declared (hroot : t.kind 0 = .compilationUnit) (x : VariableDeclaratorId t) : x.Declared where
  owned := by
    obtain ⟨o, ho, hk⟩ := ht.exists_owner hroot x
    exact ⟨t.kind o, hk, ⟨o, beq_self_eq_true _⟩, ho⟩
  sort := by
    obtain ⟨o, ho, hk⟩ := ht.exists_owner hroot x
    exact count_sorts ho hk
  parameter k hk v := by
    have hnames : namesVariable k = true := by
      rcases hk with rfl | rfl <;> rfl
    rw [ht.owner_eq_iff_child hk, ht.variableId_eq_ok_iff hnames]
  listed k hk v := ht.owner_eq_iff_mem (by rcases hk with rfl | rfl <;> rfl) v
  type _ hk v ho := declaredType_eq hk v ho

end Tree.PlacesVariables

/-- In every text, with or without errors, each variable belongs to one declaration, and each declaration has
its declarators' variables, one for each of them, in source order. -/
theorem parse_variableOwners (text : String) : ∃ p, parse text = .ok p ∧
    (∀ x : VariableDeclaratorId p.tree, x.Declared) ∧
    ∀ k, k = .fieldDeclaration ∨ k = .localVariableDeclaration → ∀ v : View p.tree (.only k),
      v.declarators.map View.variableId = v.variableIds.map .ok ∧
        v.variableIds.Pairwise View.Precedes := by
  have hp := parse_eq text
  have ht := placesVariables_of_parsed (.inl hp)
  have hsource := Tree.inSourceOrder_of_parsed hp
  refine ⟨_, hp, ht.declared ?_, fun k _ v => ⟨ht.map_variableId v, hsource.pairwise_variableIds ht v⟩⟩
  rw [(Tree.rooted_root _).kind_eq]
  exact congrArg Head.kind (Branch.head_disambiguated _)

end JavaSyntax
