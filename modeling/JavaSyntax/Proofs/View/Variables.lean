import JavaSyntax.Proofs.Tree.Neighbours
import JavaSyntax.View.Statement

namespace JavaSyntax

namespace Tree

variable {t : Tree} {n i c : Nat}

/-- A child knows where it stands among its siblings. -/
theorem position_of_child? (h : t.child? n i = some c) : t.position c = i := by
  obtain ⟨b, _, hb⟩ := exists_rooted (lt_size_of_mem_children (List.mem_of_getElem? h))
  obtain ⟨_, _, _, _, _, _, _, _, hposition⟩ := hb.child h
  exact hposition

end Tree

namespace View

variable {t : Tree} {c d : Category} {n : NodeId} {k : Kind}

theorem kind_node (v : View t (.only k)) : t.kind v.node = k := beq_iff_eq.mp v.contains_kind

theorem eq_of_node_eq {v w : View t c} (h : v.node = w.node) : v = w := by
  obtain ⟨n, hn⟩ := v
  obtain ⟨m, hm⟩ := w
  cases h
  rfl

theorem of?_eq_some_iff {w : View t c} : of? t c n = some w ↔ w.node = n := by
  refine ⟨node_eq_of_of?, ?_⟩
  rintro rfl
  exact dif_pos w.contains_kind

theorem firstUnder_eq_head? (t : Tree) (n : NodeId) (d : Category) :
    firstUnder t n d = (allUnder t n d).head? := List.head?_filterMap.symm

theorem mem_allUnder {w : View t d} : w ∈ allUnder t n d ↔ w.node ∈ t.children n := by
  refine ⟨mem_of_allUnder, fun h => ?_⟩
  exact List.mem_filterMap.mpr ⟨w.node, h, of?_eq_some_iff.mpr rfl⟩

theorem childAt_eq_some_iff {v : View t c} {w : View t d} {i : Nat} :
    v.childAt i d = some w ↔ t.child? v.node i = some w.node := by
  rw [childAt, Option.bind_eq_some_iff]
  constructor
  · rintro ⟨n, hn, hw⟩
    rw [of?_eq_some_iff.mp hw]
    exact hn
  · exact fun h => ⟨_, h, of?_eq_some_iff.mpr rfl⟩

variable {v : View t c} {x : VariableDeclaratorId t}

theorem mem_variableIds : x ∈ v.variableIds ↔
    ∃ d : VariableDeclarator t, d.node ∈ t.children v.node ∧ x.node ∈ t.children d.node := by
  simp only [variableIds, declarators, children, List.mem_flatMap, mem_allUnder]

/-- The owner of a variable is the declaration that introduces it. -/
theorem owner_of_mem_variableIds (h : x ∈ v.variableIds) :
    VariableDeclaratorId.owner x = some v.node := by
  obtain ⟨d, hd, hx⟩ := mem_variableIds.mp h
  have hparent : t.parent x.node = some d.node := Tree.parent_eq_some_iff.mpr hx
  rw [VariableDeclaratorId.owner, hparent]
  dsimp only
  rw [if_pos d.kind_node]
  exact Tree.parent_eq_some_iff.mpr hd

end View

namespace VariableDeclaratorId

variable {t : Tree} {x : VariableDeclaratorId t} {o : NodeId}

/-- Between a variable and its owner there is at most a declarator. -/
theorem owner_eq_some_iff : owner x = some o ↔
    (x.node ∈ t.children o ∧ t.kind o ≠ .variableDeclarator) ∨
      ∃ d : VariableDeclarator t, d.node ∈ t.children o ∧ x.node ∈ t.children d.node := by
  rw [owner]
  constructor
  · intro h
    split at h
    · cases h
    · next q hq =>
      split at h
      · next hk =>
        exact .inr ⟨⟨q, beq_iff_eq.mpr hk⟩, Tree.parent_eq_some_iff.mp h, Tree.parent_eq_some_iff.mp hq⟩
      · next hk =>
        cases h
        exact .inl ⟨Tree.parent_eq_some_iff.mp hq, hk⟩
  · rintro (⟨hx, hk⟩ | ⟨d, hd, hx⟩)
    · rw [Tree.parent_eq_some_iff.mpr hx]
      exact if_neg hk
    · rw [Tree.parent_eq_some_iff.mpr hx]
      dsimp only
      rw [if_pos d.kind_node]
      exact Tree.parent_eq_some_iff.mpr hd

theorem isForeachVariable_iff : isForeachVariable x = true ↔
    ∃ (f : ForeachStatement t) (o : NodeId), owner x = some o ∧ o ∈ t.children f.node := by
  simp only [isForeachVariable, Option.any_eq_true, Option.bind_eq_some_iff, decide_eq_true_eq]
  constructor
  · rintro ⟨f, ⟨o, ho, hf⟩, hk⟩
    exact ⟨⟨f, beq_iff_eq.mpr hk⟩, o, ho, Tree.parent_eq_some_iff.mp hf⟩
  · rintro ⟨f, o, ho, hf⟩
    exact ⟨f.node, ⟨o, ho, Tree.parent_eq_some_iff.mpr hf⟩, f.kind_node⟩

end VariableDeclaratorId

namespace ForeachStatement

variable {t : Tree} {f : ForeachStatement t} {x : VariableDeclaratorId t}

theorem variableId_eq_ok_iff : variableId f = .ok x ↔
    ∃ d, element f = some d ∧ d.variableIds.head? = some x := by
  rw [variableId, ← Option.bind_eq_some_iff]
  cases (element f).bind fun d => d.variableIds.head? with
  | none =>
    constructor
    · intro h
      cases h
    · intro h
      cases h
  | some y =>
    constructor
    · intro h
      cases h
      rfl
    · intro h
      cases h
      rfl

/-- The owner of a loop variable is the first child of the loop. -/
theorem owner_of_variableId (h : variableId f = .ok x) :
    ∃ o, VariableDeclaratorId.owner x = some o ∧ t.child? f.node 0 = some o := by
  obtain ⟨d, hd, hx⟩ := variableId_eq_ok_iff.mp h
  exact ⟨d.node, View.owner_of_mem_variableIds (List.mem_of_head? hx), View.childAt_eq_some_iff.mp hd⟩

end ForeachStatement

end JavaSyntax
