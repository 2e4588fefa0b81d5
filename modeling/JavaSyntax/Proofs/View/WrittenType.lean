import JavaSyntax.Proofs.Expression.Settled
import JavaSyntax.Proofs.Grammar.Shadow
import JavaSyntax.Proofs.Tree.Looks
import JavaSyntax.Proofs.Type.Writable
import JavaSyntax.Proofs.View.Variables
import JavaSyntax.View.Type

namespace JavaSyntax

variable {t : Tree} {n : NodeId}

/-- The types that the arguments of a class type spell. -/
def writtenArguments (t : Tree) (n : NodeId) : List TypeInfo :=
  (View.firstUnder t n (.only .typeArguments)).elim [] fun arguments =>
    (View.allUnder t arguments.node .type).map fun argument => writtenType t argument.node

theorem writtenType_primitiveType (h : t.kind n = .primitiveType) {p : Primitive}
    (hp : t.image n = some p.keyword) : writtenType t n = .primitive p := by
  rw [writtenType]
  simp only [h, hp]
  cases p <;> rfl

theorem writtenType_classType (h : t.kind n = .classType) {name : String}
    (hname : t.image n = some name) :
    writtenType t n = .classType name (writtenArguments t n) := by
  rw [writtenType, writtenArguments]
  simp only [h, hname]
  split
  · next hnone => rw [hnone]; rfl
  · next hsome => rw [hsome]; simp

theorem writtenType_arrayType (h : t.kind n = .arrayType) {element : WrittenType t}
    {dimensions : ArrayDimensions t} (he : View.firstUnder t n .type = some element)
    (hd : View.firstUnder t n (.only .arrayDimensions) = some dimensions) :
    writtenType t n = .nested dimensions.count (writtenType t element.node) := by
  rw [writtenType]
  simp only [h]
  split
  · next hnone =>
    rw [hnone] at he
    cases he
  · next hsome =>
    rw [hsome] at he
    cases he
    rw [hd]
    rfl

theorem TypeInfo.nested_zero (w : TypeInfo) : nested 0 w = w := by
  cases w <;> rfl

/-- What holds of the kinds of the branches holds of the kinds of the children. -/
theorem Tree.Looks.forall_children {P : Kind → Prop} {b : Branch} (h : t.Looks n b)
    (hb : ∀ c ∈ b.children, P c.kind) : ∀ m ∈ t.children n, P (t.kind m) := by
  have hall := h.forall₂_children
  generalize t.children n = ms at hall ⊢
  generalize b.children = bs at hall hb
  induction hall with
  | nil => simp
  | cons hm _ ih =>
    obtain ⟨hc, hbs⟩ := List.forall_mem_cons.mp hb
    exact List.forall_mem_cons.mpr ⟨by rwa [hm.kind_eq], ih hbs⟩

/-- The views of the children, one by one. -/
theorem Tree.Looks.forall₂_allUnder {b : Branch} (h : t.Looks n b) (d : Category) :
    List.Forall₂ (fun (v : View t d) c => t.Looks v.node c) (View.allUnder t n d)
      (b.children.filter fun c => d.contains c.kind) := by
  rw [View.allUnder]
  have hall := h.forall₂_children
  generalize t.children n = ms at hall ⊢
  generalize b.children = bs at hall ⊢
  induction hall with
  | nil => exact .nil
  | @cons m c ms bs hm _ ih =>
    by_cases hd : d.contains (t.kind m) = true
    · have hview : View.of? t d m = some ⟨m, hd⟩ := dif_pos hd
      rw [List.filterMap_cons_some hview, List.filter_cons_of_pos (by rw [← hm.kind_eq]; exact hd)]
      exact .cons hm ih
    · have hview : View.of? t d m = none := dif_neg hd
      rw [List.filterMap_cons_none hview, List.filter_cons_of_neg (by rw [← hm.kind_eq]; exact hd)]
      exact ih

/-- The first child that belongs to a category. -/
theorem Tree.Looks.exists_firstUnder {d : Category} {b c : Branch} {bs : List Branch} (h : t.Looks n b)
    (hb : (b.children.filter fun c => d.contains c.kind) = c :: bs) :
    ∃ v, View.firstUnder t n d = some v ∧ t.Looks v.node c := by
  have hall := h.forall₂_allUnder d
  rw [hb] at hall
  obtain ⟨v, vs, hv, -, hvs⟩ := List.forall₂_cons_right_iff.mp hall
  refine ⟨v, ?_, hv⟩
  rw [View.firstUnder_eq_head?]
  exact congrArg List.head? hvs

theorem Tree.Looks.firstUnder_eq_none {d : Category} {b : Branch} (h : t.Looks n b)
    (hb : b.children.filter (fun c => d.contains c.kind) = []) : View.firstUnder t n d = none := by
  have hall := h.forall₂_allUnder d
  rw [hb] at hall
  rw [View.firstUnder_eq_head?]
  exact congrArg List.head? (List.forall₂_nil_right_iff.mp hall)

namespace View

variable {d : Category}

/-- The first child that belongs to a category. -/
theorem firstUnder_of_split (before : List NodeId) {after : List NodeId} {m : NodeId}
    (h : t.children n = before ++ m :: after)
    (hbefore : ∀ b ∈ before, d.contains (t.kind b) = false) (hm : d.contains (t.kind m) = true) :
    firstUnder t n d = some ⟨m, hm⟩ := by
  have hfirst : of? t d m = some ⟨m, hm⟩ := of?_eq_some_iff.mpr rfl
  have hnone : before.findSome? (of? t d) = none :=
    List.findSome?_eq_none_iff.mpr fun b hb => dif_neg (Bool.eq_false_iff.mp (hbefore b hb))
  rw [firstUnder, h, List.findSome?_append, hnone, Option.none_or, List.findSome?_cons, hfirst]

theorem map_allUnder {α : Type} (f : NodeId → α) (h : ∀ m ∈ t.children n, d.contains (t.kind m) = true) :
    (allUnder t n d).map (fun v => f v.node) = (t.children n).map f := by
  rw [allUnder]
  generalize t.children n = ms at h ⊢
  induction ms with
  | nil => rfl
  | cons m ms ih =>
    obtain ⟨hm, hms⟩ := List.forall_mem_cons.mp h
    have hfirst : of? t d m = some ⟨m, hm⟩ := of?_eq_some_iff.mpr rfl
    rw [List.filterMap_cons_some hfirst, List.map_cons, List.map_cons, ih hms]

end View

namespace TypeSyntax

/-- A node that looks like an element with dimensions around it spells an array of it. -/
theorem writtenType_withDimensions {element : Branch} {w : TypeInfo} {k : Nat}
    (hk : element.kind.isType = true) (he : ∀ m, t.Looks m element → writtenType t m = w)
    (h : t.Looks n (withDimensions element k)) : writtenType t n = .nested k w := by
  unfold withDimensions at h
  split at h
  · next hzero => rw [hzero, TypeInfo.nested_zero, he n h]
  · obtain ⟨m, _, hm, hmore, hchildren⟩ := List.forall₂_cons_right_iff.mp h.forall₂_children
    obtain ⟨d, _, hd, hnil, rfl⟩ := List.forall₂_cons_right_iff.mp hmore
    cases hnil
    have hmk : t.kind m = element.kind := hm.kind_eq
    have htype : Category.type.contains (t.kind m) = true := by rwa [hmk, Content.contains_type_eq]
    have hdims : Category.contains (.only .arrayDimensions) (t.kind d) = true :=
      beq_iff_eq.mpr hd.kind_eq
    have hother : Category.contains (.only .arrayDimensions) (t.kind m) = false := by
      rw [hmk]
      revert hk
      cases element.kind <;> decide
    have hcount : View.count (⟨d, hdims⟩ : ArrayDimensions t) = k := by
      rw [View.count, hd.forall₂_children.length_eq]
      exact List.length_replicate
    rw [writtenType_arrayType h.kind_eq (View.firstUnder_of_split [] hchildren (by simp) htype)
      (View.firstUnder_of_split [m] hchildren (by simpa using hother) hdims), hcount, he m hm]

theorem kind_isType_of_looks {s : TypeSyntax} {m : NodeId} (h : t.Looks m s.tree) :
    Category.type.contains (t.kind m) = true := by
  rw [h.kind_eq, Content.contains_type_eq]
  exact s.isType_tree

theorem contains_of_looks : ∀ {ss : List TypeSyntax} {ms : List NodeId},
    List.Forall₂ t.Looks ms (trees ss) → ∀ m ∈ ms, Category.type.contains (t.kind m) = true
  | [], _, h => by cases h; simp
  | s :: ss, _, h => by
    obtain ⟨m, ms, hm, hms, rfl⟩ := List.forall₂_cons_right_iff.mp h
    exact List.forall_mem_cons.mpr ⟨kind_isType_of_looks hm, contains_of_looks hms⟩

/-- A class type spells its name and what its arguments spell. -/
theorem writtenType_of_classType {name : String} (h : t.Looks n (.bare .classType (some name) [])) :
    writtenType t n = .classType name [] := by
  have hchildren : t.children n = [] := List.forall₂_nil_right_iff.mp h.forall₂_children
  rw [writtenType_classType h.kind_eq h.image_eq, writtenArguments, View.firstUnder, hchildren]
  rfl

theorem writtenType_of_generic {name : String} {arguments : List TypeSyntax}
    (h : t.Looks n (.bare .classType (some name) [.bare .typeArguments none (trees arguments)])) :
    ∃ ms, List.Forall₂ t.Looks ms (trees arguments) ∧
      writtenType t n = .classType name (ms.map (writtenType t)) := by
  obtain ⟨a, _, ha, hnil, hchildren⟩ := List.forall₂_cons_right_iff.mp h.forall₂_children
  cases hnil
  have hkind : Category.contains (.only .typeArguments) (t.kind a) = true := beq_iff_eq.mpr ha.kind_eq
  refine ⟨_, ha.forall₂_children, ?_⟩
  rw [writtenType_classType h.kind_eq h.image_eq, writtenArguments,
    View.firstUnder_of_split [] hchildren (by simp) hkind, Option.elim_some,
    View.map_allUnder (writtenType t) (contains_of_looks ha.forall₂_children)]

mutual

/-- A node that looks like the tree of a type spells the type. -/
theorem writtenType_of_looks : ∀ {s : TypeSyntax} {n : NodeId}, t.Looks n s.tree →
    writtenType t n = s.info
  | .primitive p k, _, h => by
    rw [tree] at h
    exact writtenType_withDimensions rfl
      (fun _ hm => writtenType_primitiveType hm.kind_eq hm.image_eq) h
  | .named name k, _, h => by
    rw [tree] at h
    exact writtenType_withDimensions rfl (fun _ hm => writtenType_of_classType hm) h
  | .generic name arguments k, _, h => by
    rw [tree] at h
    rw [info]
    refine writtenType_withDimensions rfl (fun m hm => ?_) h
    obtain ⟨ms, hms, hwritten⟩ := writtenType_of_generic hm
    rw [hwritten, map_writtenType_of_looks hms]

theorem map_writtenType_of_looks : ∀ {ss : List TypeSyntax} {ms : List NodeId},
    List.Forall₂ t.Looks ms (trees ss) → ms.map (writtenType t) = infos ss
  | [], _, h => by cases h; rfl
  | s :: ss, _, h => by
    obtain ⟨m, ms, hm, hms, rfl⟩ := List.forall₂_cons_right_iff.mp h
    rw [List.map_cons, infos, writtenType_of_looks hm, map_writtenType_of_looks hms]

end

end TypeSyntax

end JavaSyntax
