import JavaSyntax.Proofs.Expression.Shape
import JavaSyntax.Proofs.Tree.Neighbours

namespace JavaSyntax

namespace Branch

theorem unplacedAll_eq_map (bs : List Branch) : unplacedAll bs = bs.map unplaced := by
  induction bs with
  | nil => rfl
  | cons b bs ih => rw [unplacedAll, ih, List.map_cons]

theorem children_unplaced (b : Branch) : b.unplaced.children = b.children.map unplaced := by
  cases b
  exact unplacedAll_eq_map _

theorem image_unplaced (b : Branch) : b.unplaced.image = b.image := by
  cases b
  rfl

/-- The kinds of a branch and of all that is below it, in the order of the text. -/
def kinds (b : Branch) : List Kind := b.subtrees.map kind

theorem map_kind_subtreesOfAll (bs : List Branch) :
    (subtreesOfAll bs).map kind = bs.flatMap kinds := by
  induction bs with
  | nil => rfl
  | cons b bs ih => rw [subtreesOfAll, List.map_append, ih, List.flatMap_cons, kinds]

theorem kinds_eq (b : Branch) : b.kinds = b.kind :: b.children.flatMap kinds := by
  cases b
  exact congrArg _ (map_kind_subtreesOfAll _)

@[simp] theorem kinds_bare (k : Kind) (image : Option String) (bs : List Branch) :
    (bare k image bs).kinds = k :: bs.flatMap kinds := kinds_eq _

mutual

theorem kinds_unplaced : ∀ b : Branch, b.unplaced.kinds = b.kinds
  | ⟨k, _, _, children⟩ => by
    rw [unplaced, kinds_eq, kinds_eq, kinds_unplacedAll children]

theorem kinds_unplacedAll : ∀ bs : List Branch, (unplacedAll bs).flatMap kinds = bs.flatMap kinds
  | [] => rfl
  | b :: bs => by
    rw [unplacedAll, List.flatMap_cons, List.flatMap_cons, kinds_unplaced b, kinds_unplacedAll bs]

end

mutual

theorem map_kind_rowsFrom : ∀ (first : Nat) (parent : Option NodeId) (position : Nat) (b : Branch),
    (b.rowsFrom first parent position).map Row.kind = b.kinds
  | first, _, _, ⟨k, _, _, children⟩ => by
    rw [rowsFrom, List.map_cons, map_kind_rowsOfAllFrom, kinds_eq]

theorem map_kind_rowsOfAllFrom : ∀ (first parent position : Nat) (bs : List Branch),
    (rowsOfAllFrom first parent position bs).map Row.kind = bs.flatMap kinds
  | _, _, _, [] => rfl
  | first, parent, position, b :: bs => by
    rw [rowsOfAllFrom, List.map_append, map_kind_rowsFrom, map_kind_rowsOfAllFrom, List.flatMap_cons]

end

end Branch

namespace Tree

variable {t : Tree} {n : Nat} {b : Branch}

/-- At a node the tree looks like this branch, wherever the branch stands. -/
def Looks (t : Tree) (n : NodeId) (b : Branch) : Prop := ∃ c, t.Rooted n c ∧ c.unplaced = b

theorem looks_root (t : Tree) : t.Looks 0 t.root.unplaced := ⟨_, t.rooted_root, rfl⟩

theorem Looks.kind_eq (h : t.Looks n b) : t.kind n = b.kind := by
  obtain ⟨c, hc, rfl⟩ := h
  rw [hc.kind_eq, Branch.kind_unplaced]

theorem Looks.image_eq (h : t.Looks n b) : t.image n = b.image := by
  obtain ⟨c, hc, rfl⟩ := h
  rw [hc.image_eq, Branch.image_unplaced]

theorem Looks.forall₂_children (h : t.Looks n b) :
    List.Forall₂ t.Looks (t.children n) b.children := by
  obtain ⟨c, hc, rfl⟩ := h
  rw [Branch.children_unplaced, List.forall₂_map_right_iff]
  exact hc.forall₂_children.imp fun m d hd => ⟨d, hd, rfl⟩

end Tree

end JavaSyntax
