import Mathlib.Logic.Function.Basic
import JavaSyntax.Proofs.Tree.Neighbours

namespace JavaSyntax

namespace Tree

/-- The columns of the table that are filled in last. -/
structure Columns where
  last : Nat → Nat
  position : Nat → Nat

namespace Columns

def blank : Columns := ⟨fun _ => 0, fun _ => 0⟩

/-- Goes over a node after its children: it ends where its last child does, or with itself, and its
children learn their positions. -/
def visit (t : Tree) (n : Nat) (cols : Columns) : Columns where
  last := Function.update cols.last n ((t.children n).getLast?.elim n cols.last)
  position := (t.children n).zipIdx.foldl (fun f c => Function.update f c.1 c.2) cols.position

/-- The columns after a pass over all nodes, from the last one to the first. -/
def filled (t : Tree) : Columns := (List.range' 0 t.size).foldr (visit t) blank

/-- The columns as a pass leaves them that has come down to `k`. -/
structure FilledFrom (t : Tree) (k : Nat) (cols : Columns) : Prop where
  last : ∀ n, k ≤ n → n < t.size → cols.last n = t.last n
  position : ∀ c p, t.parent c = some p → k ≤ p → cols.position c = t.position c
  root : cols.position 0 = 0

theorem foldl_update_eq {t : Tree} {l : List (Nat × Nat)} (h : ∀ x ∈ l, t.position x.1 = x.2)
    (f : Nat → Nat) (c : Nat) :
    l.foldl (fun f x => Function.update f x.1 x.2) f c =
      if c ∈ l.map Prod.fst then t.position c else f c := by
  induction l generalizing f with
  | nil => rfl
  | cons x l ih =>
    rw [List.foldl_cons, ih fun y hy => h y (List.mem_cons_of_mem _ hy), List.map_cons]
    by_cases hmem : c ∈ l.map Prod.fst
    · rw [if_pos hmem, if_pos (List.mem_cons_of_mem _ hmem)]
    · by_cases hc : c = x.1
      · rw [if_neg hmem, hc, Function.update_self, if_pos List.mem_cons_self,
          h x List.mem_cons_self]
      · have hnot : c ∉ x.1 :: l.map Prod.fst := List.not_mem_cons_of_ne_of_not_mem hc hmem
        rw [if_neg hmem, if_neg hnot, Function.update_of_ne hc]

theorem last_visit (t : Tree) (n m : Nat) (cols : Columns) :
    (visit t n cols).last m =
      if m = n then (t.children n).getLast?.elim n cols.last else cols.last m :=
  Function.update_apply ..

theorem position_visit (t : Tree) (n c : Nat) (cols : Columns) :
    (visit t n cols).position c =
      if t.parent c = some n then t.position c else cols.position c := by
  have hpositions : ∀ x ∈ (t.children n).zipIdx, t.position x.1 = x.2 := by
    intro x hx
    have hget : (t.children n)[x.2]? = some x.1 := List.mem_zipIdx_iff_getElem?.mp hx
    obtain ⟨b, _, hb⟩ := exists_rooted (lt_size_of_mem_children (List.mem_of_getElem? hget))
    obtain ⟨_, _, _, _, _, _, _, _, hposition⟩ := hb.child hget
    exact hposition
  refine (foldl_update_eq hpositions cols.position c).trans ?_
  rw [List.zipIdx_map_fst]
  simp only [parent_eq_some_iff]

theorem FilledFrom.visit {t : Tree} {n : Nat} {cols : Columns} (h : FilledFrom t (n + 1) cols)
    (hn : n < t.size) : FilledFrom t n (visit t n cols) := by
  refine ⟨fun m hm hlt => ?_, fun c p hp hle => ?_, ?_⟩
  · rw [last_visit]
    by_cases he : m = n
    · subst he
      rw [if_pos rfl, last_eq_of_lt hlt]
      cases hc : (t.children m).getLast? with
      | none => rfl
      | some c =>
        have hbounds := lt_of_mem_children (List.mem_of_getLast? hc)
        exact h.last c hbounds.1 hbounds.2
    · rw [if_neg he]
      exact h.last m (Nat.lt_of_le_of_ne hm (Ne.symm he)) hlt
  · rw [position_visit]
    split
    · rfl
    · next hne =>
      refine h.position c p hp (Nat.lt_of_le_of_ne hle ?_)
      rintro rfl
      exact hne hp
  · rw [position_visit, t.row_zero.1, if_neg nofun]
    exact h.root

theorem filledFrom_foldr {t : Tree} (count k : Nat) (h : k + count = t.size) :
    FilledFrom t k ((List.range' k count).foldr (Columns.visit t) blank) := by
  induction count generalizing k with
  | zero =>
    refine ⟨fun n hn hlt => ?_, fun c p hp hle => ?_, rfl⟩
    · omega
    · have hlt := lt_size_of_mem_children (parent_eq_some_iff.mp hp)
      omega
  | succ count ih =>
    rw [List.range'_succ, List.foldr_cons]
    exact (ih (k + 1) (by omega)).visit (by omega)

/-- The pass fills in what the table says. -/
theorem filled_eq {t : Tree} {n : Nat} (h : n < t.size) :
    (filled t).last n = t.last n ∧ (filled t).position n = t.position n := by
  have hfilled := filledFrom_foldr t.size 0 (Nat.zero_add t.size)
  refine ⟨hfilled.last n (Nat.zero_le n) h, ?_⟩
  by_cases hn : n = 0
  · rw [hn, t.row_zero.2]
    exact hfilled.root
  · obtain ⟨p, _, hp⟩ := exists_mem_children h hn
    exact hfilled.position n p (parent_of_mem_children hp).1 (Nat.zero_le p)

end Columns

/-- What the numbers of the nodes say of the neighbours of a node is what the links between parents and
children say. -/
structure NavigatesAt (t : Tree) (n : Nat) : Prop where
  preorder : t.preorder n = n :: (t.children n).flatMap t.preorder
  /-- A walk over the subtree comes to each node once. -/
  nodup : (t.preorder n).Nodup
  orSelf : ∀ k, ((Descendants.orSelf t n).skip k).drain = (t.preorder n).drop k ∧
    ((Descendants.orSelf t n).skip k).length = ((t.preorder n).drop k).length
  below : ∀ k, ((Descendants.below t n).skip k).drain = (t.preorder n).tail.drop k ∧
    ((Descendants.below t n).skip k).length = ((t.preorder n).tail.drop k).length
  mem_below : ∀ m, m ∈ (Descendants.below t n).drain ↔ n ∈ t.ancestors m
  root : n = 0 → t.ancestors n = [] ∧ t.following n = [] ∧ t.preceding n = []
  inner : n ≠ 0 → (t.ancestors n).getLast? = some 0 ∧ ∃ p, t.parent n = some p ∧
    (t.preceding n).reverse ++ n :: t.following n = t.children p
  /-- The ends of subtrees and the positions come out of one pass from the last node to the first. -/
  filled : (Columns.filled t).last n = t.last n ∧ (Columns.filled t).position n = t.position n

theorem navigatesAt (t : Tree) (n : Nat) (h : n < t.size) : t.NavigatesAt n := by
  have horSelf : (Descendants.orSelf t n).drain = t.preorder n := by
    rw [← descendantsOrSelf_eq h, Descendants.orSelf, Descendants.drain_mk, descendantsOrSelf]
  have hbelow : (Descendants.below t n).drain = t.descendants n := by
    rw [Descendants.below, Descendants.drain_mk, Nat.add_sub_add_right, descendants]
  refine ⟨t.preorder_eq n, ?_, fun k => ?_, fun k => ?_, fun m => ?_, ?_, fun hn => ?_,
    Columns.filled_eq h⟩
  · rw [preorder_eq_range' h]
    exact List.nodup_range'
  · rw [← horSelf]
    exact Descendants.drain_skip k _
  · rw [← descendants_eq h, ← hbelow]
    exact Descendants.drain_skip k _
  · rw [hbelow]
    exact mem_descendants_iff h
  · rintro rfl
    exact ⟨ancestors_of_none t.row_zero.1, t.siblings_zero.2, t.siblings_zero.1⟩
  · obtain ⟨p, _, hp⟩ := exists_mem_children h hn
    have hparent := (parent_of_mem_children hp).1
    exact ⟨getLast?_ancestors h hn, p, hparent, siblings_cut hparent⟩

/-- The arguments of `f(a).b`, two nodes below the root. -/
theorem navigatesAt_arguments :
    let arguments : Branch := ⟨.argumentList, none, ⟨1, 4, by decide⟩,
      [⟨.ambiguousName, some "a", ⟨2, 3, by decide⟩, []⟩]⟩
    let call : Branch := ⟨.methodCall, some "f", ⟨0, 4, by decide⟩, [arguments]⟩
    let t := Tree.ofBranch "f(a).b" ⟨.fieldAccess, some "b", ⟨0, 6, by decide⟩, [call]⟩
    2 < t.size ∧ t.NavigatesAt 2 :=
  ⟨by decide, navigatesAt _ 2 (by decide)⟩

end Tree

end JavaSyntax
