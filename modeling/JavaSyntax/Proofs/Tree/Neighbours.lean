import JavaSyntax.Proofs.Tree.Heads
import JavaSyntax.Tree.Walk

namespace JavaSyntax

namespace Descendants

theorem step_eq_some {next stop n : Nat} {d : Descendants}
    (h : step ⟨next, stop⟩ = some (n, d)) : next < stop ∧ n = next ∧ d = ⟨next + 1, stop⟩ := by
  rw [step] at h
  split at h
  · next hlt =>
    cases h
    exact ⟨hlt, rfl, rfl⟩
  · cases h

theorem step_eq_none {next stop : Nat} (h : step ⟨next, stop⟩ = none) : stop ≤ next := by
  rw [step] at h
  split at h
  · cases h
  · next hle => exact Nat.le_of_not_lt hle

theorem length_mk (next stop : Nat) : length ⟨next, stop⟩ = stop - next := rfl

theorem length_lt_of_step {d e : Descendants} {n : NodeId} (h : d.step = some (n, e)) :
    e.length < d.length := by
  obtain ⟨hlt, _, rfl⟩ := step_eq_some h
  rw [length_mk, length_mk]
  omega

/-- All nodes that are still to come, one step after the other. -/
def drain (d : Descendants) : List NodeId :=
  match _h : d.step with
  | none => []
  | some (n, d) => n :: d.drain
termination_by d.length
decreasing_by exact length_lt_of_step _h

theorem drain_mk (next stop : Nat) : drain ⟨next, stop⟩ = List.range' next (stop - next) := by
  rw [drain]
  split
  · next h => rw [Nat.sub_eq_zero_of_le (step_eq_none h), List.range'_zero]
  · next n e h =>
    obtain ⟨hlt, rfl, rfl⟩ := step_eq_some h
    have hcount : stop - n = stop - (n + 1) + 1 := by omega
    rw [drain_mk, hcount, List.range'_succ]
termination_by stop - next

theorem skip_mk (k next stop : Nat) :
    ∃ next', skip k ⟨next, stop⟩ = ⟨next', stop⟩ ∧
      List.range' next' (stop - next') = (List.range' next (stop - next)).drop k := by
  induction k generalizing next with
  | zero => exact ⟨next, rfl, rfl⟩
  | succ k ih =>
    rw [skip]
    split
    · next h =>
      refine ⟨next, rfl, ?_⟩
      rw [Nat.sub_eq_zero_of_le (step_eq_none h), List.range'_zero, List.drop_nil]
    · next n e h =>
      obtain ⟨hlt, rfl, rfl⟩ := step_eq_some h
      obtain ⟨next', hskip, hdrop⟩ := ih (n + 1)
      have hcount : stop - n = stop - (n + 1) + 1 := by omega
      refine ⟨next', hskip, ?_⟩
      rw [hdrop, hcount, List.range'_succ, List.drop_succ_cons]

/-- After any number of steps the rest of the nodes is still to come, and the length counts them. -/
theorem drain_skip (k : Nat) (d : Descendants) :
    (skip k d).drain = d.drain.drop k ∧ (skip k d).length = (d.drain.drop k).length := by
  obtain ⟨next, stop⟩ := d
  obtain ⟨next', hskip, hdrop⟩ := skip_mk k next stop
  rw [hskip, drain_mk, drain_mk, ← hdrop, length_mk, List.length_range']
  exact ⟨rfl, rfl⟩

end Descendants

theorem Branch.size_eq (b : Branch) : b.size = sizeOfAll b.children + 1 := by
  cases b
  rfl

namespace Tree

/-- A node and what is below it: the node itself, then all of this for its children in turn. -/
def preorder (t : Tree) (n : NodeId) : List NodeId :=
  n :: (t.children n).attach.flatMap fun c =>
    have := lt_of_mem_children c.2
    t.preorder c.1
termination_by t.size - n

theorem preorder_eq (t : Tree) (n : NodeId) :
    t.preorder n = n :: (t.children n).flatMap t.preorder := by
  rw [preorder, List.flatMap_subtype fun _ _ => rfl, List.unattach_attach]

variable {t : Tree} {n m c p : Nat} {b : Branch}

theorem flatMap_siblingNumbers {f : Nat → List Nat} {first : Nat} {bs : List Branch}
    (h : ∀ before d after, bs = before ++ d :: after →
      f (first + Branch.sizeOfAll before) = List.range' (first + Branch.sizeOfAll before) d.size) :
    (Branch.siblingNumbers first bs).flatMap f = List.range' first (Branch.sizeOfAll bs) := by
  induction bs generalizing first with
  | nil => rfl
  | cons b bs ih =>
    have hfirst : f first = List.range' first b.size := h [] b bs rfl
    have hmore := @ih (first + b.size) fun before d after hsplit => by
      rw [Nat.add_assoc]
      exact h (b :: before) d after (by rw [hsplit, List.cons_append])
    rw [Branch.siblingNumbers, List.flatMap_cons, hfirst, hmore, List.range'_append_1,
      Branch.sizeOfAll]

/-- The nodes from `n` on are numbered as a recursive walk visits them. -/
theorem Rooted.preorder_eq {n : Nat} {b : Branch} (h : t.Rooted n b) :
    t.preorder n = List.range' n b.size := by
  rw [Tree.preorder_eq, h.children_eq, flatMap_siblingNumbers, b.size_eq, List.range'_succ]
  intro before d after hsplit
  have hlt : d.size < b.size := by
    rw [b.size_eq, hsplit, Branch.sizeOfAll_append, Branch.sizeOfAll]
    omega
  exact (h.child_of_split hsplit).preorder_eq
termination_by b.size

theorem Rooted.last_eq (h : t.Rooted n b) : t.last n = n + Branch.sizeOfAll b.children := by
  rw [last, h.row_eq]

/-- A subtree ends where that of the last child ends. -/
theorem last_eq_of_lt (h : n < t.size) : t.last n = (t.children n).getLast?.elim n t.last := by
  obtain ⟨b, _, hb⟩ := exists_rooted h
  rw [hb.last_eq, hb.children_eq]
  rcases List.eq_nil_or_concat b.children with hnil | ⟨before, d, hsplit⟩
  · rw [hnil]
    rfl
  · rw [List.concat_eq_append] at hsplit
    have hd := hb.child_of_split hsplit
    have hsum (k l : Nat) : n + (k + (l + 1)) = n + 1 + k + l := by omega
    rw [hsplit, Branch.siblingNumbers_append, Branch.sizeOfAll_append]
    simp only [Branch.siblingNumbers, Branch.sizeOfAll, List.getLast?_append, List.getLast?_singleton,
      Option.some_or, Option.elim_some, hd.last_eq, d.size_eq, Nat.add_zero]
    exact hsum _ _

theorem preorder_eq_range' (h : n < t.size) : t.preorder n = List.range' n (t.last n + 1 - n) := by
  obtain ⟨b, _, hb⟩ := exists_rooted h
  have hcount : n + Branch.sizeOfAll b.children + 1 - n = Branch.sizeOfAll b.children + 1 := by omega
  rw [hb.preorder_eq, hb.last_eq, b.size_eq, hcount]

theorem lt_size_of_mem_children (h : c ∈ t.children n) : n < t.size :=
  Nat.lt_trans (lt_of_mem_children h).1 (lt_of_mem_children h).2

theorem parent_of_mem_children (h : c ∈ t.children n) :
    t.parent c = some n ∧ (t.children n)[t.position c]? = some c := by
  obtain ⟨b, _, hb⟩ := exists_rooted (lt_size_of_mem_children h)
  obtain ⟨i, hi, hget⟩ := List.getElem_of_mem h
  have hsome : (t.children n)[i]? = some c := hget ▸ List.getElem?_eq_getElem hi
  obtain ⟨_, _, _, _, _, _, _, hparent, hposition⟩ := hb.child hsome
  rw [hposition]
  exact ⟨hparent, hsome⟩

/-- A node is among the children of its parent, and of no other node. -/
theorem parent_eq_some_iff : t.parent c = some p ↔ c ∈ t.children p := by
  refine ⟨fun h => ?_, fun h => (parent_of_mem_children h).1⟩
  have hc : c < t.size := by
    apply Nat.lt_of_not_le
    intro hle
    have hrow : t.row c = default := by rw [row, Array.getElem?_eq_none hle]; rfl
    rw [parent, hrow] at h
    cases h
  have hne : c ≠ 0 := by
    rintro rfl
    rw [t.row_zero.1] at h
    cases h
  obtain ⟨q, _, hq⟩ := exists_mem_children hc hne
  rw [(parent_of_mem_children hq).1] at h
  cases h
  exact hq

theorem ancestors_of_none (h : t.parent n = none) : t.ancestors n = [] := by
  rw [ancestors]
  split
  · rfl
  · next hp => cases h.symm.trans hp

theorem ancestors_of_some (h : t.parent n = some p) : t.ancestors n = p :: t.ancestors p := by
  rw [ancestors]
  split
  · next hn => cases h.symm.trans hn
  · next hp =>
    cases h.symm.trans hp
    rfl

theorem mem_ancestors_iff :
    n ∈ t.ancestors m ↔ ∃ p, t.parent m = some p ∧ (n = p ∨ n ∈ t.ancestors p) := by
  cases hp : t.parent m with
  | none => simp [ancestors_of_none hp]
  | some p => simp [ancestors_of_some hp]

theorem lt_of_mem_ancestors {n m : Nat} (h : n ∈ t.ancestors m) : n < m := by
  obtain ⟨p, hp, rfl | h⟩ := mem_ancestors_iff.mp h
  · exact parent_lt hp
  · exact Nat.lt_trans (lt_of_mem_ancestors h) (parent_lt hp)
termination_by m
decreasing_by exact parent_lt hp

/-- The nodes above an ancestor are ancestors too. -/
theorem mem_ancestors_of_parent {m : Nat} (hc : c ∈ t.ancestors m) (hp : t.parent c = some p) :
    p ∈ t.ancestors m := by
  obtain ⟨q, hm, rfl | hc⟩ := mem_ancestors_iff.mp hc
  · exact mem_ancestors_iff.mpr ⟨c, hm, .inr (mem_ancestors_iff.mpr ⟨p, hp, .inl rfl⟩)⟩
  · exact mem_ancestors_iff.mpr ⟨q, hm, .inr (mem_ancestors_of_parent hc hp)⟩
termination_by m
decreasing_by exact parent_lt hm

theorem getLast?_ancestors {n : Nat} (h : n < t.size) (hn : n ≠ 0) :
    (t.ancestors n).getLast? = some 0 := by
  obtain ⟨p, hlt, hmem⟩ := exists_mem_children h hn
  rw [ancestors_of_some (parent_of_mem_children hmem).1]
  by_cases hp : p = 0
  · rw [hp, ancestors_of_none t.row_zero.1]
    rfl
  · have hlast := getLast?_ancestors (Nat.lt_trans hlt h) hp
    rw [List.getLast?_cons, hlast]
    rfl
termination_by n

theorem mem_preorder_iff_child : m ∈ t.preorder n ↔ m = n ∨ ∃ c ∈ t.children n, m ∈ t.preorder c := by
  rw [preorder_eq, List.mem_cons, List.mem_flatMap]

theorem mem_preorder_self (t : Tree) (n : Nat) : n ∈ t.preorder n :=
  mem_preorder_iff_child.mpr (.inl rfl)

theorem mem_preorder_of_mem_children {n : Nat} (hm : m ∈ t.preorder n) (hc : c ∈ t.children m) :
    c ∈ t.preorder n := by
  rcases mem_preorder_iff_child.mp hm with rfl | ⟨d, hd, hm⟩
  · exact mem_preorder_iff_child.mpr (.inr ⟨c, hc, mem_preorder_self t c⟩)
  · have hlt := lt_of_mem_children hd
    exact mem_preorder_iff_child.mpr (.inr ⟨d, hd, mem_preorder_of_mem_children hm hc⟩)
termination_by t.size - n

theorem mem_preorder_of_mem_ancestors {m : Nat} (h : n ∈ t.ancestors m) : m ∈ t.preorder n := by
  obtain ⟨p, hp, h⟩ := mem_ancestors_iff.mp h
  refine mem_preorder_of_mem_children ?_ (parent_eq_some_iff.mp hp)
  rcases h with rfl | h
  · exact mem_preorder_self t n
  · exact mem_preorder_of_mem_ancestors h
termination_by m
decreasing_by exact parent_lt hp

theorem mem_ancestors_of_mem_preorder {n : Nat} (h : m ∈ t.preorder n) : m = n ∨ n ∈ t.ancestors m := by
  rcases mem_preorder_iff_child.mp h with rfl | ⟨c, hc, hm⟩
  · exact .inl rfl
  · have hparent := (parent_of_mem_children hc).1
    have hlt := lt_of_mem_children hc
    rcases mem_ancestors_of_mem_preorder hm with rfl | hm
    · exact .inr (mem_ancestors_iff.mpr ⟨n, hparent, .inl rfl⟩)
    · exact .inr (mem_ancestors_of_parent hm hparent)
termination_by t.size - n

theorem descendantsOrSelf_eq (h : n < t.size) : t.descendantsOrSelf n = t.preorder n :=
  (preorder_eq_range' h).symm

theorem le_last (h : n < t.size) : n ≤ t.last n := by
  obtain ⟨b, _, hb⟩ := exists_rooted h
  rw [hb.last_eq]
  exact Nat.le_add_right _ _

theorem descendants_eq (h : n < t.size) : t.descendants n = (t.preorder n).tail := by
  have hcount (k : Nat) (hk : n ≤ k) : k + 1 - n = k - n + 1 := by omega
  rw [preorder_eq_range' h, hcount (t.last n) (le_last h), List.range'_succ]
  rfl

theorem mem_descendants_iff (h : n < t.size) : m ∈ t.descendants n ↔ n ∈ t.ancestors m := by
  have hcons : t.preorder n = n :: t.descendants n := by
    rw [descendants_eq h, preorder_eq]
    rfl
  constructor
  · intro hm
    have hlt : n < m := (List.mem_range'_1.mp hm).1
    have hm' : m ∈ t.preorder n := hcons ▸ List.mem_cons_of_mem n hm
    exact (mem_ancestors_of_mem_preorder hm').resolve_left (Nat.ne_of_gt hlt)
  · intro hn
    have hm := mem_preorder_of_mem_ancestors hn
    rw [hcons] at hm
    exact (List.mem_cons.mp hm).resolve_left (Nat.ne_of_gt (lt_of_mem_ancestors hn))

/-- The siblings on both sides of a node and the node between them are the children of the parent. -/
theorem siblings_cut (h : t.parent n = some p) :
    (t.preceding n).reverse ++ n :: t.following n = t.children p := by
  obtain ⟨hi, hget⟩ := List.getElem?_eq_some_iff.mp
    (parent_of_mem_children (parent_eq_some_iff.mp h)).2
  have hsiblings : t.siblings n = t.children p := by
    rw [siblings, h]
  rw [preceding, following, hsiblings, List.reverse_reverse]
  have hdrop := List.drop_eq_getElem_cons hi
  rw [hget] at hdrop
  rw [← hdrop, List.take_append_drop]

theorem siblings_zero (t : Tree) : t.preceding 0 = [] ∧ t.following 0 = [] := by
  have hsiblings : t.siblings 0 = [] := by
    rw [siblings, t.row_zero.1]
  rw [preceding, following, hsiblings, List.take_nil, List.drop_nil]
  exact ⟨rfl, rfl⟩

end Tree

end JavaSyntax
