import Mathlib.Data.List.Nodup
import JavaSyntax.Proofs.Tree.Neighbours

namespace JavaSyntax

namespace WalkEvent

def node : WalkEvent → NodeId
  | .enter n | .leave n => n

def entered? : WalkEvent → Option NodeId
  | .enter n => some n
  | .leave _ => none

end WalkEvent

namespace Tree

/-- The nodes from `n` down, without what is below nodes of the kinds to stop at. -/
def reached (t : Tree) (stop : Kind → Bool) (n : NodeId) : List NodeId :=
  n :: if stop (t.kind n) then [] else
    (t.children n).attach.flatMap fun c =>
      have := lt_of_mem_children c.2
      t.reached stop c.1
termination_by t.size - n

/-- The events on this way: one into each node, and one out of it behind all that is below. A node where
the way stops is not left. -/
def brackets (t : Tree) (stop : Kind → Bool) (n : NodeId) : List WalkEvent :=
  .enter n :: if stop (t.kind n) then [] else
    ((t.children n).attach.flatMap fun c =>
      have := lt_of_mem_children c.2
      t.brackets stop c.1) ++ [.leave n]
termination_by t.size - n

/-- Above `m`, but not above `n`, there is a node of a kind to stop at. -/
def hides (t : Tree) (stop : Kind → Bool) (n m : NodeId) : Bool :=
  (t.ancestors m).any fun a => (t.descendantsOrSelf n).contains a && stop (t.kind a)

/-- The nodes of the subtree of `n` with no node above them, from `n` down, of a kind to stop at. -/
def exposed (t : Tree) (stop : Kind → Bool) (n : NodeId) : List NodeId :=
  (t.descendantsOrSelf n).filter fun m => !t.hides stop n m

variable {t : Tree} {stop : Kind → Bool} {n m c p : Nat}

theorem reached_eq (t : Tree) (stop : Kind → Bool) (n : NodeId) : t.reached stop n =
    n :: if stop (t.kind n) then [] else (t.children n).flatMap (t.reached stop) := by
  rw [reached, List.flatMap_subtype fun _ _ => rfl, List.unattach_attach]

theorem brackets_eq (t : Tree) (stop : Kind → Bool) (n : NodeId) : t.brackets stop n =
    .enter n :: if stop (t.kind n) then [] else
      (t.children n).flatMap (t.brackets stop) ++ [.leave n] := by
  rw [brackets, List.flatMap_subtype fun _ _ => rfl, List.unattach_attach]

theorem nodup_preorder (h : n < t.size) : (t.preorder n).Nodup := by
  rw [preorder_eq_range' h]
  exact List.nodup_range'

theorem le_of_mem_preorder (h : m ∈ t.preorder n) : n ≤ m := by
  rcases mem_ancestors_of_mem_preorder h with rfl | h
  · exact Nat.le_refl m
  · exact Nat.le_of_lt (lt_of_mem_ancestors h)

theorem lt_size_of_mem_preorder {n : Nat} (h : n < t.size) (hm : m ∈ t.preorder n) : m < t.size := by
  rcases mem_preorder_iff_child.mp hm with rfl | ⟨c, hc, hm⟩
  · exact h
  · have hlt := lt_of_mem_children hc
    exact lt_size_of_mem_preorder hlt.2 hm
termination_by t.size - n

theorem mem_preorder_trans {n : Nat} (hm : m ∈ t.preorder c) (hc : c ∈ t.preorder n) :
    m ∈ t.preorder n := by
  rcases mem_preorder_iff_child.mp hc with rfl | ⟨d, hd, hc⟩
  · exact hm
  · have hlt := lt_of_mem_children hd
    exact mem_preorder_iff_child.mpr (.inr ⟨d, hd, mem_preorder_trans hm hc⟩)
termination_by t.size - n

theorem mem_preorder_of_mem_child (hc : c ∈ t.children n) (hm : m ∈ t.preorder c) :
    m ∈ t.preorder n :=
  mem_preorder_iff_child.mpr (.inr ⟨c, hc, hm⟩)

/-- No node is below two siblings. -/
theorem preorder_disjoint {before after : List NodeId} (h : t.children n = before ++ c :: after)
    (hm : m ∈ t.preorder c) : ∀ d ∈ before ++ after, m ∉ t.preorder d := by
  have hc : c ∈ t.children n := by
    rw [h]
    exact List.mem_append_right _ List.mem_cons_self
  have hnodup := nodup_preorder (lt_size_of_mem_children hc)
  rw [preorder_eq, List.nodup_cons, h, List.flatMap_append, List.flatMap_cons] at hnodup
  obtain ⟨_, htail, hbefore⟩ := List.nodup_append.mp hnodup.2
  obtain ⟨_, _, hafter⟩ := List.nodup_append.mp htail
  intro d hd hmd
  rcases List.mem_append.mp hd with hd | hd
  · exact hbefore m (List.mem_flatMap.mpr ⟨d, hd, hmd⟩) m (List.mem_append_left _ hm) rfl
  · exact hafter m hm m (List.mem_flatMap.mpr ⟨d, hd, hmd⟩) rfl

/-- The way up from a node below `c` leaves the subtree of `c` at its parent. -/
theorem ancestors_cut {m : Nat} (hm : m ∈ t.preorder c) (hc : t.parent c = some n) :
    ∃ below, t.ancestors m = below ++ n :: t.ancestors n ∧ ∀ a ∈ below, a ∈ t.preorder c := by
  rcases mem_ancestors_of_mem_preorder hm with rfl | hup
  · exact ⟨[], ancestors_of_some hc, fun _ ha => by cases ha⟩
  · cases hp : t.parent m with
    | none =>
      rw [ancestors_of_none hp] at hup
      cases hup
    | some p =>
      rw [ancestors_of_some hp] at hup ⊢
      have hpc : p ∈ t.preorder c := by
        rcases List.mem_cons.mp hup with rfl | hup
        · exact mem_preorder_self t c
        · exact mem_preorder_of_mem_ancestors hup
      obtain ⟨below, hcut, hbelow⟩ := ancestors_cut hpc hc
      refine ⟨p :: below, by rw [hcut, List.cons_append], fun a ha => ?_⟩
      rcases List.mem_cons.mp ha with rfl | ha
      · exact hpc
      · exact hbelow a ha
termination_by m
decreasing_by exact parent_lt hp

/-- What hides a node below a child of `n` is the child or below it, or `n` itself. -/
theorem hides_of_mem_child (hc : c ∈ t.children n) (hm : m ∈ t.preorder c) :
    t.hides stop n m = (stop (t.kind n) || t.hides stop c m) := by
  obtain ⟨below, hcut, hbelow⟩ := ancestors_cut hm (parent_of_mem_children hc).1
  have hlt := lt_of_mem_children hc
  have hn := Nat.lt_trans hlt.1 hlt.2
  have hup : ∀ {k : Nat}, k < t.size → n ≤ k → (t.ancestors n).any
      (fun a => (t.preorder k).contains a && stop (t.kind a)) = false := by
    intro k _ hk
    rw [List.any_eq_false]
    intro a ha hin
    have hmem : a ∈ t.preorder k := by simpa using (Bool.and_eq_true_iff.mp hin).1
    have := le_of_mem_preorder hmem
    have := lt_of_mem_ancestors ha
    omega
  have hself : (t.preorder c).contains n = false := by
    rw [List.contains_eq_mem, decide_eq_false_iff_not]
    intro hin
    have := le_of_mem_preorder hin
    omega
  have hsub : ∀ {k : Nat}, c ∈ t.preorder k → below.any
      (fun a => (t.preorder k).contains a && stop (t.kind a)) = below.any (stop <| t.kind ·) := by
    intro k hk
    rw [Bool.eq_iff_iff, List.any_eq_true, List.any_eq_true]
    refine exists_congr fun a => and_congr_right fun ha => ?_
    have hin : (t.preorder k).contains a = true := by
      simpa using mem_preorder_trans (hbelow a ha) hk
    rw [hin, Bool.true_and]
  rw [hides, hides, descendantsOrSelf_eq hn, descendantsOrSelf_eq hlt.2, hcut, List.any_append,
    List.any_append, List.any_cons, List.any_cons, hup hn (Nat.le_refl n), hup hlt.2 (Nat.le_of_lt hlt.1),
    hself, hsub (mem_preorder_self t c), hsub (mem_preorder_of_mem_child hc (mem_preorder_self t c))]
  simp [mem_preorder_self, Bool.or_comm]

/-- Stopping on the way down leaves out what is hidden. -/
theorem exposed_eq {n : Nat} (h : n < t.size) : t.exposed stop n = t.reached stop n := by
  have hself : t.hides stop n n = false := by
    rw [hides, List.any_eq_false]
    intro a ha hin
    have hmem : a ∈ t.preorder n := by
      rw [← descendantsOrSelf_eq h]
      simpa using (Bool.and_eq_true_iff.mp hin).1
    exact absurd (le_of_mem_preorder hmem) (Nat.not_le.mpr (lt_of_mem_ancestors ha))
  rw [exposed, descendantsOrSelf_eq h, preorder_eq, reached_eq, List.filter_cons_of_pos (by simp [hself]),
    List.filter_flatMap]
  congr 1
  split
  · next hstop =>
    rw [List.flatMap_eq_nil_iff]
    intro c hc
    rw [List.filter_eq_nil_iff]
    intro m hm
    simp [hides_of_mem_child hc hm, hstop]
  · next hstop =>
    refine List.flatMap_congr fun c hc => ?_
    have hlt := lt_of_mem_children hc
    rw [← exposed_eq hlt.2, exposed, descendantsOrSelf_eq hlt.2]
    refine List.filter_congr fun m hm => ?_
    rw [hides_of_mem_child hc hm]
    simp [hstop]
termination_by t.size - n

theorem nodup_exposed (h : n < t.size) : (t.exposed stop n).Nodup := by
  rw [exposed, descendantsOrSelf_eq h]
  exact (nodup_preorder h).filter _

theorem mem_reached_iff : m ∈ t.reached stop n ↔
    m = n ∨ stop (t.kind n) = false ∧ ∃ c ∈ t.children n, m ∈ t.reached stop c := by
  rw [reached_eq, List.mem_cons]
  cases stop (t.kind n) <;> simp

theorem mem_preorder_of_mem_reached {n : Nat} (h : m ∈ t.reached stop n) : m ∈ t.preorder n := by
  rcases mem_reached_iff.mp h with rfl | ⟨_, c, hc, hm⟩
  · exact mem_preorder_self t m
  · have hlt := lt_of_mem_children hc
    exact mem_preorder_of_mem_child hc (mem_preorder_of_mem_reached hm)
termination_by t.size - n

/-- Into each node that is reached there is one event, in order. -/
theorem entered_brackets (t : Tree) (stop : Kind → Bool) (n : NodeId) :
    (t.brackets stop n).filterMap WalkEvent.entered? = t.reached stop n := by
  rw [brackets_eq, reached_eq]
  split
  · rfl
  · have hbelow : (t.children n).flatMap (fun c => (t.brackets stop c).filterMap WalkEvent.entered?) =
        (t.children n).flatMap (t.reached stop) :=
      List.flatMap_congr fun c hc =>
        have := lt_of_mem_children hc
        entered_brackets t stop c
    simp [WalkEvent.entered?, List.filterMap_flatMap, hbelow]
termination_by t.size - n

theorem node_mem_of_mem_brackets {n : Nat} {e : WalkEvent} (he : e ∈ t.brackets stop n) :
    e.node ∈ t.preorder n := by
  rw [brackets_eq] at he
  split at he
  · rw [List.mem_singleton.mp he]
    exact mem_preorder_self t n
  · rcases List.mem_cons.mp he with rfl | he
    · exact mem_preorder_self t n
    · rcases List.mem_append.mp he with he | he
      · obtain ⟨c, hc, he⟩ := List.mem_flatMap.mp he
        have hlt := lt_of_mem_children hc
        exact mem_preorder_of_mem_child hc (node_mem_of_mem_brackets he)
      · rw [List.mem_singleton.mp he]
        exact mem_preorder_self t n
termination_by t.size - n

/-- A node that is left was reached, and the way did not stop there. -/
theorem mem_reached_of_leave {n : Nat} (h : .leave m ∈ t.brackets stop n) :
    m ∈ t.reached stop n ∧ stop (t.kind m) = false := by
  rw [brackets_eq] at h
  rw [mem_reached_iff]
  split at h
  · cases List.mem_singleton.mp h
  · next hstop =>
    rw [Bool.not_eq_true] at hstop
    rcases List.mem_cons.mp h with h | h
    · cases h
    · rcases List.mem_append.mp h with h | h
      · obtain ⟨c, hc, h⟩ := List.mem_flatMap.mp h
        have hlt := lt_of_mem_children hc
        obtain ⟨hm, hkind⟩ := mem_reached_of_leave h
        exact ⟨.inr ⟨hstop, c, hc, hm⟩, hkind⟩
      · cases List.mem_singleton.mp h
        exact ⟨.inl rfl, hstop⟩
termination_by t.size - n

/-- The events at a node that is reached and below it stand together, and there are no others. -/
theorem brackets_split {n : Nat} (hm : m ∈ t.reached stop n) : ∃ before after,
    t.brackets stop n = before ++ t.brackets stop m ++ after ∧
      ∀ e ∈ before ++ after, e.node ∉ t.preorder m := by
  rcases mem_reached_iff.mp hm with rfl | ⟨hstop, c, hc, hm⟩
  · exact ⟨[], [], by simp, by simp⟩
  · have hlt := lt_of_mem_children hc
    obtain ⟨before, after, hsplit, hout⟩ := brackets_split hm
    obtain ⟨left, right, hchildren⟩ := List.append_of_mem hc
    have hmc : ∀ {x}, x ∈ t.preorder m → x ∈ t.preorder c := fun hx =>
      mem_preorder_trans hx (mem_preorder_of_mem_reached hm)
    have hn : n ∉ t.preorder m := fun hin =>
      absurd (le_of_mem_preorder (hmc hin)) (Nat.not_le.mpr hlt.1)
    have hbeside : ∀ d ∈ left ++ right, ∀ e ∈ t.brackets stop d, e.node ∉ t.preorder m :=
      fun d hd e he hin => preorder_disjoint hchildren (hmc hin) d hd (node_mem_of_mem_brackets he)
    refine ⟨.enter n :: left.flatMap (t.brackets stop) ++ before,
      after ++ (right.flatMap (t.brackets stop) ++ [.leave n]), ?_, fun e he => ?_⟩
    · rw [brackets_eq, hstop, hchildren, List.flatMap_append, List.flatMap_cons, hsplit]
      simp
    · simp only [List.cons_append, List.mem_cons, List.mem_append, List.mem_flatMap,
        List.not_mem_nil, or_false] at he
      rcases he with rfl | (⟨d, hd, he⟩ | he) | he | ⟨d, hd, he⟩ | rfl
      · exact hn
      · exact hbeside d (List.mem_append_left _ hd) e he
      · exact hout e (List.mem_append_left _ he)
      · exact hout e (List.mem_append_right _ he)
      · exact hbeside d (List.mem_append_right _ hd) e he
      · exact hn
termination_by t.size - n

end Tree

end JavaSyntax
