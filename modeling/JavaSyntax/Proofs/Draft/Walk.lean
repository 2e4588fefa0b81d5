import JavaSyntax.Proofs.Draft.Coherence
import JavaSyntax.Proofs.Event.Replay
import JavaSyntax.Proofs.Tree.Table

namespace JavaSyntax

namespace Draft

variable {d : Draft}

/-- The walk from a stack of nodes. The first is taken off and its children go in front of the others.
`order` are the nodes taken, and `stopped` says why the walk met a node that is not closed. -/
inductive Walk (d : Draft) : (stack order : List DraftId) → (stopped : Option Misuse) → Prop
  | done : Walk d [] [] none
  | stop {id : DraftId} {stack : List DraftId} {m : Misuse} (unclosed : d.closedNode id = .error m) :
    Walk d (id :: stack) [] (some m)
  | step {id : DraftId} {n : DraftNode} {stack order : List DraftId} {stopped : Option Misuse}
    (closed : d.closedNode id = .ok n) (rest : Walk d (n.children ++ stack) order stopped) :
    Walk d (id :: stack) (id :: order) stopped

theorem closedNode_eq_ok {id : DraftId} {n : DraftNode} :
    d.closedNode id = .ok n ↔ d.nodes[id]? = some n ∧ n.phase = .closed := by
  unfold closedNode
  rw [bind_eq_ok]
  constructor
  · rintro ⟨m, hm, h⟩
    split at h
    · next hp =>
      cases h
      exact ⟨node_eq_ok.mp hm, hp⟩
    · cases h
  · rintro ⟨hn, hp⟩
    exact ⟨n, node_eq_ok.mpr hn, by rw [if_pos hp]; rfl⟩

/-- Where a walk stands: no node was met twice, and each but the root was met below its parent. -/
structure Met (d : Draft) (root : DraftId) (visited stack : List DraftId) : Prop where
  nodup : (visited ++ stack).Nodup
  bound : ∀ x ∈ visited ++ stack, x < d.nodes.size
  found : ∀ x ∈ visited ++ stack, x = root ∨ ∃ p ∈ visited, d.parentOf x = some p

theorem met_root {root : DraftId} (h : root < d.nodes.size) : d.Met root [] [root] := by
  refine ⟨List.nodup_singleton root, ?_, ?_⟩
  · intro x hx
    rwa [List.mem_singleton.mp hx]
  · intro x hx
    exact .inl (List.mem_singleton.mp hx)

/-- The children of a node are met for the first time when the node is taken. -/
theorem Met.step (hd : d.Coherent) {root id : DraftId} {n : DraftNode}
    {visited stack : List DraftId} (hroot : d.parentOf root = none)
    (h : d.Met root visited (id :: stack)) (hn : d.nodes[id]? = some n) :
    d.Met root (visited ++ [id]) (n.children ++ stack) := by
  have hchildren : ∀ c ∈ n.children, d.parentOf c = some id := by
    intro c hc
    rw [← childrenOf_of_nodes hn] at hc
    exact (hd.linked.mem_iff id c).mp hc
  have hid : id ∉ visited := fun hv =>
    (List.nodup_append.mp h.nodup).2.2 id hv id List.mem_cons_self rfl
  have hnew : ∀ c ∈ n.children, c ∉ visited ++ id :: stack := by
    intro c hc hmet
    have hparent := hchildren c hc
    rcases h.found c hmet with rfl | ⟨p, hp, hparent'⟩
    · rw [hroot] at hparent
      cases hparent
    · cases hparent.symm.trans hparent'
      exact hid hp
  have hperm : ∀ x, x ∈ visited ++ [id] ++ (n.children ++ stack) ↔
      x ∈ n.children ∨ x ∈ visited ++ id :: stack := by
    intro x
    simp only [List.mem_append, List.mem_cons, List.not_mem_nil, or_false]
    tauto
  refine ⟨?_, ?_, ?_⟩
  · have hdisjoint : List.Disjoint n.children (visited ++ id :: stack) := fun c hc hm => hnew c hc hm
    have hall : (n.children ++ (visited ++ id :: stack)).Nodup := by
      refine List.Nodup.append ?_ h.nodup hdisjoint
      rw [← childrenOf_of_nodes hn]
      exact hd.linked.nodup id
    refine List.Perm.nodup ?_ hall
    have hmove : (n.children ++ (visited ++ id :: stack)).Perm
        ((visited ++ [id]) ++ (n.children ++ stack)) := by
      rw [← List.append_assoc (visited ++ [id]), List.append_cons, ← List.append_assoc n.children]
      exact List.perm_append_comm.append_right stack
    exact hmove
  · intro x hx
    rcases (hperm x).mp hx with hc | hm
    · obtain ⟨m, hm, _⟩ := Option.bind_eq_some_iff.mp (hchildren x hc)
      exact lt_size_of_nodes hm
    · exact h.bound x hm
  · intro x hx
    rcases (hperm x).mp hx with hc | hm
    · exact .inr ⟨id, List.mem_append_right _ List.mem_cons_self, hchildren x hc⟩
    · rcases h.found x hm with he | ⟨p, hp, hparent⟩
      · exact .inl he
      · exact .inr ⟨p, List.mem_append_left _ hp, hparent⟩

theorem Met.length_le {root : DraftId} {visited stack : List DraftId}
    (h : d.Met root visited stack) : visited.length ≤ d.nodes.size :=
  length_le_size (List.nodup_append.mp h.nodup).1 fun x hx => h.bound x (List.mem_append_left _ hx)

/-- The walk below a node without a parent ends, and nothing was met twice. -/
theorem Met.walk (hd : d.Coherent) {root : DraftId} {visited stack : List DraftId}
    (hroot : d.parentOf root = none) (h : d.Met root visited stack) :
    ∃ order stopped, Walk d stack order stopped ∧ ∃ left, d.Met root (visited ++ order) left := by
  -- each step takes a node that was never taken before
  induction hk : d.nodes.size - visited.length using Nat.strongRecOn generalizing visited stack with
  | ind k ih =>
    cases stack with
    | nil => exact ⟨[], none, .done, [], by rwa [List.append_nil]⟩
    | cons id stack =>
      cases hn : d.closedNode id with
      | error m => exact ⟨[], some m, .stop hn, id :: stack, by rwa [List.append_nil]⟩
      | ok n =>
        have hmet := h.step hd hroot (closedNode_eq_ok.mp hn).1
        have hlength := hmet.length_le
        simp only [List.length_append, List.length_singleton] at hlength
        obtain ⟨order, stopped, hwalk, left, hleft⟩ :=
          ih (d.nodes.size - (visited ++ [id]).length)
            (by simp only [List.length_append, List.length_singleton]; omega) hmet rfl
        refine ⟨id :: order, stopped, .step hn hwalk, left, ?_⟩
        rwa [List.append_assoc] at hleft

/-- What is walked from two stacks in a row. -/
theorem Walk.split {front back order : List DraftId} {stopped : Option Misuse}
    (h : Walk d (front ++ back) order stopped) :
    (∃ own others, order = own ++ others ∧ Walk d front own none ∧ Walk d back others stopped) ∨
      ∃ m, stopped = some m ∧ Walk d front order (some m) := by
  generalize hs : front ++ back = stack at h
  induction h generalizing front with
  | done =>
    obtain ⟨rfl, rfl⟩ := List.append_eq_nil_iff.mp hs
    exact .inl ⟨[], [], rfl, .done, .done⟩
  | stop unclosed =>
    cases front with
    | nil =>
      rw [List.nil_append] at hs
      exact .inl ⟨[], [], rfl, .done, hs ▸ .stop unclosed⟩
    | cons x front =>
      cases hs
      exact .inr ⟨_, rfl, .stop unclosed⟩
  | step closed rest ih =>
    cases front with
    | nil =>
      rw [List.nil_append] at hs
      exact .inl ⟨[], _, rfl, .done, hs ▸ .step closed rest⟩
    | cons x front =>
      cases hs
      rcases ih (List.append_assoc ..) with ⟨own, others, rfl, hown, hothers⟩ | ⟨m, rfl, hm⟩
      · exact .inl ⟨_ :: own, others, rfl, .step closed hown, hothers⟩
      · exact .inr ⟨m, rfl, .step closed hm⟩

/-- A complete walk from a stack is a tree below each node of the stack. -/
theorem Walk.grown {stack order : List DraftId} (h : Walk d stack order none) :
    ∃ ss, AllGrownAt d ss stack order := by
  induction hk : order.length using Nat.strongRecOn generalizing stack order with
  | ind k ih =>
    cases h with
    | done => exact ⟨[], rfl, rfl⟩
    | @step id n stack order _ closed rest =>
      obtain ⟨hn, hp⟩ := closedNode_eq_ok.mp closed
      rcases rest.split with ⟨own, others, rfl, hown, hothers⟩ | ⟨m, hm, _⟩
      · simp only [List.length_cons, List.length_append] at hk
        obtain ⟨ss, hss⟩ := ih own.length (by omega) hown rfl
        obtain ⟨us, hus⟩ := ih others.length (by omega) hothers rfl
        refine ⟨⟨n.kind, n.image, n.span, ss⟩ :: us, id, stack, id :: own, others, rfl, rfl, ?_, hus⟩
        refine ⟨n.children, own, ?_, hss, rfl⟩
        rw [look_of_nodes hn, ← hp]
      · cases hm

/-- A walk that stops is a tree that cannot be read. -/
theorem Walk.mapM_branchBelow {stack order : List DraftId} {m : Misuse} (fuel : Nat)
    (h : Walk d stack order (some m)) (hfuel : order.length ≤ fuel) :
    stack.mapM (d.branchBelow fuel) = .error m := by
  induction hk : order.length using Nat.strongRecOn generalizing stack order fuel with
  | ind k ih =>
    cases h with
    | stop unclosed =>
      cases fuel <;> simp [List.mapM_cons, branchBelow, unclosed, bind, Except.bind]
    | @step id n stack order _ closed rest =>
      simp only [List.length_cons] at hk hfuel
      obtain ⟨fuel, rfl⟩ := Nat.exists_eq_succ_of_ne_zero (Nat.ne_zero_of_lt hfuel)
      rcases rest.split with ⟨own, others, rfl, hown, hothers⟩ | ⟨_, he, hstop⟩
      · -- the node is read, and the trouble is further on
        simp only [List.length_append] at hk hfuel
        obtain ⟨ss, hss⟩ := hown.grown
        have hchildren := mapM_branchBelow_grown fuel hss (by omega)
        have hothers := ih others.length (by omega) (fuel + 1) hothers (by omega) rfl
        have hid : d.branchBelow (fuel + 1) id =
            .ok ⟨n.kind, n.image, n.span.getD default, Sprout.toBranches ss⟩ := by
          simp [branchBelow, closed, hchildren, bind, Except.bind, pure, Except.pure]
        rw [List.mapM_cons, hid]
        change (stack.mapM (d.branchBelow (fuel + 1)) >>= _) = _
        rw [hothers]
        rfl
      · cases he
        have hchildren := ih order.length (by omega) fuel hstop (by omega) rfl
        simp [List.mapM_cons, branchBelow, closed, hchildren, bind, Except.bind]

end Draft

end JavaSyntax
