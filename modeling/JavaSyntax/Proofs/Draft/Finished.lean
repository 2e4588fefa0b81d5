import JavaSyntax.Proofs.Draft.Walk

namespace JavaSyntax

namespace Draft

variable {d : Draft}

/-- The tree `t` holds the nodes `order` of the draft, which are `root` and what hangs below it. -/
structure Mirrored (d : Draft) (root : DraftId) (order : List DraftId) (t : Tree) : Prop where
  size : t.size = order.length
  first : order[0]? = some root
  nodup : order.Nodup
  node : ∀ (n : NodeId) (id : DraftId), order[n]? = some id → ∃ m, d.nodes[id]? = some m ∧
    m.phase = .closed ∧ t.kind n = m.kind ∧ t.image n = m.image ∧
    (t.children n).map (order[·]?) = m.children.map some
  placed : ∀ (n : NodeId) (id : DraftId), order[n]? = some id →
    ∃ m, (d.placePending d.lastEnd).nodes[id]? = some m ∧ m.span = some (t.span n)
  child : ∀ (n i c : Nat), t.childAt n i = .ok c → t.parent c = some n ∧ t.position c = i
  attached : ∀ id ∈ order, id ≠ root → ∃ p ∈ order, d.parentOf id = some p

mutual

theorem GrownAt.length : ∀ {s : Sprout} {x : DraftId} {ids : List DraftId}, GrownAt d s x ids →
    ids.length = s.toBranch.size
  | ⟨_, _, _, _⟩, _, _, ⟨_, _, _, hb, rfl⟩ => by
    simp only [List.length_cons, Sprout.toBranch, Branch.size, hb.length]

theorem AllGrownAt.length : ∀ {ss : List Sprout} {xs ids : List DraftId}, AllGrownAt d ss xs ids →
    ids.length = Branch.sizeOfAll (Sprout.toBranches ss)
  | [], _, _, ⟨_, rfl⟩ => rfl
  | _ :: _, _, _, ⟨_, _, _, _, _, rfl, hs, hss⟩ => by
    simp only [List.length_append, Sprout.toBranches, Branch.sizeOfAll, hs.length, hss.length]

end

/-- The nodes below one of several sprouts, after those below the ones before it. -/
theorem AllGrownAt.get {before after : List Sprout} {u : Sprout} {xs ids : List DraftId}
    (h : AllGrownAt d (before ++ u :: after) xs ids) : ∃ y own rest,
      xs[before.length]? = some y ∧ GrownAt d u y own ∧
      ids.drop (Branch.sizeOfAll (Sprout.toBranches before)) = own ++ rest := by
  induction before generalizing xs ids with
  | nil =>
    obtain ⟨x, xs, own, others, rfl, rfl, hs, _⟩ := h
    exact ⟨x, own, others, rfl, hs, rfl⟩
  | cons s before ih =>
    obtain ⟨x, xs, own, others, rfl, rfl, hs, hss⟩ := h
    obtain ⟨y, mine, rest, hy, hu, hdrop⟩ := ih hss
    refine ⟨y, mine, rest, hy, hu, ?_⟩
    rw [Sprout.toBranches, Branch.sizeOfAll, ← hs.length, ← List.drop_drop, List.drop_left, hdrop]

theorem AllGrownAt.length_kids {ss : List Sprout} {xs ids : List DraftId}
    (h : AllGrownAt d ss xs ids) : xs.length = ss.length := by
  induction ss generalizing xs ids with
  | nil =>
    obtain ⟨rfl, _⟩ := h
    rfl
  | cons s ss ih =>
    obtain ⟨x, xs, own, others, rfl, _, _, hss⟩ := h
    simp only [List.length_cons, ih hss]

/-- Node `n` of the tree is node `x` of the draft, and the nodes below follow in the order. -/
def PlantedAt (d : Draft) (t : Tree) (order : List DraftId) (n : Nat) (x : DraftId) : Prop :=
  ∃ u own rest, GrownAt d u x own ∧ order.drop n = own ++ rest ∧ t.Rooted n u.toBranch

variable {t : Tree} {order : List DraftId} {n i c : Nat} {x : DraftId}

theorem PlantedAt.order_eq (h : PlantedAt d t order n x) : order[n]? = some x := by
  obtain ⟨u, own, rest, hu, hdrop, _⟩ := h
  obtain ⟨_, _, _, _, rfl⟩ := hu.root
  rw [← Nat.add_zero n, ← List.getElem?_drop, hdrop]
  rfl

theorem PlantedAt.node (h : PlantedAt d t order n x) : ∃ m, d.nodes[x]? = some m ∧
    m.phase = .closed ∧ t.kind n = m.kind ∧ t.image n = m.image ∧
    t.span n = m.span.getD default ∧ (t.children n).length = m.children.length := by
  obtain ⟨⟨kind, image, span, ss⟩, own, rest, ⟨kids, below, hx, hbelow, rfl⟩, _, hroot⟩ := h
  obtain ⟨p, hn, _⟩ := look_eq_some hx
  refine ⟨_, hn, rfl, hroot.kind_eq, hroot.image_eq, hroot.span_eq, ?_⟩
  rw [hroot.children_eq, Branch.length_siblingNumbers, hbelow.length_kids, Sprout.toBranch,
    Sprout.toBranches_eq_map, List.length_map]

theorem PlantedAt.child (h : PlantedAt d t order n x) (hc : (t.children n)[i]? = some c) :
    ∃ m z, d.nodes[x]? = some m ∧ m.children[i]? = some z ∧ PlantedAt d t order c z := by
  obtain ⟨⟨kind, image, span, ss⟩, own, rest, ⟨kids, below, hx, hbelow, rfl⟩, hdrop, hroot⟩ := h
  obtain ⟨p, hn, _⟩ := look_eq_some hx
  obtain ⟨before, b, after, hsplit, rfl, rfl, hchild, _, _⟩ := hroot.child hc
  simp only [Sprout.toBranch, Sprout.toBranches_eq_map] at hsplit
  obtain ⟨us, vs, rfl, rfl, hvs⟩ := List.map_eq_append_iff.mp hsplit
  obtain ⟨v, ws, rfl, rfl, rfl⟩ := List.map_eq_cons_iff.mp hvs
  obtain ⟨z, mine, others, hz, hv, hmine⟩ := hbelow.get
  refine ⟨_, z, hn, by rwa [List.length_map], v, mine, others ++ rest, hv, ?_, hchild⟩
  rw [← Sprout.toBranches_eq_map]
  have hle : Branch.sizeOfAll (Sprout.toBranches us) ≤ below.length := by
    rw [hbelow.length, Sprout.toBranches_eq_map, Sprout.toBranches_eq_map, List.map_append,
      Branch.sizeOfAll_append]
    exact Nat.le_add_right _ _
  rw [Nat.add_assoc, ← List.drop_drop, hdrop, Nat.add_comm 1, List.cons_append, List.drop_succ_cons,
    List.drop_append_of_le_length hle, hmine, List.append_assoc]

theorem plantedAt_of_lt {s : Sprout} {root : DraftId} (h : GrownAt d s root order)
    (ht : t.root = s.toBranch) : ∀ n < t.size, ∃ x, PlantedAt d t order n x := by
  refine Tree.forall_nodes ?_ fun n i c ⟨x, hn⟩ hc => ?_
  · exact ⟨root, s, order, [], h, by simp, ht ▸ t.rooted_root⟩
  · obtain ⟨_, z, _, _, hz⟩ := hn.child hc
    exact ⟨z, hz⟩

/-- The children of a node of the tree are the children in the draft, in their order. -/
theorem PlantedAt.children_eq (h : PlantedAt d t order n x) {m : DraftNode}
    (hm : d.nodes[x]? = some m) : (t.children n).map (order[·]?) = m.children.map some := by
  apply List.ext_getElem?
  intro i
  rw [List.getElem?_map, List.getElem?_map]
  cases hc : (t.children n)[i]? with
  | none =>
    obtain ⟨m', hm', _, _, _, _, hlength⟩ := h.node
    cases hm.symm.trans hm'
    rw [List.getElem?_eq_none_iff, hlength, ← List.getElem?_eq_none_iff] at hc
    rw [hc]
    rfl
  | some c =>
    obtain ⟨m', z, hm', hz, hplanted⟩ := h.child hc
    cases hm.symm.trans hm'
    rw [hz, Option.map_some, Option.map_some, hplanted.order_eq]

theorem AllGrownAt.exists_grownAt {ss : List Sprout} {root : DraftId}
    (h : d.AllGrownAt ss [root] order) : ∃ s, d.GrownAt s root order := by
  cases ss with
  | nil => cases h.1
  | cons s ss =>
    obtain ⟨x, xs, own, others, hx, rfl, hs, hrest⟩ := h
    cases hx
    cases ss with
    | cons _ _ =>
      obtain ⟨_, _, _, _, hnil, _⟩ := hrest
      cases hnil
    | nil =>
      obtain ⟨_, rfl⟩ := hrest
      exact ⟨s, by rwa [List.append_nil]⟩

/-- The recursion below a root reads what the walk from it takes, and stops where the walk stops. -/
theorem Walk.branch {root : DraftId} {stopped : Option Misuse} (h : d.Walk [root] order stopped)
    (hle : order.length ≤ d.nodes.size) :
    match stopped with
    | none => ∃ s, d.GrownAt s root order ∧ d.branch root = .ok s.toBranch
    | some m => d.branch root = .error m := by
  cases stopped with
  | none =>
    obtain ⟨ss, hss⟩ := h.grown
    obtain ⟨s, hs⟩ := hss.exists_grownAt
    exact ⟨s, hs, branchBelow_grown _ hs hle⟩
  | some m =>
    have hstop := h.mapM_branchBelow d.nodes.size hle
    rw [List.mapM_cons] at hstop
    change d.branchBelow d.nodes.size root = .error m
    cases hbelow : d.branchBelow d.nodes.size root with
    | error e =>
      rw [hbelow] at hstop
      exact congrArg Except.error (Except.error.inj hstop)
    | ok branch =>
      rw [hbelow] at hstop
      cases hstop

end Draft

namespace Builder

open Draft

variable {σ : Type} {b : Builder σ} {root : DraftId}

/-- What is read from a root without a parent: either the walk below it meets closed nodes only and
they make up the tree, or it stops. -/
theorem finish_of_walk (hb : b.draft.Coherent) {n : DraftNode} (hn : b.draft.nodes[root]? = some n)
    (hroot : n.parent = none) : ∃ order stopped left,
    (b.draft.placePending b.draft.lastEnd).Walk [root] order stopped ∧
    (b.draft.placePending b.draft.lastEnd).Met root order left ∧
    match stopped with
    | none => ∃ s, (b.draft.placePending b.draft.lastEnd).GrownAt s root order ∧
      b.finish root = .ok (.ofBranch b.text s.toBranch)
    | some m => b.finish root = .error ⟨m, b.memory⟩ := by
  have hspans := respanned_placePending b.draft b.draft.lastEnd
  have hcoherent := hb.placePending b.draft.lastEnd
  generalize hd : b.draft.placePending b.draft.lastEnd = d at hspans hcoherent
  have hparent : d.parentOf root = none :=
    (congrFun hspans.parentOf_eq root).trans ((parentOf_of_nodes hn).trans hroot)
  have hlt : root < d.nodes.size := hspans.size ▸ lt_size_of_nodes hn
  obtain ⟨order, stopped, hwalk, left, hmet⟩ := (met_root hlt).walk hcoherent hparent
  rw [List.nil_append] at hmet
  have hfinish : b.finish root = ((d.branch root).mapError (⟨·, b.memory⟩)).map (.ofBranch b.text) := by
    simp only [finish, node_eq_ok.mpr hn, hroot, hd, bind, Except.bind]
    cases d.branch root <;> rfl
  refine ⟨order, stopped, left, hwalk, hmet, ?_⟩
  have hbranch := hwalk.branch hmet.length_le
  cases stopped with
  | none =>
    obtain ⟨s, hs, hok⟩ := hbranch
    refine ⟨s, hs, ?_⟩
    rw [hfinish, hok]
    rfl
  | some m =>
    rw [hfinish, hbranch]
    rfl

/-- A finished tree is what hangs below its root in the draft. -/
theorem mirrored_of_grown (hb : b.draft.Coherent) {order left : List DraftId} {s : Sprout}
    (hs : (b.draft.placePending b.draft.lastEnd).GrownAt s root order)
    (hmet : (b.draft.placePending b.draft.lastEnd).Met root order left) :
    b.draft.Mirrored root order (.ofBranch b.text s.toBranch) := by
  have hspans := respanned_placePending b.draft b.draft.lastEnd
  have hplaced := @Coherent.placed b.draft b.draft.lastEnd hb
  generalize hd : b.draft.placePending b.draft.lastEnd = d at hs hmet hspans hplaced
  have hsize : (Tree.ofBranch b.text s.toBranch).size = order.length :=
    (Tree.size_eq _).trans hs.length.symm
  have hplanted : ∀ n x, order[n]? = some x → d.PlantedAt (.ofBranch b.text s.toBranch) order n x := by
    intro n x hx
    obtain ⟨y, hy⟩ := plantedAt_of_lt hs rfl n (hsize ▸ (List.getElem?_eq_some_iff.mp hx).1)
    cases hy.order_eq.symm.trans hx
    exact hy
  obtain ⟨_, _, _, _, horder⟩ := hs.root
  refine ⟨hsize, by rw [horder]; rfl, (List.nodup_append.mp hmet.nodup).1, ?_, ?_, ?_, ?_⟩
  · intro n x hx
    obtain ⟨m, hm, hclosed, hkind, himage, _, _⟩ := (hplanted n x hx).node
    obtain ⟨k, hk, he, _⟩ := hspans.back hm
    have hchildren := (hplanted n x hx).children_eq hm
    rw [he] at hclosed hkind himage hchildren
    exact ⟨k, hk, hclosed, hkind, himage, hchildren⟩
  · intro n x hx
    obtain ⟨m, hm, hclosed, _, _, hspan, _⟩ := (hplanted n x hx).node
    refine ⟨m, hd ▸ hm, ?_⟩
    cases hms : m.span with
    | none => exact absurd hms (hplaced hm (by simp [hclosed]))
    | some span =>
      rw [hms] at hspan
      rw [hspan]
      rfl
  · intro n i c hc
    have hget : ((Tree.ofBranch b.text s.toBranch).children n)[i]? = some c := by
      rw [Tree.childAt, entryAt] at hc
      split at hc
      · cases hc
      · next h =>
        cases hc
        exact h
    have hn : n < (Tree.ofBranch b.text s.toBranch).size :=
      Nat.lt_of_lt_of_le (Tree.lt_of_mem_children (List.mem_of_getElem? hget)).1
        (Nat.le_of_lt (Tree.lt_of_mem_children (List.mem_of_getElem? hget)).2)
    obtain ⟨x, u, own, rest, hu, hdrop, hroot⟩ := plantedAt_of_lt hs rfl n hn
    obtain ⟨_, _, _, _, _, _, _, hparent, hposition⟩ := hroot.child hget
    exact ⟨hparent, hposition⟩
  · intro x hx hne
    rcases hmet.found x (List.mem_append_left _ hx) with he | ⟨p, hp, hparent⟩
    · exact absurd he hne
    · exact ⟨p, hp, (congrFun hspans.parentOf_eq x).symm.trans hparent⟩

theorem ok_of_toOption {ε α : Type} {x : Except ε α} {a : α} (h : x.toOption = some a) :
    x = .ok a := by
  cases x with
  | error e => cases h
  | ok b => exact congrArg Except.ok (Option.some.inj h)

theorem exists_of_finish {t : Tree} (h : b.finish root = .ok t) :
    ∃ n branch, b.draft.nodes[root]? = some n ∧ n.parent = none ∧
      (b.draft.placePending b.draft.lastEnd).branch root = .ok branch ∧ t = .ofBranch b.text branch := by
  unfold finish at h
  obtain ⟨n, hn, h⟩ := bind_eq_ok.mp h
  cases hparent : n.parent with
  | some p =>
    simp only [hparent, Option.isSome_some, if_true] at h
    cases h
  | none =>
    simp only [hparent, Option.isSome_none, Bool.false_eq_true, if_false] at h
    obtain ⟨branch, hbranch, h⟩ := bind_eq_ok.mp h
    cases h
    cases hb : (b.draft.placePending b.draft.lastEnd).branch root with
    | error m =>
      rw [hb] at hbranch
      cases hbranch
    | ok branch' =>
      rw [hb] at hbranch
      cases hbranch
      exact ⟨n, branch, node_eq_ok.mp hn, hparent, rfl, rfl⟩

/-- A root that is finished makes a tree that mirrors the draft. -/
theorem exists_mirrored (hb : b.draft.Coherent) {t : Tree} (h : b.finish root = .ok t) :
    ∃ order, b.draft.Mirrored root order t := by
  obtain ⟨n, _, hn, hparent, _⟩ := exists_of_finish h
  obtain ⟨order, stopped, left, _, hmet, hfinish⟩ := finish_of_walk hb hn hparent
  cases stopped with
  | none =>
    obtain ⟨s, hs, hok⟩ := hfinish
    cases hok.symm.trans h
    exact ⟨order, mirrored_of_grown hb hs hmet⟩
  | some m =>
    rw [hfinish] at h
    cases h

/-- Whatever is done to a construction, in any order and with any finalizer, parents and children
agree at all times, within finalizers too. The walk below a root without a parent ends, and it is what
decides whether the root can be finished. A finished tree has the nodes of the walk, each once. -/
theorem links_and_finish (text : String) (f : Finalizer σ) (memory : σ) (ops : List Operation)
    (h : (start text f memory).performAll ops = .ok b) :
    Linked b.draft.childrenOf b.draft.parentOf ∧
    (∀ id d, b.Closes id d → Linked d.childrenOf d.parentOf) ∧
    (∀ root, root < b.draft.nodes.size → b.draft.parentOf root = none →
      ∃ order stopped, (b.draft.placePending b.draft.lastEnd).Walk [root] order stopped ∧
        order.Nodup ∧ ((∃ t, b.finish root = .ok t) ↔ stopped = none)) ∧
    ∀ root t, b.finish root = .ok t → ∃ order,
      (b.draft.placePending b.draft.lastEnd).Walk [root] order none ∧ b.draft.Mirrored root order t := by
  have hb : b.draft.Coherent := performAll_coherent coherent_empty h
  refine ⟨hb.linked, fun id d hd => (hd.coherent hb).1.linked, ?_, ?_⟩
  · intro root hlt hparent
    have hn := Array.getElem?_eq_getElem hlt
    rw [parentOf_of_nodes hn] at hparent
    obtain ⟨order, stopped, left, hwalk, hmet, hfinish⟩ := finish_of_walk hb hn hparent
    refine ⟨order, stopped, hwalk, (List.nodup_append.mp hmet.nodup).1, ?_⟩
    cases stopped with
    | none =>
      obtain ⟨s, _, hok⟩ := hfinish
      exact ⟨fun _ => rfl, fun _ => ⟨_, hok⟩⟩
    | some m => simp [hfinish]
  · intro root t ht
    have hstart := ht
    unfold finish at hstart
    obtain ⟨n, hn, hstart⟩ := bind_eq_ok.mp hstart
    have hparent : n.parent = none := by
      cases hp : n.parent with
      | none => rfl
      | some p =>
        simp only [hp, Option.isSome_some, if_true] at hstart
        cases hstart
    obtain ⟨order, stopped, left, hwalk, hmet, hfinish⟩ :=
      finish_of_walk hb (node_eq_ok.mp hn) hparent
    cases stopped with
    | none =>
      obtain ⟨s, hs, hok⟩ := hfinish
      cases hok.symm.trans ht
      exact ⟨order, hwalk, mirrored_of_grown hb hs hmet⟩
    | some m =>
      rw [hfinish] at ht
      cases ht

/-- `A.this`: while the outer node is closed, its child is replaced twice by new nodes. -/
theorem links_and_finish_outer_this : ∃ b : Builder Unit,
    (start "A.this" Finalizer.disambiguate ()).performAll
        [.create .thisExpression, .create .ambiguousName, .append 0 1, .extend 1 ⟨0, 1, by decide⟩,
          .pushImage 1 "A", .close 1, .extend 0 ⟨1, 6, by decide⟩, .close 0] = .ok b ∧
      Linked b.draft.childrenOf b.draft.parentOf ∧
      ∃ t order, b.finish 0 = .ok t ∧ t.size = 3 ∧ b.draft.Mirrored 0 order t := by
  have hrun : (((start "A.this" Finalizer.disambiguate ()).performAll
      [.create .thisExpression, .create .ambiguousName, .append 0 1, .extend 1 ⟨0, 1, by decide⟩,
        .pushImage 1 "A", .close 1, .extend 0 ⟨1, 6, by decide⟩, .close 0] >>=
      (·.finish 0)).toOption.map Tree.size) = some 3 := by decide +kernel
  obtain ⟨t, ht, hsize⟩ := Option.map_eq_some_iff.mp hrun
  obtain ⟨b, hb, hfinish⟩ := bind_eq_ok.mp (ok_of_toOption ht)
  obtain ⟨hlinks, _, _, hmirrored⟩ := links_and_finish _ _ _ _ hb
  obtain ⟨order, _, horder⟩ := hmirrored 0 t hfinish
  exact ⟨b, hb, hlinks, t, order, hfinish, hsize, horder⟩

end Builder

end JavaSyntax
