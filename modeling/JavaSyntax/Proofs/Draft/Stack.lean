import JavaSyntax.Proofs.Draft.Placement

namespace JavaSyntax

namespace Sprout

/-- What a token at `span` does to an open node around it. -/
def passed (span : Span) (s : Sprout) : Sprout where
  kind := s.kind
  image := s.image
  span := some (s.span.elim span (·.cover span))
  children := fillAll span.start s.children

/-- What closing does to an open node. A node that covers nothing yet goes on waiting. -/
def shut (s : Sprout) : Sprout :=
  match s.span.or (Draft.hull (s.children.filterMap Sprout.span)) with
  | none => s
  | some span => { s with span := some span, children := settleAll span.stop s.children }

end Sprout

namespace Draft

variable {d d' : Draft}

/-- The nodes `xs` are open, innermost first, and what is done of them is `fs`. The innermost has one
more child, `above`, when that child is itself still open. The nodes and those below them are `owned`. -/
def StackAt (d : Draft) : (above : Option DraftId) → (xs : List DraftId) → (fs : List Sprout) →
    (owned : List DraftId) → Prop
  | _, [], fs, owned => fs = [] ∧ owned = []
  | above, x :: xs, fs, owned =>
    ∃ f outer kids below others, fs = f :: outer ∧ owned = x :: below ++ others ∧
      d.nodes[x]? =
        some ⟨f.kind, .opened, xs.head?, kids ++ above.toList, f.span, f.image⟩ ∧
      AllGrownAt d f.children kids below ∧ StackAt d (some x) xs outer others

theorem look_of_nodes_eq {j : DraftId} (h : d'.nodes[j]? = d.nodes[j]?) : d'.look j = d.look j := by
  rw [look, look, h]

theorem AllGrownAt.lt_size {ss : List Sprout} {xs ids : List DraftId}
    (h : AllGrownAt d ss xs ids) : ∀ j ∈ ids, j < d.nodes.size := by
  intro j hj
  obtain ⟨n, hn, _⟩ := h.closed j hj
  exact lt_size_of_look hn

theorem StackAt.lt_size {above : Option DraftId} {xs : List DraftId} {fs : List Sprout}
    {owned : List DraftId} (h : StackAt d above xs fs owned) : ∀ j ∈ owned, j < d.nodes.size := by
  induction xs generalizing above fs owned with
  | nil =>
    obtain ⟨_, rfl⟩ := h
    intro j hj
    cases hj
  | cons x xs ih =>
    obtain ⟨f, outer, kids, below, others, rfl, rfl, hx, hb, hrest⟩ := h
    intro j hj
    simp only [List.cons_append, List.mem_cons, List.mem_append] at hj
    rcases hj with rfl | hj | hj
    · exact lt_size_of_nodes hx
    · exact hb.lt_size j hj
    · exact ih hrest j hj

theorem StackAt.frame {above : Option DraftId} {xs : List DraftId} {fs : List Sprout}
    {owned : List DraftId} (h : StackAt d above xs fs owned)
    (same : ∀ j ∈ owned, d'.nodes[j]? = d.nodes[j]?) : StackAt d' above xs fs owned := by
  induction xs generalizing above fs owned with
  | nil => exact h
  | cons x xs ih =>
    obtain ⟨f, outer, kids, below, others, rfl, rfl, hx, hb, hrest⟩ := h
    simp only [List.cons_append, List.mem_cons, List.mem_append] at same
    refine ⟨f, outer, kids, below, others, rfl, rfl, (same x (.inl rfl)).trans hx, ?_, ?_⟩
    · exact hb.frame fun j hj => look_of_nodes_eq (same j (.inr (.inl hj)))
    · exact ih hrest fun j hj => same j (.inr (.inr hj))

/-- The open nodes are different nodes, so there are no more of them than nodes. -/
theorem StackAt.length_le {above : Option DraftId} {xs : List DraftId} {fs : List Sprout}
    {owned : List DraftId} (h : StackAt d above xs fs owned) (hnd : owned.Nodup) :
    xs.length ≤ d.nodes.size := by
  have hle : xs.length ≤ owned.length := by
    clear hnd
    induction xs generalizing above fs owned with
    | nil => exact Nat.zero_le _
    | cons x xs ih =>
      obtain ⟨f, outer, kids, below, others, rfl, rfl, _, _, hrest⟩ := h
      have := ih hrest
      simp only [List.length_cons, List.cons_append, List.length_append]
      omega
  exact Nat.le_trans hle (length_le_size hnd h.lt_size)

/-- The same nodes are shut in both drafts, and they do not differ. -/
structure SameShut (d d' : Draft) : Prop where
  pending : d'.pending = d.pending
  nodes : ∀ (j : DraftId) (n : DraftNode), n.phase ≠ .opened →
    (d'.nodes[j]? = some n ↔ d.nodes[j]? = some n)

theorem SameShut.shut (h : SameShut d d') {j : DraftId} (hs : d.Shut j) : d'.Shut j := by
  obtain ⟨n, hn, hp⟩ := hs
  exact ⟨n, (h.nodes j n hp).mpr hn, hp⟩

theorem Sound.of_sameShut (hd : d.Sound) (h : SameShut d d') : d'.Sound := by
  refine ⟨?_, ?_, ?_⟩
  · intro id n hn hp c hc
    exact h.shut (hd.nested id n ((h.nodes id n hp).mp hn) hp c hc)
  · intro id hid
    exact h.shut (hd.pending id (h.pending ▸ hid))
  · intro id n hn hp hs
    rw [h.pending]
    exact hd.waiting id n ((h.nodes id n hp).mp hn) hp hs

/-- Closed nodes do not notice what happens to open ones. -/
theorem AllGrownAt.of_sameShut {ss : List Sprout} {xs ids : List DraftId}
    (hg : AllGrownAt d ss xs ids) (h : SameShut d d') : AllGrownAt d' ss xs ids := by
  refine hg.frame fun j hj => look_of_nodes_eq ?_
  obtain ⟨m, hm, hp⟩ := hg.closed j hj
  obtain ⟨p, hn, _⟩ := look_eq_some hm
  rw [hn]
  exact (h.nodes j _ (by simp [hp])).mpr hn

theorem sameShut_update {x : DraftId} {n : DraftNode} (hx : d.nodes[x]? = some n)
    (hn : n.phase = .opened) (f : DraftNode → DraftNode) (hf : (f n).phase = .opened) :
    SameShut d (d.update x f) := by
  refine ⟨rfl, ?_⟩
  intro j m hm
  rw [nodes_update]
  split
  · next h =>
    subst h
    rw [hx]
    constructor
    · intro he
      cases he
      exact absurd hf hm
    · intro he
      cases he
      exact absurd hn hm
  · exact Iff.rfl

theorem SameShut.trans {d'' : Draft} (h : SameShut d d') (h' : SameShut d' d'') :
    SameShut d d'' :=
  ⟨h'.pending.trans h.pending, fun j n hn => (h'.nodes j n hn).trans (h.nodes j n hn)⟩

/-- The next token places all closed nodes and no open one. -/
theorem StackAt.placePending {above : Option DraftId} {xs : List DraftId} {fs : List Sprout}
    {owned : List DraftId} (h : StackAt d above xs fs owned) (hd : d.Sound) (o : Nat) :
    StackAt (d.placePending o) above xs
      (fs.map fun f => { f with children := Sprout.fillAll o f.children }) owned := by
  induction xs generalizing above fs owned with
  | nil =>
    obtain ⟨rfl, rfl⟩ := h
    exact ⟨rfl, rfl⟩
  | cons x xs ih =>
    obtain ⟨f, outer, kids, below, others, rfl, rfl, hx, hb, hrest⟩ := h
    refine ⟨_, _, kids, below, others, rfl, rfl, ?_, ?_, ih hrest⟩
    · rw [nodes_placePending hd, hx]
      rfl
    · exact hb.filled fun j _ => look_placePending hd o j

/-- Widening goes up to the outermost open node. -/
theorem widen_stackAt (span : Span) {above : Option DraftId} {x : DraftId} {xs : List DraftId}
    {fs : List Sprout} {owned : List DraftId} {fuel : Nat}
    (h : StackAt d above (x :: xs) fs owned) (hnd : owned.Nodup) (hfuel : xs.length < fuel) :
    StackAt (widen span fuel x d) above (x :: xs)
        (fs.map fun f => { f with span := some (f.span.elim span (·.cover span)) }) owned ∧
      SameOutside owned d (widen span fuel x d) ∧ SameShut d (widen span fuel x d) ∧
      (widen span fuel x d).lastEnd = d.lastEnd := by
  induction xs generalizing d above x fs owned fuel with
  | nil =>
    obtain ⟨fuel, rfl⟩ := Nat.exists_eq_succ_of_ne_zero (Nat.ne_zero_of_lt hfuel)
    obtain ⟨f, outer, kids, below, others, rfl, rfl, hx, hb, rfl, rfl⟩ := h
    have hsh := sameShut_update hx rfl
      (fun n => { n with span := some (n.span.elim span (·.cover span)) }) rfl
    rw [widen, hx]
    simp only [List.head?_nil, if_true]
    refine ⟨⟨_, [], kids, below, [], rfl, rfl, ?_, hb.of_sameShut hsh, rfl, rfl⟩, ?_, hsh, rfl⟩
    · simp [nodes_update, hx]
    · intro j hj
      simp only [List.append_nil, List.mem_cons, not_or] at hj
      exact nodes_update_ne _ (Ne.symm hj.1)
  | cons y ys ih =>
    obtain ⟨fuel, rfl⟩ := Nat.exists_eq_succ_of_ne_zero (Nat.ne_zero_of_lt hfuel)
    obtain ⟨f, outer, kids, below, others, rfl, rfl, hx, hb, hrest⟩ := h
    have hsh := sameShut_update hx rfl
      (fun n => { n with span := some (n.span.elim span (·.cover span)) }) rfl
    obtain ⟨hown, hothers, hdisj⟩ := List.nodup_append.mp hnd
    have hxo : x ∉ others := fun hxo => hdisj x List.mem_cons_self x hxo rfl
    rw [widen, hx]
    simp only [List.head?_cons, if_true]
    -- the other open nodes are as before in the draft in which only `x` has changed
    have hrest' : StackAt (d.update x fun n =>
        { n with span := some (n.span.elim span (·.cover span)) }) (some x) (y :: ys) outer others :=
      hrest.frame fun j hj => nodes_update_ne _ fun he => hxo (by rwa [he])
    obtain ⟨hs, hout, hshut, hend⟩ := ih hrest' hothers (by simpa using hfuel)
    refine ⟨⟨_, _, kids, below, others, rfl, rfl, ?_, ?_, hs⟩, ?_, hsh.trans hshut, hend⟩
    · rw [hout x hxo]
      simp [nodes_update, hx]
    · exact hb.of_sameShut (hsh.trans hshut)
    · intro j hj
      simp only [List.cons_append, List.mem_cons, List.mem_append, not_or] at hj
      exact (hout j hj.2.2).trans (nodes_update_ne _ (Ne.symm hj.1))

/-- The open nodes are `xs`, what is done of them is `fs`, and the draft is sound. -/
def Stands (d : Draft) (xs : List DraftId) (fs : List Sprout) : Prop :=
  d.Sound ∧ ∃ owned, StackAt d none xs fs owned ∧ owned.Nodup

theorem Stands.node {x : DraftId} {xs : List DraftId} {f : Sprout} {fs : List Sprout}
    (h : d.Stands (x :: xs) (f :: fs)) : ∃ n, d.nodes[x]? = some n ∧ n.phase = .opened := by
  obtain ⟨_, owned, ⟨g, outer, kids, below, others, _, rfl, hx, _⟩, _⟩ := h
  exact ⟨_, hx, rfl⟩

/-- A token widens all open nodes and places what waits below them. -/
theorem extend_stands {x : DraftId} {xs : List DraftId} {f : Sprout} {fs : List Sprout} (span : Span)
    (h : d.Stands (x :: xs) (f :: fs)) :
    ∃ d', d.extend x span = .ok d' ∧ d'.Stands (x :: xs) ((f :: fs).map (Sprout.passed span)) ∧
      d'.lastEnd = max d.lastEnd span.stop := by
  obtain ⟨n, hn, _⟩ := h.node
  obtain ⟨hd, owned, hs, hnd⟩ := h
  let base : Draft := { d with lastEnd := max d.lastEnd span.stop }
  have hbase : base.Sound := ⟨hd.nested, hd.pending, hd.waiting⟩
  have hs : StackAt base none (x :: xs) (f :: fs) owned := hs.frame fun _ _ => rfl
  have hfill := placePending_filled hbase span.start
  have hlen := (hs.placePending hbase span.start).length_le hnd
  have hle : xs.length < (base.placePending span.start).nodes.size := by
    simp only [List.length_cons] at hlen
    omega
  obtain ⟨hw, _, hshut, hend⟩ :=
    widen_stackAt span (hs.placePending hbase span.start) hnd hle
  refine ⟨_, ?_, ⟨(hbase.placePending _).of_sameShut hshut, owned, ?_, hnd⟩, ?_⟩
  · simp [extend, node, hn, bind, Except.bind, pure, Except.pure, base]
  · rw [List.map_map] at hw
    exact hw
  · rw [hend, hfill.lastEnd]

/-- A token may add to the payload of the innermost open node. -/
theorem pushImage_stands {x : DraftId} {xs : List DraftId} {f : Sprout} {fs : List Sprout}
    (text : String) (h : d.Stands (x :: xs) (f :: fs)) :
    ∃ d', d.pushImage x text = .ok d' ∧
      d'.Stands (x :: xs) ({ f with image := some (f.image.getD "" ++ text) } :: fs) ∧
      d'.lastEnd = d.lastEnd := by
  obtain ⟨hd, owned, ⟨g, outer, kids, below, others, hfs, rfl, hx, hb, hrest⟩, hnd⟩ := h
  cases hfs
  have hsh := sameShut_update hx rfl
    (fun n => { n with image := some (n.image.getD "" ++ text) }) rfl
  have hxo : x ∉ others := fun hxo =>
    (List.nodup_append.mp hnd).2.2 x List.mem_cons_self x hxo rfl
  refine ⟨_, ?_, ⟨hd.of_sameShut hsh, _, ⟨_, _, kids, below, others, rfl, rfl, ?_,
    hb.of_sameShut hsh, hrest.frame fun j hj => ?_⟩, hnd⟩, rfl⟩
  · simp [pushImage, openNode, node, hx, bind, Except.bind, pure, Except.pure]
  · simp [nodes_update, hx]
  · exact nodes_update_ne _ fun he => hxo (by rwa [he])

end Draft

end JavaSyntax
