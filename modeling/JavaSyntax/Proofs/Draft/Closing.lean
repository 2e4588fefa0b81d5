import JavaSyntax.Draft.Rewrite
import JavaSyntax.Proofs.Draft.Stack

namespace JavaSyntax

namespace Draft

variable {d d' d'' : Draft}

theorem nodes_push_lt (d : Draft) (n : DraftNode) {j : DraftId} (h : j < d.nodes.size) :
    (d.nodes.push n)[j]? = d.nodes[j]? := by
  rw [Array.getElem?_push, if_neg (Nat.ne_of_lt h)]

theorem sameShut_create (d : Draft) (k : Kind) : SameShut d (d.create k).2 := by
  refine ⟨rfl, ?_⟩
  intro j n hn
  simp only [create, Array.getElem?_push]
  split
  · next h =>
    subst h
    constructor
    · intro he
      cases he
      exact absurd rfl hn
    · intro he
      rw [Array.getElem?_eq_none (Nat.le_refl _)] at he
      cases he
  · exact Iff.rfl

theorem create_stands (hd : d.Sound) (k : Kind) :
    (d.create k).2.Stands [d.nodes.size] [⟨k, none, none, []⟩] := by
  refine ⟨hd.of_sameShut (sameShut_create d k), [d.nodes.size], ?_, by simp⟩
  exact ⟨_, [], [], [], [], rfl, rfl, by simp [create], ⟨rfl, rfl⟩, rfl, rfl⟩

/-- A new node becomes the last child of the innermost open node. -/
theorem create_append_stands {x : DraftId} {xs : List DraftId} {f : Sprout} {fs : List Sprout}
    (k : Kind) (h : d.Stands (x :: xs) (f :: fs)) :
    ∃ d', (d.create k).2.append x d.nodes.size = .ok d' ∧
      d'.Stands (d.nodes.size :: x :: xs) (⟨k, none, none, []⟩ :: f :: fs) ∧
      d'.lastEnd = d.lastEnd := by
  obtain ⟨hd, owned, hst, hnd⟩ := h
  have hlt := hst.lt_size
  obtain ⟨g, outer, kids, below, others, hfs, rfl, hx, hb, hrest⟩ := hst
  cases hfs
  have hxlt : x < d.nodes.size := lt_size_of_nodes hx
  have hne : x ≠ d.nodes.size := Nat.ne_of_lt hxlt
  have hxo : x ∉ others := fun hxo =>
    (List.nodup_append.mp hnd).2.2 x List.mem_cons_self x hxo rfl
  have hx' : (d.create k).2.nodes[x]? = d.nodes[x]? := nodes_push_lt d _ hxlt
  have hnew : (d.create k).2.nodes[d.nodes.size]? =
      some ⟨k, .opened, none, [], none, none⟩ := by simp [create]
  -- the new node gets its parent, then the parent its new child
  let d₁ := (d.create k).2.update d.nodes.size fun n => { n with parent := some x }
  have hx₁ : d₁.nodes[x]? = d.nodes[x]? := (nodes_update_ne _ (Ne.symm hne)).trans hx'
  let d₂ := d₁.update x fun n => { n with children := n.children ++ [d.nodes.size] }
  have hshut : SameShut d d₂ := by
    have hchild : SameShut (d.create k).2 d₁ := sameShut_update hnew rfl _ rfl
    have hparent : SameShut d₁ d₂ := sameShut_update (hx₁.trans hx) rfl _ rfl
    exact (sameShut_create d k).trans (hchild.trans hparent)
  refine ⟨d₂, ?_, ⟨hd.of_sameShut hshut, d.nodes.size :: (x :: below ++ others), ?_, ?_⟩, rfl⟩
  · simp [append, attach, openNode, node, hx', hx, hnew, hne, bind, Except.bind, pure, Except.pure,
      d₂, d₁]
  · refine ⟨_, _, [], [], x :: below ++ others, rfl, rfl, ?_, ⟨rfl, rfl⟩,
      ⟨_, _, kids, below, others, rfl, rfl, ?_, hb.of_sameShut hshut, hrest.frame fun j hj => ?_⟩⟩
    · rw [nodes_update_ne _ hne, nodes_update, if_pos rfl, hnew]
      rfl
    · rw [nodes_update, if_pos rfl, hx₁, hx]
      simp
    · have hj' : j < d.nodes.size := hlt j (List.mem_append_right _ hj)
      rw [nodes_update_ne _ (by rintro rfl; exact hxo hj),
        nodes_update_ne _ (Ne.symm (Nat.ne_of_lt hj'))]
      exact nodes_push_lt d _ hj'
  · exact List.nodup_cons.mpr ⟨fun hm => Nat.lt_irrefl _ (hlt _ hm), hnd⟩

/-- The children of a node are there, closed, and cover what their sprouts cover. -/
theorem AllGrownAt.kids {ss : List Sprout} {xs ids : List DraftId} (h : AllGrownAt d ss xs ids) :
    (xs.filterMap fun c => d.nodes[c]?).find? (fun c => c.phase ≠ .closed) = none ∧
      (xs.filterMap fun c => d.nodes[c]?).filterMap DraftNode.span =
        ss.filterMap Sprout.span := by
  induction ss generalizing xs ids with
  | nil =>
    obtain ⟨rfl, rfl⟩ := h
    exact ⟨rfl, rfl⟩
  | cons s ss ih =>
    obtain ⟨x, xs, own, others, rfl, rfl, hs, hss⟩ := h
    obtain ⟨hfind, hspans⟩ := ih hss
    obtain ⟨kids, below, hx, _, _⟩ := hs.root
    obtain ⟨p, hn, _⟩ := look_eq_some hx
    simp only [List.filterMap_cons, hn]
    refine ⟨by simpa using hfind, ?_⟩
    cases s.span <;> simp [hspans]

/-- Node `x` is about to be closed. The nodes below it are `below`. -/
structure ClosingAt (d : Draft) (s : Sprout) (parent : Option DraftId) (x : DraftId)
    (below : List DraftId) : Prop where
  node : ∃ kids, d.nodes[x]? = some ⟨s.kind, .finalizing, parent, kids, s.span, s.image⟩ ∧
    AllGrownAt d s.children kids below
  nodup : (x :: below).Nodup
  sound : d.Sound

theorem Sound.of_filled {o : Nat} (hd : d.Sound) (h : Filled o d d') : d'.Sound := by
  refine ⟨h.nested hd.nested, ?_, ?_⟩
  · intro id hid
    exact h.shut (hd.pending id (h.pending ▸ hid))
  · intro id n hn hp hs
    rw [h.pending]
    rcases h.nodes id with e | ⟨m, hm, _, _, e⟩
    · exact hd.waiting id n (e.symm.trans hn) hp hs
    · rw [hn] at e
      cases e
      cases hs

theorem AllGrownAt.shut {ss : List Sprout} {xs ids : List DraftId} (h : AllGrownAt d ss xs ids) :
    ∀ j ∈ ids, d.Shut j := by
  intro j hj
  obtain ⟨m, hm, hp⟩ := h.closed j hj
  obtain ⟨p, hn, _⟩ := look_eq_some hm
  exact ⟨_, hn, by simp [hp]⟩

/-- A node that stops being open is sound if what it covers is known or waited for. -/
theorem Sound.shut {x : DraftId} {n m : DraftNode} (hd : d.Sound) (hx : d.nodes[x]? = some n)
    (hch : ∀ c ∈ m.children, d.Shut c) (hm : m.phase ≠ .opened)
    (hx' : d'.nodes[x]? = some m)
    (hout : SameOutside [x] d d') (hsub : ∀ id ∈ d'.pending, id ∈ d.pending ∨ id = x)
    (hsup : ∀ id ∈ d.pending, id ∈ d'.pending) (hspan : m.span = none → x ∈ d'.pending) :
    d'.Sound := by
  have hshut : ∀ c, d.Shut c → d'.Shut c := by
    rintro c ⟨k, hk, hp⟩
    by_cases hc : c = x
    · subst hc
      exact ⟨m, hx', hm⟩
    · exact ⟨k, (hout c (by simpa using hc)).trans hk, hp⟩
  refine ⟨?_, ?_, ?_⟩
  · intro id k hk hp c hc
    by_cases hid : id = x
    · subst hid
      cases hx'.symm.trans hk
      exact hshut c (hch c hc)
    · rw [hout id (by simpa using hid)] at hk
      exact hshut c (hd.nested id k hk hp c hc)
  · intro id hid
    rcases hsub id hid with h | rfl
    · exact hshut id (hd.pending id h)
    · exact ⟨m, hx', hm⟩
  · intro id k hk hp hs
    by_cases hid : id = x
    · subst hid
      cases hx'.symm.trans hk
      exact hspan hs
    · rw [hout id (by simpa using hid)] at hk
      exact hsup id (hd.waiting id k hk hp hs)

/-- What is below a node that covers something gets its places when the node starts to close. -/
theorem place_closing {s : Sprout} {span : Span} {x : DraftId} {kids below : List DraftId}
    {parent : Option DraftId} (hd : d.Sound)
    (hx : d.nodes[x]? = some ⟨s.kind, .finalizing, parent, kids, some span, s.image⟩)
    (hb : AllGrownAt d s.children kids below) (hnd : (x :: below).Nodup) :
    ClosingAt (kids.foldl (fun d c => d.place span.stop c) d)
        { s with span := some span, children := Sprout.settleAll span.stop s.children }
        parent x below ∧
      Filled span.stop d (kids.foldl (fun d c => d.place span.stop c) d) ∧
      SameOutside below d (kids.foldl (fun d c => d.place span.stop c) d) := by
  obtain ⟨hxb, hbelow⟩ := List.nodup_cons.mp hnd
  have hfill : Filled span.stop d (kids.foldl (fun d c => d.place span.stop c) d) :=
    filled_fold place_filled kids hd.nested fun c hc => hb.shut c (hb.kids_subset c hc)
  obtain ⟨hg, hout⟩ :=
    placeBelow_allGrown (o := span.stop) d.nodes.size hb hbelow (length_le_size hbelow hb.lt_size)
  rw [← foldl_place] at hg hout
  exact ⟨⟨⟨kids, (hout x hxb).trans hx, hg⟩, hnd, hd.of_filled hfill⟩, hfill, hout⟩

/-- What a node covers is settled when it starts to close, and its finalizer sees that. -/
theorem startClosing_closing {f : Sprout} {x : DraftId} {kids below : List DraftId}
    {parent : Option DraftId} (hd : d.Sound)
    (hx : d.nodes[x]? = some ⟨f.kind, .opened, parent, kids, f.span, f.image⟩)
    (hb : AllGrownAt d f.children kids below) (hnd : (x :: below).Nodup) :
    ∃ d', d.startClosing x ⟨f.kind, .opened, parent, kids, f.span, f.image⟩ = .ok d' ∧
      ClosingAt d' f.shut parent x below ∧ SameOutside (x :: below) d d' ∧
      d'.nodes.size = d.nodes.size ∧ d'.lastEnd = d.lastEnd := by
  have hxb : x ∉ below := (List.nodup_cons.mp hnd).1
  have hkids : ∀ c ∈ kids, d.Shut c := fun c hc => hb.shut c (hb.kids_subset c hc)
  let d₁ := d.update x fun n => { n with phase := .finalizing }
  have hx₁ : d₁.nodes[x]? = some ⟨f.kind, .finalizing, parent, kids, f.span, f.image⟩ := by
    simp [d₁, nodes_update, hx]
  have hout₁ : SameOutside [x] d d₁ := fun j hj =>
    nodes_update_ne _ fun he => hj (by simp [he])
  have hb₁ : AllGrownAt d₁ f.children kids below :=
    hb.frame fun j hj => look_update_ne _ (by rintro rfl; exact hxb hj)
  obtain ⟨hfind, hspans⟩ := hb₁.kids
  rw [startClosing]
  simp only [hfind, hspans, d₁, Sprout.shut]
  cases hspan : f.span.or (hull (f.children.filterMap Sprout.span)) with
  | none =>
    refine ⟨_, rfl, ⟨⟨kids, hx₁, hb₁.frame fun _ _ => rfl⟩, hnd, ?_⟩, ?_, size_update .., rfl⟩
    · refine hd.shut (n := _) hx hkids (by simp) hx₁ hout₁ ?_ ?_ ?_
      · intro id hid
        rcases List.mem_append.mp hid with hid | hid
        · exact .inl hid
        · exact .inr (List.mem_singleton.mp hid)
      · intro id hid
        exact List.mem_append_left _ hid
      · intro _
        exact List.mem_append_right _ List.mem_cons_self
    · exact hout₁.mono fun j hj => by simp_all
  | some span =>
    let d₂ := d₁.update x fun n => { n with span := some span }
    have hx₂ : d₂.nodes[x]? = some ⟨f.kind, .finalizing, parent, kids, some span, f.image⟩ := by
      simp only [d₂, nodes_update, if_true, hx₁]
      rfl
    have hout₂ : SameOutside [x] d d₂ := hout₁.trans fun j hj =>
      nodes_update_ne _ fun he => hj (by simp [he])
    have hd₂ : d₂.Sound := by
      refine hd.shut hx hkids (by simp) hx₂ hout₂ (fun id hid => .inl hid) (fun id hid => hid) ?_
      intro h
      cases h
    have hb₂ : AllGrownAt d₂ f.children kids below :=
      hb₁.frame fun j hj => look_update_ne _ (by rintro rfl; exact hxb hj)
    have hsize₂ : d₂.nodes.size = d.nodes.size := by simp [d₂, d₁]
    obtain ⟨hclosing, hfill, hout⟩ := place_closing (s := f) hd₂ hx₂ hb₂ hnd
    refine ⟨_, rfl, hclosing, ?_, hfill.size.trans hsize₂, hfill.lastEnd⟩
    exact (hout₂.mono fun j hj => by simp_all).trans
      (hout.mono fun j hj => List.mem_cons_of_mem _ hj)

/-- A draft after some rewriting below node `x`. The nodes below it were `below` and are `below'`. -/
structure RewrittenAt (x : DraftId) (below below' : List DraftId) (d d' : Draft) : Prop where
  size : d.nodes.size ≤ d'.nodes.size
  outside : ∀ j : DraftId, j < d.nodes.size → j ∉ x :: below → d'.nodes[j]? = d.nodes[j]?
  fresh : ∀ j ∈ below', j ∈ below ∨ d.nodes.size ≤ j
  lastEnd : d'.lastEnd = d.lastEnd

theorem RewrittenAt.refl (x : DraftId) (below : List DraftId) (d : Draft) :
    RewrittenAt x below below d d :=
  ⟨Nat.le_refl _, fun _ _ _ => rfl, fun _ hj => .inl hj, rfl⟩

theorem RewrittenAt.trans {x : DraftId} {below below' below'' : List DraftId}
    (h : RewrittenAt x below below' d d') (h' : RewrittenAt x below' below'' d' d'') :
    RewrittenAt x below below'' d d'' := by
  refine ⟨Nat.le_trans h.size h'.size, ?_, ?_, h'.lastEnd.trans h.lastEnd⟩
  · intro j hj hout
    rw [List.mem_cons, not_or] at hout
    refine (h'.outside j (Nat.lt_of_lt_of_le hj h.size) ?_).trans
      (h.outside j hj (by simp [hout]))
    rw [List.mem_cons, not_or]
    refine ⟨hout.1, fun hm => ?_⟩
    rcases h.fresh j hm with hm | hm
    · exact hout.2 hm
    · exact Nat.lt_irrefl _ (Nat.lt_of_lt_of_le hj hm)
  · intro j hj
    rcases h'.fresh j hj with hm | hm
    · exact h.fresh j hm
    · exact .inr (Nat.le_trans h.size hm)

end Draft

/-- The finalizer never fails, and it does to the draft what `g` does to the sprout. -/
def Finalizer.Implements {σ : Type} (f : Finalizer σ) (g : Sprout → Sprout) : Prop :=
  ∀ (d : Draft) (s : Sprout) (parent : Option DraftId) (x : DraftId) (below : List DraftId) (m : σ),
    d.ClosingAt s parent x below → ∃ d' below',
      (f x).run x d m = .ok ((), d', m) ∧ d'.ClosingAt (g s) parent x below' ∧
        Draft.RewrittenAt x below below' d d'

theorem Finalizer.inert_implements {σ : Type} : (Finalizer.inert : Finalizer σ).Implements id := by
  intro d s parent x below m h
  exact ⟨d, below, rfl, h, .refl x below d⟩

namespace Draft

variable {d d' : Draft}

/-- A closed node with its parent. -/
theorem endClosing_grown {s : Sprout} {parent : Option DraftId} {x : DraftId}
    {below : List DraftId} (h : ClosingAt d s parent x below) :
    GrownAt (d.endClosing x) s x (x :: below) ∧ (d.endClosing x).Sound ∧
      SameOutside [x] d (d.endClosing x) ∧
      ∃ kids, (d.endClosing x).nodes[x]? =
        some ⟨s.kind, .closed, parent, kids, s.span, s.image⟩ := by
  obtain ⟨⟨kids, hx, hb⟩, hnd, hd⟩ := h
  have hxb : x ∉ below := (List.nodup_cons.mp hnd).1
  have hx' : (d.endClosing x).nodes[x]? =
      some ⟨s.kind, .closed, parent, kids, s.span, s.image⟩ := by
    simp [endClosing, nodes_update, hx]
  have hout : SameOutside [x] d (d.endClosing x) := fun j hj =>
    nodes_update_ne _ fun he => hj (by simp [he])
  have hkids : ∀ c ∈ kids, d.Shut c := fun c hc => hb.shut c (hb.kids_subset c hc)
  refine ⟨?_, ?_, hout, kids, hx'⟩
  · cases s
    refine ⟨kids, below, look_of_nodes hx', hb.frame fun j hj => ?_, rfl⟩
    exact look_update_ne _ (by rintro rfl; exact hxb hj)
  · exact hd.shut hx hkids (by simp) hx' hout (fun id hid => .inl hid) (fun id hid => hid)
      fun hs => hd.waiting x _ hx (by simp) hs

end Draft

end JavaSyntax
