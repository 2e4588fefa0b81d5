import JavaSyntax.Proofs.Draft.Closing

namespace JavaSyntax

/-- What becomes of the first child of a node once the node around it is known. -/
inductive Reading where
  | kept
  /-- A type becomes an expression. -/
  | wrapped
  /-- A name becomes a type. -/
  | named
  /-- A name becomes a type, and the type an expression. -/
  | namedAndWrapped
  deriving DecidableEq

/-- How a node reads its first child. -/
def Reading.ofNode (kind : Kind) (image : Option String) (child : Kind) : Reading :=
  match kind with
  | .methodReference =>
    if child = .ambiguousName ∧ image = some "new" then .namedAndWrapped
    else if child.isType then .wrapped
    else .kept
  | .classLiteral => if child = .ambiguousName then .named else .kept
  | .thisExpression => if child = .ambiguousName then .namedAndWrapped else .kept
  | _ => .kept

theorem Reading.ofNode_eq_kept {kind : Kind} (h₁ : kind ≠ .methodReference)
    (h₂ : kind ≠ .classLiteral) (h₃ : kind ≠ .thisExpression) (image : Option String)
    (child : Kind) : Reading.ofNode kind image child = .kept := by
  unfold Reading.ofNode
  split
  · exact absurd rfl h₁
  · exact absurd rfl h₂
  · exact absurd rfl h₃
  · rfl

namespace Draft

variable {d d' d'' : Draft} {n : DraftNode} {x y z w : DraftId} {ys : List DraftId}

theorem look_reparent (d : Draft) (b : DraftId) (p : Option DraftId) (j : DraftId) :
    (d.update b fun n => { n with parent := p }).look j = d.look j := by
  by_cases hj : b = j
  · subst hj
    simp only [look, nodes_update, if_true, Option.map_map]
    rfl
  · exact look_update_ne _ hj

theorem Sound.of_look (hd : d.Sound) (hp : d'.pending = d.pending)
    (h : ∀ j, d'.look j = d.look j) : d'.Sound := by
  have hto : ∀ {e e' : Draft}, (∀ j, e'.look j = e.look j) → ∀ {j : DraftId} {n : DraftNode},
      e'.nodes[j]? = some n → ∃ p, e.nodes[j]? = some { n with parent := p } := by
    intro e e' he j n hn
    obtain ⟨p, hp, _⟩ := look_eq_some ((he j).symm.trans (look_of_nodes hn))
    exact ⟨p, hp⟩
  have hshut : ∀ {c}, d.Shut c → d'.Shut c := by
    rintro c ⟨n, hn, hph⟩
    obtain ⟨p, hp⟩ := hto (fun j => (h j).symm) hn
    exact ⟨_, hp, hph⟩
  refine ⟨?_, ?_, ?_⟩
  · intro id n hn hph c hc
    obtain ⟨p, hp⟩ := hto h hn
    exact hshut (hd.nested id _ hp hph c hc)
  · intro id hid
    exact hshut (hd.pending id (hp ▸ hid))
  · intro id n hn hph hs
    obtain ⟨p, hp'⟩ := hto h hn
    exact hp ▸ hd.waiting id _ hp' hph hs

/-- A new node that is closed from the start and has a span. -/
theorem Sound.push (hd : d.Sound) {n : DraftNode} (hp : n.phase ≠ .opened)
    (hs : n.span.isSome = true) (hc : ∀ c ∈ n.children, d.Shut c) :
    Sound { d with nodes := d.nodes.push n } := by
  have hold : ∀ {j : DraftId} {m : DraftNode}, d.nodes[j]? = some m →
      (d.nodes.push n)[j]? = some m := fun hm => (nodes_push_lt d n (lt_size_of_nodes hm)).trans hm
  have hshut : ∀ {c}, d.Shut c → Shut { d with nodes := d.nodes.push n } c := by
    rintro c ⟨m, hm, hph⟩
    exact ⟨m, hold hm, hph⟩
  have hcases : ∀ {j : DraftId} {m : DraftNode}, (d.nodes.push n)[j]? = some m →
      m = n ∨ d.nodes[j]? = some m := by
    intro j m hm
    rw [Array.getElem?_push] at hm
    split at hm
    · cases hm
      exact .inl rfl
    · exact .inr hm
  refine ⟨?_, ?_, ?_⟩
  · intro id m hm hph b hb
    rcases hcases hm with rfl | hm
    · exact hshut (hc b hb)
    · exact hshut (hd.nested id m hm hph b hb)
  · intro id hid
    exact hshut (hd.pending id hid)
  · intro id m hm hph hspan
    rcases hcases hm with rfl | hm
    · rw [hspan] at hs
      cases hs
    · exact hd.waiting id m hm hph hspan

/-- The node is there and has no parent. -/
def Detached (d : Draft) (j : DraftId) : Prop :=
  ∃ n : DraftNode, d.nodes[j]? = some n ∧ n.parent = none

theorem ext_nodes (hp : d.pending = d'.pending) (he : d.lastEnd = d'.lastEnd)
    (h : ∀ j : DraftId, d.nodes[j]? = d'.nodes[j]?) : d = d' := by
  cases d
  cases d'
  have hn := Array.ext_getElem? h
  simp_all only

/-- A node around at most one detached child. -/
theorem synthesize_eq (d : Draft) (k : Kind) (image : Option String) (span : Span)
    {child : Option DraftId} (hc : ∀ b ∈ child, d.Detached b) :
    d.synthesize k image span child.toList =
      .ok (d.nodes.size, (child.toList.foldl
        (fun d' b => d'.update b fun n => { n with parent := some d.nodes.size })
        { d with nodes := d.nodes.push ⟨k, .closed, none, child.toList, some span, image⟩ })) := by
  cases child with
  | none =>
    simp only [synthesize, create, Option.toList_none, List.foldlM_nil, List.foldl_nil, bind,
      Except.bind, pure, Except.pure, Except.ok.injEq, Prod.mk.injEq, true_and]
    refine ext_nodes rfl rfl fun j => ?_
    rw [nodes_update, Array.getElem?_push, Array.getElem?_push]
    by_cases hj : d.nodes.size = j
    · simp [hj]
    · simp [hj, Ne.symm hj]
  | some b =>
    obtain ⟨n, hn, hp⟩ := hc b rfl
    have hb : b < d.nodes.size := lt_size_of_nodes hn
    have hne : d.nodes.size ≠ b := Ne.symm (Nat.ne_of_lt hb)
    simp [synthesize, create, attach, node, bind, Except.bind, pure, Except.pure,
      Array.getElem?_push, hne, hne.symm, hn, hp]
    refine ext_nodes rfl rfl fun j => ?_
    simp only [nodes_update, Array.getElem?_push]
    by_cases hj : d.nodes.size = j
    · subst hj
      simp [hne.symm]
    · simp [hj, Ne.symm hj]

/-- A new node, and who its parent is for the child of it. -/
theorem exists_synthesize (d : Draft) (k : Kind) (image : Option String) (span : Span)
    {child : Option DraftId} (hc : ∀ b ∈ child, d.Detached b) :
    ∃ d', d.synthesize k image span child.toList = .ok (d.nodes.size, d') ∧
      d'.pending = d.pending ∧ d'.lastEnd = d.lastEnd ∧ d'.nodes.size = d.nodes.size + 1 ∧
      (∀ j, d'.look j =
        look { d with nodes := d.nodes.push ⟨k, .closed, none, child.toList, some span, image⟩ } j) ∧
      ∀ j : DraftId, j ∉ child →
        d'.nodes[j]? = (d.nodes.push ⟨k, .closed, none, child.toList, some span, image⟩)[j]? := by
  refine ⟨_, synthesize_eq d k image span hc, ?_⟩
  cases child with
  | none => exact ⟨rfl, rfl, Array.size_push .., fun _ => rfl, fun _ _ => rfl⟩
  | some b =>
    refine ⟨rfl, rfl, ?_, look_reparent _ b _, fun j hj => nodes_update_ne _ ?_⟩
    · exact (size_update ..).trans (Array.size_push ..)
    · rintro rfl
      exact hj rfl

/-- Node `x`, which was `n`, has the children `z :: ys` now. Other nodes are as they were, but those that
`moved` may have another parent. -/
structure Exchanged (d : Draft) (n : DraftNode) (x z : DraftId) (ys moved : List DraftId)
    (d' : Draft) : Prop where
  self : d'.nodes[x]? = some { n with children := z :: ys }
  look : ∀ j < d.nodes.size, j ≠ x → d'.look j = d.look j
  nodes : ∀ j : DraftId, j < d.nodes.size → j ≠ x → j ∉ moved → d'.nodes[j]? = d.nodes[j]?
  size : d.nodes.size ≤ d'.nodes.size
  pending : d'.pending = d.pending
  lastEnd : d'.lastEnd = d.lastEnd
  sound : d.Sound → d'.Sound

theorem Exchanged.refl (hx : d.nodes[x]? = some n) (hc : n.children = y :: ys) (moved : List DraftId) :
    d.Exchanged n x y ys moved d := by
  refine ⟨?_, fun _ _ _ => rfl, fun _ _ _ _ => rfl, Nat.le_refl _, rfl, rfl, id⟩
  rw [← hc]
  exact hx

theorem Exchanged.trans {moved moved' : List DraftId} (h : d.Exchanged n x z ys moved d')
    (h' : d'.Exchanged { n with children := z :: ys } x w ys moved' d'')
    (hmoved : ∀ j < d.nodes.size, j ∈ moved' → j ∈ moved) : d.Exchanged n x w ys moved d'' := by
  refine ⟨h'.self, ?_, ?_, Nat.le_trans h.size h'.size, h'.pending.trans h.pending,
    h'.lastEnd.trans h.lastEnd, fun hd => h'.sound (h.sound hd)⟩
  · intro j hj hjx
    exact (h'.look j (Nat.lt_of_lt_of_le hj h.size) hjx).trans (h.look j hj hjx)
  · intro j hj hjx hjm
    exact (h'.nodes j (Nat.lt_of_lt_of_le hj h.size) hjx fun hm => hjm (hmoved j hj hm)).trans
      (h.nodes j hj hjx hjm)

/-- A node without a parent takes the place of the first child, which has no parent then. -/
theorem exists_replaceFirst (hx : d.nodes[x]? = some n) (hp : n.phase ≠ .opened) (hc : n.children = y :: ys)
    (hy : y < d.nodes.size) (hyx : y ≠ x) (hz : d.Detached z) (hshut : d.Shut z) (hzx : z ≠ x)
    (hzy : z ≠ y) : ∃ d', d.replaceChild x 0 z = .ok (y, d') ∧ d.Exchanged n x z ys [y, z] d' ∧
      d'.Detached y := by
  obtain ⟨l, hl, hparent⟩ := hz
  -- the new child is entered, the old one loses its parent and the new one gets it
  let e₁ := d.update x fun n => { n with children := n.children.set 0 z }
  let e₂ := e₁.update y fun n => { n with parent := none }
  let e₃ := e₂.update z fun n => { n with parent := some x }
  have hself : e₁.nodes[x]? = some { n with children := z :: ys } := by
    rw [nodes_update, if_pos rfl, hx, Option.map_some, hc]
    rfl
  have hsame : ∀ j, e₃.look j = e₁.look j := fun j =>
    (look_reparent e₂ _ _ j).trans (look_reparent e₁ y _ j)
  refine ⟨e₃, ?_, ⟨?_, ?_, ?_, ?_, rfl, rfl, fun hd => ?_⟩, ?_⟩
  · simp [replaceChild, node, hx, hl, hparent, hc, bind, Except.bind, pure, Except.pure, e₃, e₂, e₁]
  · exact (nodes_update_ne _ hzx).trans ((nodes_update_ne _ hyx).trans hself)
  · exact fun j _ hjx => (hsame j).trans (look_update_ne _ (Ne.symm hjx))
  · intro j _ hjx hjm
    rw [List.mem_cons, List.mem_singleton, not_or] at hjm
    exact (nodes_update_ne _ (Ne.symm hjm.2)).trans
      ((nodes_update_ne _ (Ne.symm hjm.1)).trans (nodes_update_ne _ (Ne.symm hjx)))
  · have hsize : e₃.nodes.size = d.nodes.size := by simp [e₃, e₂, e₁]
    exact Nat.le_of_eq hsize.symm
  · have hkids : ∀ b ∈ z :: ys, d.Shut b := by
      intro b hb
      rcases List.mem_cons.mp hb with rfl | hb
      · exact hshut
      · exact hd.nested x n hx hp b (hc ▸ List.mem_cons_of_mem y hb)
    exact (hd.shut (m := { n with children := z :: ys }) hx hkids hp hself
      (fun j hj => nodes_update_ne _ fun he => hj (by simp [he])) (fun id hid => .inl hid)
      (fun id hid => hid) (hd.waiting x n hx hp)).of_look rfl hsame
  · obtain ⟨m, hm⟩ : ∃ m, e₁.nodes[y]? = some m := by
      refine ⟨_, Array.getElem?_eq_getElem ?_⟩
      rw [size_update]
      exact hy
    refine ⟨{ m with parent := none }, ?_, rfl⟩
    rw [nodes_update_ne _ hzy, nodes_update, if_pos rfl, hm]
    rfl

/-- A new node around at most one detached child takes the place of the first child, which is detached
then. -/
theorem exists_exchange (k : Kind) (image : Option String) (span : Span) (child : Option DraftId)
    (hx : d.nodes[x]? = some n) (hp : n.phase ≠ .opened) (hc : n.children = y :: ys)
    (hy : y < d.nodes.size) (hyx : y ≠ x)
    (hchild : ∀ b ∈ child, d.Detached b ∧ d.Shut b ∧ b ≠ x) :
    ∃ d₁ d', d.synthesize k image span child.toList = .ok (d.nodes.size, d₁) ∧
      d₁.replaceChild x 0 d.nodes.size = .ok (y, d') ∧
      d.Exchanged n x d.nodes.size ys (y :: child.toList) d' ∧ d'.Detached y ∧
      d'.look d.nodes.size = some ⟨k, .closed, none, child.toList, some span, image⟩ := by
  obtain ⟨d₁, hmade, hpending, hend, hsize, hlook, hnodes⟩ :=
    exists_synthesize d k image span fun b hb => (hchild b hb).1
  have hlt {j : DraftId} (hj : j < d.nodes.size) : j < d₁.nodes.size := hsize ▸ Nat.lt_succ_of_lt hj
  have hxlt := lt_size_of_nodes hx
  have hx₁ : d₁.nodes[x]? = some n :=
    (hnodes x fun hm => (hchild x hm).2.2 rfl).trans ((nodes_push_lt d _ hxlt).trans hx)
  have hz₁ : d₁.nodes[d.nodes.size]? = some ⟨k, .closed, none, child.toList, some span, image⟩ := by
    refine (hnodes _ fun hm => ?_).trans (by simp)
    obtain ⟨b, hb, _⟩ := (hchild _ hm).1
    exact Nat.lt_irrefl _ (lt_size_of_nodes hb)
  obtain ⟨d', hreplaced, hd', hdetached⟩ := exists_replaceFirst hx₁ hp hc (hlt hy) hyx ⟨_, hz₁, rfl⟩
    ⟨_, hz₁, by simp⟩ (Ne.symm (Nat.ne_of_lt hxlt)) (Ne.symm (Nat.ne_of_lt hy))
  refine ⟨d₁, d', hmade, hreplaced, ⟨hd'.self, ?_, ?_, ?_, ?_, ?_, ?_⟩, hdetached, ?_⟩
  · intro j hj hjx
    exact (hd'.look j (hlt hj) hjx).trans ((hlook j).trans (look_of_nodes_eq (nodes_push_lt d _ hj)))
  · intro j hj hjx hjm
    rw [List.mem_cons, not_or] at hjm
    have hj₁ : d₁.nodes[j]? = d.nodes[j]? :=
      (hnodes j fun hm => hjm.2 (Option.mem_toList.mpr hm)).trans (nodes_push_lt d _ hj)
    refine (hd'.nodes j (hlt hj) hjx fun hm => ?_).trans hj₁
    rcases List.mem_cons.mp hm with he | hm
    · exact hjm.1 he
    · exact Nat.ne_of_lt hj (List.mem_singleton.mp hm)
  · exact Nat.le_trans (hsize ▸ Nat.le_succ _) hd'.size
  · exact hd'.pending.trans hpending
  · exact hd'.lastEnd.trans hend
  · -- the new node is shut from the start, and so is its child
    exact fun hd => hd'.sound <|
      (hd.push (n := ⟨k, .closed, none, child.toList, some span, image⟩) (by simp) rfl
        fun b hb => (hchild b (Option.mem_toList.mp hb)).2.1).of_look hpending hlook
  · rw [hd'.look _ (hsize ▸ Nat.lt_succ_self _) (Ne.symm (Nat.ne_of_lt hxlt)), look_of_nodes hz₁]

/-- The first child `y`, with its payload and its span, came to be read as `r`, and `z` stands for it.
Nodes from `since` on are new. -/
inductive Became (d : Draft) (since : DraftId) (y z : DraftId) (image : Option String) (span : Span) :
    Reading → Prop
  | kept (same : z = y) : Became d since y z image span .kept
  | wrapped (new : since ≤ z)
    (around : d.look z = some ⟨.typeExpression, .closed, none, [y], some span, none⟩) :
    Became d since y z image span .wrapped
  | named (new : since ≤ z) (made : d.look z = some ⟨.classType, .closed, none, [], some span, image⟩) :
    Became d since y z image span .named
  | namedAndWrapped {v : DraftId} (old : since ≤ v) (new : v < z)
    (made : d.look v = some ⟨.classType, .closed, none, [], some span, image⟩)
    (around : d.look z = some ⟨.typeExpression, .closed, none, [v], some span, none⟩) :
    Became d since y z image span .namedAndWrapped

end Draft

namespace Rewrite

open Draft

variable {σ α β : Type} {d d₁ : Draft} {self : DraftId} {m m₁ : σ}

/-- The second part of a rewriting continues where the first one ended. -/
theorem run_append {v : α} (f : α → Rewrite σ β) : ∀ (a : Rewrite σ α) {d : Draft} {m : σ},
    a.run self d m = .ok (v, d₁, m₁) → (a.bind f).run self d m = (f v).run self d₁ m₁
  | .done _, _, _, h => by
    cases h
    rfl
  | .fail _, _, _, h => by cases h
  | .recall k, _, m, h => run_append f (k m) h
  | .remember _ k, _, _, h => run_append f k h
  | .inspect id k, d, m, h => by
    simp only [run, Rewrite.bind] at h ⊢
    cases hn : d.node id with
    | error e => simp [hn] at h
    | ok n => exact run_append f (k n) (by simpa [hn] using h)
  | .synthesize kind image span children k, d, m, h => by
    simp only [run, Rewrite.bind] at h ⊢
    cases hn : d.synthesize kind image span children with
    | error e => simp [hn] at h
    | ok n => exact run_append f (k n.1) (by simpa [hn] using h)
  | .replaceChild i c k, d, m, h => by
    simp only [run, Rewrite.bind] at h ⊢
    cases hn : d.replaceChild self i c with
    | error e => simp [hn] at h
    | ok n => exact run_append f (k n.1) (by simpa [hn] using h)

theorem run_bind {a : Rewrite σ α} {v : α} (f : α → Rewrite σ β)
    (h : a.run self d m = .ok (v, d₁, m₁)) : (a >>= f).run self d m = (f v).run self d₁ m₁ :=
  run_append f a h

theorem run_node {id : DraftId} {n : DraftNode} (h : d.nodes[id]? = some n) :
    (node id).run self d m = .ok (n, d, m) := by
  simp [node, run, Draft.node, h]

theorem run_childAt {id c : DraftId} {cs : List DraftId} {n : DraftNode}
    (h : d.nodes[id]? = some n) (hc : n.children = c :: cs) :
    (childAt id 0).run self d m = .ok (c, d, m) := by
  rw [childAt, run_bind _ (run_node h), hc]
  rfl

theorem run_made {kind : Kind} {image : Option String} {span : Span} {children : List DraftId}
    {z : DraftId} (h : d.synthesize kind image span children = .ok (z, d₁)) :
    (made kind image span children).run self d m = .ok (z, d₁, m) := by
  simp [made, run, h]

theorem run_replaced {position : Nat} {child old : DraftId}
    (h : d.replaceChild self position child = .ok (old, d₁)) :
    (replaced position child).run self d m = .ok (old, d₁, m) := by
  simp [replaced, run, h]

section First

variable {n q : DraftNode} {x y : DraftId} {ys : List DraftId}

/-- A name in front of the other children is read as a type. -/
theorem run_forceType (m : σ) (hx : d.nodes[x]? = some n) (hp : n.phase ≠ .opened)
    (hc : n.children = y :: ys) (hy : d.nodes[y]? = some q) (hyx : y ≠ x)
    (hk : q.kind = .ambiguousName) : ∃ z d',
      (forceType x 0).run x d m = .ok (z, d', m) ∧ d.Exchanged n x z ys [y] d' ∧
      d.nodes.size ≤ z ∧
      d'.look z = some ⟨.classType, .closed, none, [], some (q.span.getD default), q.image⟩ := by
  obtain ⟨d₁, d', hmade, hrep, hd', _, hz⟩ :=
    exists_exchange .classType q.image (q.span.getD default) none hx hp hc (lt_size_of_nodes hy) hyx nofun
  refine ⟨d.nodes.size, d', ?_, hd', Nat.le_refl _, hz⟩
  rw [Option.toList_none] at hmade
  rw [forceType, run_bind _ (run_childAt hx hc), run_bind _ (run_node hy),
    if_neg (fun h => h hk), run_bind _ (run_made hmade), run_bind _ (run_replaced hrep)]
  rfl

/-- The first child gets a node of its own around it. The placeholder is gone in the end. -/
theorem run_wrapChild (m : σ) (hx : d.nodes[x]? = some n) (hp : n.phase ≠ .opened)
    (hc : n.children = y :: ys) (hy : d.nodes[y]? = some q) (hyx : y ≠ x) (hq : q.phase ≠ .opened) :
    ∃ z d', (wrapChild x 0 .typeExpression).run x d m = .ok (z, d', m) ∧
      d.Exchanged n x z ys [y] d' ∧ d.nodes.size ≤ z ∧
      d'.look z = some ⟨.typeExpression, .closed, none, [y], some (q.span.getD default), none⟩ := by
  have hylt := lt_size_of_nodes hy
  -- the placeholder comes, which leaves the child detached
  obtain ⟨d₁, d₂, hmade, hrep, hd₂, hdet, hz⟩ :=
    exists_exchange .tombstone none (q.span.getD default) none hx hp hc hylt hyx nofun
  have hy₂ : d₂.Shut y := by
    obtain ⟨p, hn, _⟩ := look_eq_some ((hd₂.look y hylt hyx).trans (look_of_nodes hy))
    exact ⟨_, hn, hq⟩
  have hzx : d.nodes.size ≠ x := Ne.symm (Nat.ne_of_lt (lt_size_of_nodes hx))
  -- and goes again
  obtain ⟨d₃, d₄, hmade', hrep', hd₄, _, hz'⟩ :=
    exists_exchange .typeExpression none (q.span.getD default) (some y) hd₂.self hp rfl
      (lt_size_of_look hz) hzx (by rintro b ⟨⟩; exact ⟨hdet, hy₂, hyx⟩)
  refine ⟨d₂.nodes.size, d₄, ?_, hd₂.trans hd₄ ?_, hd₂.size, hz'⟩
  · rw [Option.toList_none] at hmade
    rw [Option.toList_some] at hmade'
    rw [wrapChild, run_bind _ (run_childAt hx hc), run_bind _ (run_node hy)]
    dsimp only
    rw [run_bind _ (run_made hmade), run_bind _ (run_replaced hrep),
      run_bind _ (run_made hmade'), run_bind _ (run_replaced hrep')]
    rfl
  · intro j hj hm
    exact (List.mem_cons.mp hm).resolve_left (Nat.ne_of_lt hj)

/-- A name becomes a type, and the type an expression. -/
theorem run_qualifyByType (m : σ) (hx : d.nodes[x]? = some n) (hp : n.phase ≠ .opened)
    (hc : n.children = y :: ys) (hy : d.nodes[y]? = some q) (hyx : y ≠ x)
    (hk : q.kind = .ambiguousName) : ∃ z d',
      (Finalizer.qualifyByType x).run x d m = .ok ((), d', m) ∧ d.Exchanged n x z ys [y] d' ∧
      d'.Became d.nodes.size y z q.image (q.span.getD default) .namedAndWrapped := by
  obtain ⟨v, d₁, hrun, hd₁, hnew, hv⟩ := run_forceType m hx hp hc hy hyx hk
  obtain ⟨p, hvn, _⟩ := look_eq_some hv
  have hxlt := lt_size_of_nodes hx
  have hvx : v ≠ x := fun he => Nat.not_lt.mpr hnew (he ▸ hxlt)
  obtain ⟨z, d₂, hrun', hd₂, hnew', hz⟩ := run_wrapChild m hd₁.self hp rfl hvn hvx (by simp)
  have hlt := lt_size_of_look hv
  refine ⟨z, d₂, ?_, hd₁.trans hd₂ ?_, .namedAndWrapped hnew (Nat.lt_of_lt_of_le hlt hnew') ?_ hz⟩
  · rw [Finalizer.qualifyByType, run_bind _ hrun, run_bind _ hrun']
    rfl
  · intro j hj hm
    exact absurd (List.mem_singleton.mp hm ▸ hj) (Nat.not_lt.mpr hnew)
  · exact (hd₂.look v hlt hvx).trans hv

end First

end Rewrite

open Rewrite in
/-- Without children nothing is settled. -/
theorem Finalizer.run_disambiguate_leaf {σ : Type} (m : σ) {d : Draft} {n : DraftNode} {x : DraftId}
    (hx : d.nodes[x]? = some n) (hc : n.children = []) :
    (disambiguate x).run x d m = .ok ((), d, m) := by
  rw [disambiguate, run_bind _ (run_node hx), hc]
  rfl

open Draft Rewrite in
/-- The finalizer settles the first child and does nothing else. -/
theorem Finalizer.run_disambiguate {σ : Type} (m : σ) {d : Draft} {n q : DraftNode} {x y : DraftId}
    {ys : List DraftId} (hx : d.nodes[x]? = some n) (hp : n.phase ≠ .opened) (hc : n.children = y :: ys)
    (hy : d.nodes[y]? = some q) (hyx : y ≠ x) (hq : q.phase ≠ .opened) : ∃ z d',
      (disambiguate x).run x d m = .ok ((), d', m) ∧ d.Exchanged n x z ys [y] d' ∧
      d'.Became d.nodes.size y z q.image (q.span.getD default) (.ofNode n.kind n.image q.kind) := by
  have hkept : ∃ z d', (pure () : Rewrite σ Unit).run x d m = .ok ((), d', m) ∧
      d.Exchanged n x z ys [y] d' ∧
      d'.Became d.nodes.size y z q.image (q.span.getD default) .kept :=
    ⟨y, d, rfl, .refl hx hc [y], .kept rfl⟩
  have hwrap : ∃ z d', (do
        let _ ← Rewrite.wrapChild x 0 .typeExpression
        pure () : Rewrite σ Unit).run x d m = .ok ((), d', m) ∧ d.Exchanged n x z ys [y] d' ∧
      d'.Became d.nodes.size y z q.image (q.span.getD default) .wrapped := by
    obtain ⟨z, d', hrun, hd', hnew, hz⟩ := run_wrapChild m hx hp hc hy hyx hq
    exact ⟨z, d', by rw [run_bind _ hrun]; rfl, hd', .wrapped hnew hz⟩
  have hforce (hk : q.kind = .ambiguousName) : ∃ z d', (do
        let _ ← Rewrite.forceType x 0
        pure () : Rewrite σ Unit).run x d m = .ok ((), d', m) ∧ d.Exchanged n x z ys [y] d' ∧
      d'.Became d.nodes.size y z q.image (q.span.getD default) .named := by
    obtain ⟨z, d', hrun, hd', hnew, hz⟩ := run_forceType m hx hp hc hy hyx hk
    exact ⟨z, d', by rw [run_bind _ hrun]; rfl, hd', .named hnew hz⟩
  rw [disambiguate, run_bind _ (run_node hx)]
  dsimp only
  rw [hc]
  dsimp only
  rw [run_bind _ (run_node hy)]
  split
  · next hkind =>
    rw [hkind]
    simp only [Reading.ofNode]
    split
    · next hk => exact run_qualifyByType m hx hp hc hy hyx hk.1
    · split
      · exact hwrap
      · exact hkept
  · next hkind =>
    rw [hkind]
    simp only [Reading.ofNode]
    split
    · next hk => exact hforce hk
    · exact hkept
  · next hkind =>
    rw [hkind]
    simp only [Reading.ofNode]
    split
    · next hk => exact run_qualifyByType m hx hp hc hy hyx hk
    · exact hkept
  · next h₁ h₂ h₃ =>
    rw [Reading.ofNode_eq_kept h₁ h₂ h₃]
    exact hkept

end JavaSyntax
