import Mathlib.Data.List.Nodup
import Mathlib.Logic.Function.Basic
import JavaSyntax.Proofs.Draft.Closing

namespace JavaSyntax

/-- The two sides of the links say the same, and no child is listed twice. -/
structure Linked (children : DraftId → List DraftId) (parent : DraftId → Option DraftId) :
    Prop where
  mem_iff : ∀ p c, c ∈ children p ↔ parent c = some p
  nodup : ∀ p, (children p).Nodup

/-- Without duplicates, the entry that is overwritten is gone, and all others stay. -/
theorem mem_set_iff_of_nodup {α : Type} {l : List α} {i : Nat} {old c x : α} (hnodup : l.Nodup)
    (hi : l[i]? = some old) (hx : x ≠ c) : x ∈ l.set i c ↔ x ∈ l ∧ x ≠ old := by
  obtain ⟨hlt, hget⟩ := List.getElem?_eq_some_iff.mp hi
  have hsplit : l = l.take i ++ old :: l.drop (i + 1) := by
    rw [← hget, List.getElem_cons_drop, List.take_append_drop]
  have hset : l.set i c = l.take i ++ c :: l.drop (i + 1) := by
    rw [List.set_eq_take_append_cons_drop, if_pos hlt]
  have hmem : x ∈ l ↔ x = old ∨ x ∈ l.take i ++ l.drop (i + 1) := by
    conv_lhs => rw [hsplit, List.perm_middle.mem_iff, List.mem_cons]
  rw [hsplit, List.nodup_middle, List.nodup_cons] at hnodup
  rw [hset, List.perm_middle.mem_iff, List.mem_cons, hmem]
  constructor
  · rintro (h | h)
    · exact absurd h hx
    · exact ⟨.inr h, fun he => hnodup.1 (he ▸ h)⟩
  · rintro ⟨h | h, hne⟩
    · exact absurd h hne
    · exact .inr h

namespace Linked

variable {children : DraftId → List DraftId} {parent : DraftId → Option DraftId}
  {p c old : DraftId} {i : Nat}

theorem not_mem_children (h : Linked children parent) (hc : parent c = none) (q : DraftId) :
    c ∉ children q := by
  intro hq
  rw [(h.mem_iff q c).mp hq] at hc
  cases hc

theorem attach (h : Linked children parent) (hc : parent c = none) :
    Linked (Function.update children p (children p ++ [c]))
      (Function.update parent c (some p)) := by
  have hout := h.not_mem_children hc
  constructor
  · intro q x
    by_cases hx : x = c
    · subst hx
      rw [Function.update_self]
      by_cases hq : q = p
      · subst hq
        simp
      · rw [Function.update_of_ne hq]
        exact ⟨fun hm => absurd hm (hout q), fun he => absurd (Option.some.inj he).symm hq⟩
    · rw [Function.update_of_ne hx, ← h.mem_iff]
      by_cases hq : q = p
      · subst hq
        simp [hx]
      · rw [Function.update_of_ne hq]
  · intro q
    by_cases hq : q = p
    · subst hq
      rw [Function.update_self]
      exact (h.nodup q).append (List.nodup_singleton c)
        (List.disjoint_singleton.mpr (hout q))
    · rw [Function.update_of_ne hq]
      exact h.nodup q

/-- The old child at the position is left without a parent. -/
theorem replace (h : Linked children parent) (hc : parent c = none)
    (hi : (children p)[i]? = some old) :
    Linked (Function.update children p ((children p).set i c))
      (Function.update (Function.update parent old none) c (some p)) := by
  have hout := h.not_mem_children hc
  have hold : parent old = some p := (h.mem_iff p old).mp (List.mem_of_getElem? hi)
  have hset {x : DraftId} (hx : x ≠ c) := mem_set_iff_of_nodup (h.nodup p) hi hx
  constructor
  · intro q x
    by_cases hx : x = c
    · subst hx
      rw [Function.update_self]
      by_cases hq : q = p
      · subst hq
        rw [Function.update_self]
        exact ⟨fun _ => rfl, fun _ => List.mem_set (List.getElem?_eq_some_iff.mp hi).1 x⟩
      · rw [Function.update_of_ne hq]
        exact ⟨fun hm => absurd hm (hout q), fun he => absurd (Option.some.inj he).symm hq⟩
    · rw [Function.update_of_ne hx]
      by_cases hxo : x = old
      · subst hxo
        rw [Function.update_self]
        refine ⟨fun hm => ?_, fun he => by cases he⟩
        by_cases hq : q = p
        · subst hq
          rw [Function.update_self] at hm
          exact absurd rfl ((hset hx).mp hm).2
        · rw [Function.update_of_ne hq] at hm
          exact absurd (Option.some.inj (((h.mem_iff q x).mp hm).symm.trans hold)) hq
      · rw [Function.update_of_ne hxo, ← h.mem_iff]
        by_cases hq : q = p
        · subst hq
          rw [Function.update_self, hset hx]
          exact and_iff_left hxo
        · rw [Function.update_of_ne hq]
  · intro q
    by_cases hq : q = p
    · subst hq
      rw [Function.update_self]
      exact (h.nodup q).set (hout q)
    · rw [Function.update_of_ne hq]
      exact h.nodup q

end Linked

namespace Draft

variable {d d' d'' : Draft}

/-- The children of a node, none if there is no such node. -/
def childrenOf (d : Draft) (id : DraftId) : List DraftId := (d.nodes[id]?.map (·.children)).getD []

def parentOf (d : Draft) (id : DraftId) : Option DraftId := d.nodes[id]?.bind (·.parent)

theorem childrenOf_of_nodes {id : DraftId} {n : DraftNode} (h : d.nodes[id]? = some n) :
    d.childrenOf id = n.children := by
  rw [childrenOf, h]
  rfl

theorem parentOf_of_nodes {id : DraftId} {n : DraftNode} (h : d.nodes[id]? = some n) :
    d.parentOf id = n.parent := by
  rw [parentOf, h]
  rfl

theorem node_eq_ok {id : DraftId} {n : DraftNode} : d.node id = .ok n ↔ d.nodes[id]? = some n := by
  unfold node
  cases d.nodes[id]? <;> simp

theorem childrenOf_update (d : Draft) (id : DraftId) (f : DraftNode → DraftNode)
    (hf : ∀ n, (f n).children = n.children) : (d.update id f).childrenOf = d.childrenOf := by
  funext j
  rw [childrenOf, childrenOf, nodes_update]
  split
  · cases d.nodes[j]? with
    | none => rfl
    | some n => simp [hf]
  · rfl

theorem parentOf_update (d : Draft) (id : DraftId) (f : DraftNode → DraftNode)
    (hf : ∀ n, (f n).parent = n.parent) : (d.update id f).parentOf = d.parentOf := by
  funext j
  rw [parentOf, parentOf, nodes_update]
  split
  · cases d.nodes[j]? with
    | none => rfl
    | some n => simp [hf]
  · rfl

theorem childrenOf_setChildren {id : DraftId} (h : id < d.nodes.size)
    (f : List DraftId → List DraftId) :
    (d.update id fun n => { n with children := f n.children }).childrenOf =
      Function.update d.childrenOf id (f (d.childrenOf id)) := by
  funext j
  by_cases hj : j = id
  · subst hj
    rw [Function.update_self, childrenOf, childrenOf, nodes_update, if_pos rfl,
      Array.getElem?_eq_getElem h]
    rfl
  · rw [Function.update_of_ne hj, childrenOf, childrenOf, nodes_update_ne _ (Ne.symm hj)]

theorem parentOf_setParent {id : DraftId} (h : id < d.nodes.size)
    (parent : Option DraftId) :
    (d.update id fun n => { n with parent }).parentOf = Function.update d.parentOf id parent := by
  funext j
  by_cases hj : j = id
  · subst hj
    rw [Function.update_self, parentOf, nodes_update, if_pos rfl, Array.getElem?_eq_getElem h]
    rfl
  · rw [Function.update_of_ne hj, parentOf, parentOf, nodes_update_ne _ (Ne.symm hj)]

/-- What every construction keeps: the links agree, and nodes that are no longer open have a span or
wait for one. -/
structure Coherent (d : Draft) : Prop where
  linked : Linked d.childrenOf d.parentOf
  waiting : ∀ (id : DraftId) (n : DraftNode), d.nodes[id]? = some n → n.phase ≠ .opened →
    n.span = none → id ∈ d.pending

theorem coherent_empty : empty.Coherent := by
  refine ⟨⟨?_, ?_⟩, ?_⟩
  · intro p c
    simp [childrenOf, parentOf, empty]
  · intro p
    simp [childrenOf, empty]
  · intro id n hn
    simp [empty] at hn

/-- The links are the same, and no node begins to wait unseen. -/
theorem Coherent.of_same (h : d.Coherent) (hchildren : d'.childrenOf = d.childrenOf)
    (hparent : d'.parentOf = d.parentOf)
    (hwaiting : ∀ (id : DraftId) (n : DraftNode), d'.nodes[id]? = some n → n.phase ≠ .opened →
      n.span = none → id ∈ d'.pending) : d'.Coherent := by
  refine ⟨?_, hwaiting⟩
  rw [hchildren, hparent]
  exact h.linked

/-- A change to one node that leaves its links alone. -/
theorem Coherent.update (h : d.Coherent) (id : DraftId) (f : DraftNode → DraftNode)
    (hchildren : ∀ n, (f n).children = n.children) (hparent : ∀ n, (f n).parent = n.parent)
    (hf : ∀ n, d.nodes[id]? = some n → (f n).phase ≠ .opened → (f n).span = none →
      n.phase ≠ .opened ∧ n.span = none) : (d.update id f).Coherent := by
  refine h.of_same (childrenOf_update d id f hchildren) (parentOf_update d id f hparent) ?_
  intro j m hm hp hs
  rw [nodes_update] at hm
  split at hm
  · next he =>
    subst he
    obtain ⟨n, hn, rfl⟩ := Option.map_eq_some_iff.mp hm
    obtain ⟨hp', hs'⟩ := hf n hn hp hs
    exact h.waiting id n hn hp' hs'
  · exact h.waiting j m hm hp hs

theorem nodes_create (d : Draft) (k : Kind) (j : DraftId) : (d.create k).2.nodes[j]? =
    if j = d.nodes.size then some ⟨k, .opened, none, [], none, none⟩ else d.nodes[j]? := by
  simp [Draft.create, Array.getElem?_push]

theorem childrenOf_create (d : Draft) (k : Kind) : (d.create k).2.childrenOf = d.childrenOf := by
  funext j
  rw [childrenOf, childrenOf, nodes_create]
  split
  · next he => simp [he]
  · rfl

theorem parentOf_create (d : Draft) (k : Kind) : (d.create k).2.parentOf = d.parentOf := by
  funext j
  rw [parentOf, parentOf, nodes_create]
  split
  · next he => simp [he]
  · rfl

theorem Coherent.create (h : d.Coherent) (k : Kind) : (d.create k).2.Coherent := by
  refine h.of_same (childrenOf_create d k) (parentOf_create d k) ?_
  intro j n hn hp hs
  rw [nodes_create] at hn
  split at hn
  · cases hn
    exact absurd rfl hp
  · exact h.waiting j n hn hp hs

theorem bind_eq_ok {ε α β : Type} {x : Except ε α} {f : α → Except ε β} {b : β} :
    x >>= f = .ok b ↔ ∃ a, x = .ok a ∧ f a = .ok b := by
  cases x with
  | error e => simp [bind, Except.bind]
  | ok a => simp [bind, Except.bind]

/-- What an attachment needs and what it does. -/
theorem attach_eq_ok {p c : DraftId} (h : d.attach p c = .ok d') :
    p ≠ c ∧ (∃ n, d.nodes[c]? = some n ∧ n.parent = none) ∧ (∃ n, d.nodes[p]? = some n) ∧
      d' = (d.update c fun n => { n with parent := some p }).update p
        fun n => { n with children := n.children ++ [c] } := by
  unfold attach at h
  split at h
  · cases h
  next hne =>
  obtain ⟨n, hn, h⟩ := bind_eq_ok.mp h
  split at h
  · cases h
  next hnone =>
  obtain ⟨m, hm, h⟩ := bind_eq_ok.mp h
  refine ⟨hne, ⟨n, node_eq_ok.mp hn, ?_⟩, ⟨m, node_eq_ok.mp hm⟩, (Except.ok.inj h).symm⟩
  simpa using hnone

/-- A node gets a parent or loses it. -/
theorem childrenOf_setParent (d : Draft) (id : DraftId) (parent : Option DraftId) :
    (d.update id fun n => { n with parent }).childrenOf = d.childrenOf :=
  childrenOf_update d id _ fun _ => rfl

theorem parentOf_setChildren (d : Draft) (id : DraftId) (f : List DraftId → List DraftId) :
    (d.update id fun n => { n with children := f n.children }).parentOf = d.parentOf :=
  parentOf_update d id _ fun _ => rfl

/-- Old nodes differ in nothing but their links, and new ones do not wait for a span. -/
structure Relinked (d d' : Draft) : Prop where
  pending : d'.pending = d.pending
  old : ∀ (j : DraftId) (n : DraftNode), d.nodes[j]? = some n →
    ∃ n', d'.nodes[j]? = some n' ∧ n'.phase = n.phase ∧ n'.span = n.span
  waiting : ∀ (j : DraftId) (n' : DraftNode), d'.nodes[j]? = some n' → n'.phase ≠ .opened →
    n'.span = none → ∃ n, d.nodes[j]? = some n

theorem Relinked.refl (d : Draft) : Relinked d d :=
  ⟨rfl, fun _ n hn => ⟨n, hn, rfl, rfl⟩, fun _ n hn _ _ => ⟨n, hn⟩⟩

theorem Relinked.trans (h : Relinked d d') (h' : Relinked d' d'') : Relinked d d'' := by
  refine ⟨h'.pending.trans h.pending, ?_, ?_⟩
  · intro j n hn
    obtain ⟨n', hn', hphase, hspan⟩ := h.old j n hn
    obtain ⟨n'', hn'', hphase', hspan'⟩ := h'.old j n' hn'
    exact ⟨n'', hn'', hphase'.trans hphase, hspan'.trans hspan⟩
  · intro j n'' hn'' hp hs
    obtain ⟨n', hn'⟩ := h'.waiting j n'' hn'' hp hs
    obtain ⟨n, hn, hphase, hspan⟩ := h'.old j n' hn'
    rw [hn''] at hn
    cases hn
    exact h.waiting j n' hn' (hphase ▸ hp) (hspan ▸ hs)

/-- A change to the links of one node. -/
theorem relinked_update (d : Draft) (id : DraftId) (f : DraftNode → DraftNode)
    (hphase : ∀ n, (f n).phase = n.phase) (hspan : ∀ n, (f n).span = n.span) :
    Relinked d (d.update id f) := by
  refine ⟨rfl, ?_, ?_⟩
  · intro j n hn
    rw [nodes_update, hn]
    split
    · exact ⟨f n, rfl, hphase n, hspan n⟩
    · exact ⟨n, rfl, rfl, rfl⟩
  · intro j n' hn' _ _
    rw [nodes_update] at hn'
    split at hn'
    · obtain ⟨n, hn, _⟩ := Option.map_eq_some_iff.mp hn'
      exact ⟨n, hn⟩
    · exact ⟨n', hn'⟩

theorem relinked_setParent (d : Draft) (id : DraftId) (parent : Option DraftId) :
    Relinked d (d.update id fun n => { n with parent }) :=
  relinked_update d id _ (fun _ => rfl) fun _ => rfl

theorem relinked_setChildren (d : Draft) (id : DraftId) (f : List DraftId → List DraftId) :
    Relinked d (d.update id fun n => { n with children := f n.children }) :=
  relinked_update d id _ (fun _ => rfl) fun _ => rfl

theorem Relinked.shut (h : Relinked d d') {id : DraftId} (hs : d.Shut id) : d'.Shut id := by
  obtain ⟨n, hn, hp⟩ := hs
  obtain ⟨n', hn', hphase, _⟩ := h.old id n hn
  exact ⟨n', hn', hphase ▸ hp⟩

/-- Links that agree make a coherent draft where phases and spans did not change. -/
theorem Coherent.of_relinked (hd : d.Coherent) (h : Relinked d d')
    (hlinked : Linked d'.childrenOf d'.parentOf) : d'.Coherent := by
  refine ⟨hlinked, ?_⟩
  intro j n' hn' hp hs
  obtain ⟨n, hn⟩ := h.waiting j n' hn' hp hs
  obtain ⟨m, hm, hphase, hspan⟩ := h.old j n hn
  rw [hn'] at hm
  cases hm
  rw [h.pending]
  exact hd.waiting j n hn (hphase ▸ hp) (hspan ▸ hs)

theorem attach_relinked {p c : DraftId} (h : d.attach p c = .ok d') : Relinked d d' := by
  obtain ⟨_, _, _, rfl⟩ := attach_eq_ok h
  exact (relinked_setParent d c (some p)).trans (relinked_setChildren _ p (· ++ [c]))

/-- The links after an attachment. -/
theorem attach_links {p c : DraftId} (h : d.attach p c = .ok d') :
    d'.childrenOf = Function.update d.childrenOf p (d.childrenOf p ++ [c]) ∧
      d'.parentOf = Function.update d.parentOf c (some p) := by
  obtain ⟨_, ⟨n, hn, _⟩, ⟨m, hm⟩, rfl⟩ := attach_eq_ok h
  have hp : p < (d.update c fun n => { n with parent := some p }).nodes.size := by
    rw [size_update]
    exact lt_size_of_nodes hm
  rw [childrenOf_setChildren hp (· ++ [c]), parentOf_setChildren _ p (· ++ [c]),
    childrenOf_setParent, parentOf_setParent (lt_size_of_nodes hn)]
  exact ⟨rfl, rfl⟩

theorem Coherent.attach (hd : d.Coherent) {p c : DraftId} (h : d.attach p c = .ok d') :
    d'.Coherent := by
  refine hd.of_relinked (attach_relinked h) ?_
  obtain ⟨_, ⟨n, hn, hnone⟩, _⟩ := attach_eq_ok h
  obtain ⟨hchildren, hparent⟩ := attach_links h
  rw [hchildren, hparent]
  exact hd.linked.attach ((parentOf_of_nodes hn).trans hnone)

/-- What a replacement needs and what it does. -/
theorem replaceChild_eq_ok {p i c old : DraftId} (h : d.replaceChild p i c = .ok (old, d')) :
    (∃ m, d.nodes[p]? = some m ∧ m.children[i]? = some old) ∧
      (∃ n, d.nodes[c]? = some n ∧ n.parent = none) ∧
      d' = ((d.update p fun n => { n with children := n.children.set i c }).update old
        fun n => { n with parent := none }).update c fun n => { n with parent := some p } := by
  unfold replaceChild at h
  obtain ⟨m, hm, h⟩ := bind_eq_ok.mp h
  split at h
  · cases h
  next o ho =>
  obtain ⟨n, hn, h⟩ := bind_eq_ok.mp h
  split at h
  · cases h
  next hnone =>
  cases h
  exact ⟨⟨m, node_eq_ok.mp hm, ho⟩, ⟨n, node_eq_ok.mp hn, by simpa using hnone⟩, rfl⟩

theorem replaceChild_relinked {p i c old : DraftId} (h : d.replaceChild p i c = .ok (old, d')) :
    Relinked d d' := by
  obtain ⟨_, _, rfl⟩ := replaceChild_eq_ok h
  exact ((relinked_setChildren d p (·.set i c)).trans (relinked_setParent _ old none)).trans
    (relinked_setParent _ c (some p))

/-- The links after a replacement. The old child is one of the children, and has no parent then. -/
theorem Coherent.replaceChild_links (hd : d.Coherent) {p i c old : DraftId}
    (h : d.replaceChild p i c = .ok (old, d')) :
    (d.childrenOf p)[i]? = some old ∧
      d'.childrenOf = Function.update d.childrenOf p ((d.childrenOf p).set i c) ∧
      d'.parentOf = Function.update (Function.update d.parentOf old none) c (some p) := by
  obtain ⟨⟨m, hm, hi⟩, ⟨n, hn, _⟩, rfl⟩ := replaceChild_eq_ok h
  have hi : (d.childrenOf p)[i]? = some old := by rwa [childrenOf_of_nodes hm]
  have hold : old < d.nodes.size := by
    have hparent := (hd.linked.mem_iff p old).mp (List.mem_of_getElem? hi)
    obtain ⟨o, ho, _⟩ := Option.bind_eq_some_iff.mp hparent
    exact lt_size_of_nodes ho
  let d₁ := d.update p fun n => { n with children := n.children.set i c }
  let d₂ := d₁.update old fun n => { n with parent := none }
  have hold₁ : old < d₁.nodes.size := by rwa [size_update]
  have hc₂ : c < d₂.nodes.size := by
    rw [size_update, size_update]
    exact lt_size_of_nodes hn
  have hchildren : d₂.childrenOf = Function.update d.childrenOf p ((d.childrenOf p).set i c) :=
    (childrenOf_setParent d₁ old none).trans
      (childrenOf_setChildren (lt_size_of_nodes hm) (·.set i c))
  have hparent : d₂.parentOf = Function.update d.parentOf old none :=
    (parentOf_setParent hold₁ none).trans
      (congrArg (Function.update · old none) (parentOf_setChildren d p (·.set i c)))
  rw [childrenOf_setParent d₂ c, parentOf_setParent hc₂, hchildren, hparent]
  exact ⟨hi, rfl, rfl⟩

/-- The replacement may be the parent itself or an ancestor of it. -/
theorem Coherent.replaceChild (hd : d.Coherent) {p i c old : DraftId}
    (h : d.replaceChild p i c = .ok (old, d')) : d'.Coherent := by
  refine hd.of_relinked (replaceChild_relinked h) ?_
  obtain ⟨_, ⟨n, hn, hnone⟩, _⟩ := replaceChild_eq_ok h
  obtain ⟨hi, hchildren, hparent⟩ := hd.replaceChild_links h
  rw [hchildren, hparent]
  exact hd.linked.replace ((parentOf_of_nodes hn).trans hnone) hi

theorem create_relinked (d : Draft) (k : Kind) : Relinked d (d.create k).2 := by
  refine ⟨rfl, ?_, ?_⟩
  · intro j n hn
    exact ⟨n, (nodes_push_lt d _ (lt_size_of_nodes hn)).trans hn, rfl, rfl⟩
  · intro j n' hn' hp _
    simp only [create, Array.getElem?_push] at hn'
    split at hn'
    · cases hn'
      exact absurd rfl hp
    · exact ⟨n', hn'⟩

theorem Coherent.attachAll {p : DraftId} {cs : List DraftId} (hd : d.Coherent)
    (h : cs.foldlM (fun d c => d.attach p c) d = .ok d') : d'.Coherent ∧ Relinked d d' := by
  induction cs generalizing d with
  | nil =>
    cases h
    exact ⟨hd, Relinked.refl _⟩
  | cons c cs ih =>
    rw [List.foldlM_cons] at h
    obtain ⟨d₁, hd₁, h⟩ := bind_eq_ok.mp h
    obtain ⟨hcoherent, hrelinked⟩ := ih (hd.attach hd₁) h
    exact ⟨hcoherent, (attach_relinked hd₁).trans hrelinked⟩

/-- A synthesized node has its span from the start. -/
theorem Coherent.synthesize (hd : d.Coherent) {k : Kind} {image : Option String} {span : Span}
    {cs : List DraftId} {id : DraftId} (h : d.synthesize k image span cs = .ok (id, d')) :
    d'.Coherent ∧ Relinked d d' := by
  unfold Draft.synthesize at h
  obtain ⟨d₂, hattach, h⟩ := bind_eq_ok.mp h
  cases h
  obtain ⟨hd₂, hrelinked⟩ := (hd.create k).attachAll hattach
  have hrelinked := (create_relinked d k).trans hrelinked
  constructor
  · exact hd₂.update _ _ (fun _ => rfl) (fun _ => rfl) fun _ _ _ hs => by cases hs
  · -- the node is new, so no old one is finished
    refine ⟨hrelinked.pending, ?_, ?_⟩
    · intro j n hn
      have hj : d.nodes.size ≠ j := Ne.symm (Nat.ne_of_lt (lt_size_of_nodes hn))
      rw [nodes_update_ne _ hj]
      exact hrelinked.old j n hn
    · intro j n' hn' hp hs
      rw [nodes_update] at hn'
      split at hn'
      · obtain ⟨n, _, rfl⟩ := Option.map_eq_some_iff.mp hn'
        cases hs
      · exact hrelinked.waiting j n' hn' hp hs

end Draft

namespace Rewrite

variable {σ α : Type}

/-- The drafts that a rewriting of `self` passes, the one it starts with included. -/
inductive Passes (self : DraftId) : Rewrite σ α → Draft → σ → Draft → Prop
  | here {r : Rewrite σ α} {d : Draft} {s : σ} : Passes self r d s d
  | recall {k : σ → Rewrite σ α} {d e : Draft} {s : σ} (rest : Passes self (k s) d s e) :
    Passes self (.recall k) d s e
  | remember {k : Rewrite σ α} {d e : Draft} {s m : σ} (rest : Passes self k d m e) :
    Passes self (.remember m k) d s e
  | inspect {k : DraftNode → Rewrite σ α} {d e : Draft} {s : σ} {id : DraftId} {n : DraftNode}
    (found : d.node id = .ok n) (rest : Passes self (k n) d s e) :
    Passes self (.inspect id k) d s e
  | synthesize {k : DraftId → Rewrite σ α} {d d' e : Draft} {s : σ} {kind : Kind}
    {image : Option String} {span : Span} {children : List DraftId} {id : DraftId}
    (made : d.synthesize kind image span children = .ok (id, d'))
    (rest : Passes self (k id) d' s e) :
    Passes self (.synthesize kind image span children k) d s e
  | replaceChild {k : DraftId → Rewrite σ α} {d d' e : Draft} {s : σ} {i : Nat} {c old : DraftId}
    (replaced : d.replaceChild self i c = .ok (old, d')) (rest : Passes self (k old) d' s e) :
    Passes self (.replaceChild i c k) d s e

/-- The draft at the end is one of those passed. -/
theorem passes_of_run {self : DraftId} {r : Rewrite σ α} {d d' : Draft} {s s' : σ} {a : α}
    (h : r.run self d s = .ok (a, d', s')) : Passes self r d s d' := by
  induction r generalizing d s with
  | done b =>
    cases h
    exact .here
  | fail m => cases h
  | «recall» k ih => exact .recall (ih _ h)
  | remember m k ih => exact .remember (ih h)
  | inspect id k ih =>
    rw [run] at h
    split at h
    · cases h
    · next n hn => exact .inspect hn (ih n h)
  | synthesize kind image span children k ih =>
    rw [run] at h
    split at h
    · cases h
    · next id d₁ hd₁ => exact .synthesize hd₁ (ih id h)
  | replaceChild i c k ih =>
    rw [run] at h
    split at h
    · cases h
    · next old d₁ hd₁ => exact .replaceChild hd₁ (ih old h)

/-- A rewriting keeps the links in order and finishes no node that was there before. -/
theorem Passes.coherent {self : DraftId} {r : Rewrite σ α} {d e : Draft} {s : σ}
    (h : Passes self r d s e) (hd : d.Coherent) : e.Coherent ∧ Draft.Relinked d e := by
  induction h with
  | here => exact ⟨hd, .refl _⟩
  | «recall» _ ih => exact ih hd
  | remember _ ih => exact ih hd
  | inspect _ _ ih => exact ih hd
  | synthesize made _ ih =>
    obtain ⟨hd', hrelinked⟩ := hd.synthesize made
    exact ⟨(ih hd').1, hrelinked.trans (ih hd').2⟩
  | replaceChild replaced _ ih =>
    obtain ⟨he, hrelinked⟩ := ih (hd.replaceChild replaced)
    exact ⟨he, (Draft.replaceChild_relinked replaced).trans hrelinked⟩

end Rewrite

end JavaSyntax
