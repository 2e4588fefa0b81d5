import Mathlib.Data.Fintype.EquivFin
import Mathlib.Logic.Relation
import JavaSyntax.Proofs.Draft.Coherence

namespace JavaSyntax

/-- Node `a` stands above node `x`: the links lead from `x`, parent by parent, to `a`. -/
def Ancestor (parent : DraftId → Option DraftId) (a x : DraftId) : Prop :=
  Relation.TransGen (fun y z => parent y = some z) x a

/-- Node `a` is `x` or stands above it. -/
def AtOrAbove (parent : DraftId → Option DraftId) (a x : DraftId) : Prop :=
  Relation.ReflTransGen (fun y z => parent y = some z) x a

/-- No node is its own ancestor. -/
def Acyclic (parent : DraftId → Option DraftId) : Prop := ∀ x, ¬ Ancestor parent x x

section Links

variable {parent parent' : DraftId → Option DraftId} {a c old p x : DraftId}

theorem Ancestor.mono (h : ∀ y z, parent' y = some z → parent y = some z)
    (ha : Ancestor parent' a x) : Ancestor parent a x :=
  Relation.TransGen.mono (fun y z => h y z) x a ha

theorem AtOrAbove.mono (h : ∀ y z, parent' y = some z → parent y = some z)
    (ha : AtOrAbove parent' a x) : AtOrAbove parent a x :=
  Relation.ReflTransGen.mono (fun y z => h y z) x a ha

/-- A node without a parent has only itself at or above it. -/
theorem AtOrAbove.eq_of_none (h : AtOrAbove parent a x) (hx : parent x = none) : a = x := by
  rcases Relation.ReflTransGen.cases_head h with rfl | ⟨y, hy, _⟩
  · rfl
  · rw [hx] at hy
    cases hy

theorem Acyclic.update_none (h : Acyclic parent) (old : DraftId) :
    Acyclic (Function.update parent old none) := by
  refine fun x hx => h x (hx.mono fun y z hy => ?_)
  by_cases he : y = old
  · rw [he, Function.update_self] at hy
    cases hy
  · rwa [Function.update_of_ne he] at hy

/-- Where a new link matters, the way up comes to the child and goes on from the parent. -/
theorem ancestor_update (h : Ancestor (Function.update parent c (some p)) a x) :
    Ancestor parent a x ∨ AtOrAbove parent c x ∧ AtOrAbove parent a p := by
  have hlink : ∀ y z, Function.update parent c (some p) y = some z →
      y = c ∧ z = p ∨ parent y = some z := by
    intro y z hy
    by_cases he : y = c
    · rw [he, Function.update_self] at hy
      exact .inl ⟨he, (Option.some.inj hy).symm⟩
    · rw [Function.update_of_ne he] at hy
      exact .inr hy
  induction h with
  | single hy =>
    rcases hlink _ _ hy with ⟨rfl, rfl⟩ | hold
    · exact .inr ⟨.refl, .refl⟩
    · exact .inl (.single hold)
  | tail _ hy ih =>
    rcases hlink _ _ hy with ⟨rfl, rfl⟩ | hold
    · rcases ih with hbelow | ⟨hlow, _⟩
      · exact .inr ⟨hbelow.to_reflTransGen, .refl⟩
      · exact .inr ⟨hlow, .refl⟩
    · rcases ih with hbelow | ⟨hlow, hhigh⟩
      · exact .inl (hbelow.tail hold)
      · exact .inr ⟨hlow, hhigh.tail hold⟩

/-- A node without a parent closes a cycle just where it is given a parent below itself. -/
theorem acyclic_update_some (h : Acyclic parent) (hc : parent c = none) :
    Acyclic (Function.update parent c (some p)) ↔ ¬ AtOrAbove parent c p := by
  constructor
  · intro hacyclic hup
    refine hacyclic c (Relation.TransGen.head' (Function.update_self ..) (hup.mono fun y z hy => ?_))
    have he : y ≠ c := by
      rintro rfl
      rw [hc] at hy
      cases hy
    rwa [Function.update_of_ne he]
  · intro hapart x hx
    rcases ancestor_update hx with hold | ⟨hlow, hhigh⟩
    · exact h x hold
    · exact hapart (Relation.ReflTransGen.trans hhigh hlow)

/-- A way up that does not come to `old` does not notice that it lost its parent. -/
theorem AtOrAbove.update_none (h : AtOrAbove parent a x) (hold : ¬ AtOrAbove parent old x) :
    AtOrAbove (Function.update parent old none) a x := by
  induction h using Relation.ReflTransGen.head_induction_on with
  | refl => exact .refl
  | head hy _ ih =>
    refine Relation.ReflTransGen.head ?_ (ih fun hup => hold (Relation.ReflTransGen.head hy hup))
    rwa [Function.update_of_ne]
    rintro rfl
    exact hold .refl

/-- The same where the new child takes the place of an old one. -/
theorem acyclic_update_replaced (h : Acyclic parent) (hc : parent c = none)
    (hold : parent old = some p) :
    Acyclic (Function.update (Function.update parent old none) c (some p)) ↔
      ¬ AtOrAbove parent c p := by
  have hnone : Function.update parent old none c = none := by
    by_cases he : c = old
    · rw [he, Function.update_self]
    · rwa [Function.update_of_ne he]
  have hbelow : ¬ AtOrAbove parent old p := fun hup => h old (Relation.TransGen.head' hold hup)
  rw [acyclic_update_some (h.update_none old) hnone]
  refine not_congr ⟨fun hup => hup.mono fun y z hy => ?_, fun hup => hup.update_none hbelow⟩
  by_cases he : y = old
  · rw [he, Function.update_self] at hy
    cases hy
  · rwa [Function.update_of_ne he] at hy

end Links

namespace Draft

variable {d d' : Draft}

theorem acyclic_empty : Acyclic empty.parentOf := by
  intro x hx
  obtain ⟨_, hy, _⟩ := Relation.TransGen.head'_iff.mp hx
  simp [parentOf, empty] at hy

theorem acyclic_attach {p c : DraftId} (ha : Acyclic d.parentOf) (h : d.attach p c = .ok d') :
    Acyclic d'.parentOf ↔ ¬ AtOrAbove d.parentOf c p := by
  obtain ⟨_, ⟨n, hn, hnone⟩, _⟩ := attach_eq_ok h
  rw [(attach_links h).2]
  exact acyclic_update_some ha ((parentOf_of_nodes hn).trans hnone)

theorem acyclic_replaceChild {p i c old : DraftId} (hd : d.Coherent) (ha : Acyclic d.parentOf)
    (h : d.replaceChild p i c = .ok (old, d')) :
    Acyclic d'.parentOf ↔ ¬ AtOrAbove d.parentOf c p := by
  obtain ⟨_, ⟨n, hn, hnone⟩, _⟩ := replaceChild_eq_ok h
  obtain ⟨hi, _, hparent⟩ := hd.replaceChild_links h
  rw [hparent]
  exact acyclic_update_replaced ha ((parentOf_of_nodes hn).trans hnone)
    ((hd.linked.mem_iff p old).mp (List.mem_of_getElem? hi))

/-- What hangs below a node without a parent may be anything but the node itself. -/
theorem acyclic_attachAll {p : DraftId} {cs : List DraftId} (ha : Acyclic d.parentOf)
    (hp : d.parentOf p = none) (h : cs.foldlM (fun d c => d.attach p c) d = .ok d') :
    Acyclic d'.parentOf := by
  induction cs generalizing d with
  | nil =>
    cases h
    exact ha
  | cons c cs ih =>
    rw [List.foldlM_cons] at h
    obtain ⟨d₁, hd₁, h⟩ := bind_eq_ok.mp h
    have hne : p ≠ c := (attach_eq_ok hd₁).1
    refine ih ((acyclic_attach ha hd₁).mpr fun hup => hne (hup.eq_of_none hp).symm) ?_ h
    rw [(attach_links hd₁).2, Function.update_of_ne hne]
    exact hp

theorem acyclic_synthesize {k : Kind} {image : Option String} {span : Span} {cs : List DraftId}
    {id : DraftId} (ha : Acyclic d.parentOf) (h : d.synthesize k image span cs = .ok (id, d')) :
    Acyclic d'.parentOf := by
  unfold synthesize at h
  obtain ⟨d₁, hattach, h⟩ := bind_eq_ok.mp h
  cases h
  rw [parentOf_update d₁ d.nodes.size _ (by exact fun _ => rfl)]
  have hparent : (d.create k).2.parentOf = d.parentOf := parentOf_create d k
  refine acyclic_attachAll (hparent ▸ ha) (p := d.nodes.size) ?_ hattach
  refine (congrFun hparent _).trans ?_
  rw [parentOf, Array.getElem?_eq_none (Nat.le_refl _)]
  rfl

/-- A parent is a node. -/
theorem Coherent.parent_lt (hd : d.Coherent) {c p : DraftId} (h : d.parentOf c = some p) :
    p < d.nodes.size := by
  have hmem := (hd.linked.mem_iff p c).mpr h
  by_contra hlt
  rw [childrenOf, Array.getElem?_eq_none (Nat.le_of_not_lt hlt)] at hmem
  cases hmem

/-- The way up from a node to the first that is not open, or to one without a parent. The open nodes
are listed. -/
inductive Climb (d : Draft) : DraftId → List DraftId → Prop
  | shut {id : DraftId} {n : DraftNode} (found : d.nodes[id]? = some n) (shut : n.phase ≠ .opened) :
    Climb d id []
  | top {id : DraftId} {n : DraftNode} (found : d.nodes[id]? = some n) (opened : n.phase = .opened)
    (parentless : n.parent = none) : Climb d id [id]
  | step {id p : DraftId} {n : DraftNode} {ids : List DraftId} (found : d.nodes[id]? = some n)
    (opened : n.phase = .opened) (parent : n.parent = some p) (rest : Climb d p ids) :
    Climb d id (id :: ids)

namespace Climb

variable {id : DraftId} {ids : List DraftId}

/-- There is one way up at most. -/
theorem unique {others : List DraftId} (h : d.Climb id ids) (h' : d.Climb id others) :
    ids = others := by
  induction h generalizing others with
  | shut found shut =>
    cases h' with
    | shut => rfl
    | top found' opened => exact absurd (Option.some.inj (found.symm.trans found') ▸ opened) shut
    | step found' opened => exact absurd (Option.some.inj (found.symm.trans found') ▸ opened) shut
  | top found opened parentless =>
    cases h' with
    | shut found' shut => exact absurd (Option.some.inj (found.symm.trans found') ▸ opened) shut
    | top => rfl
    | step found' _ parent =>
      cases found.symm.trans found'
      cases parentless.symm.trans parent
  | step found opened parent _ ih =>
    cases h' with
    | shut found' shut => exact absurd (Option.some.inj (found.symm.trans found') ▸ opened) shut
    | top found' _ parentless =>
      cases found.symm.trans found'
      cases parent.symm.trans parentless
    | step found' _ parent' rest' =>
      cases found.symm.trans found'
      cases parent.symm.trans parent'
      rw [ih rest']

/-- The way up from a node that it passes is a part of it. -/
theorem suffix (h : d.Climb id ids) {x : DraftId} (hx : x ∈ ids) :
    ∃ rest, d.Climb x rest ∧ rest.length ≤ ids.length := by
  induction h with
  | shut => cases hx
  | @top id n found opened parentless =>
    obtain rfl := List.mem_singleton.mp hx
    exact ⟨[x], .top found opened parentless, Nat.le_refl _⟩
  | @step id p n ids found opened parent rest ih =>
    rcases List.mem_cons.mp hx with rfl | hx
    · exact ⟨x :: ids, .step found opened parent rest, Nat.le_refl _⟩
    · obtain ⟨below, hbelow, hlength⟩ := ih hx
      exact ⟨below, hbelow, Nat.le_succ_of_le hlength⟩

/-- A way up that ends passes no node twice. -/
theorem nodup (h : d.Climb id ids) : ids.Nodup := by
  induction h with
  | shut => exact List.nodup_nil
  | @top id n => exact List.nodup_singleton id
  | @step id p n ids found opened parent rest ih =>
    refine List.nodup_cons.mpr ⟨fun hid => ?_, ih⟩
    obtain ⟨again, hagain, hlength⟩ := rest.suffix hid
    have hsame := congrArg List.length ((step found opened parent rest).unique hagain)
    rw [List.length_cons] at hsame
    omega

theorem lt_size (h : d.Climb id ids) : ∀ x ∈ ids, x < d.nodes.size := by
  induction h with
  | shut => simp
  | top found => exact fun x hx => List.mem_singleton.mp hx ▸ lt_size_of_nodes found
  | step found _ _ _ ih =>
    intro x hx
    rcases List.mem_cons.mp hx with rfl | hx
    · exact lt_size_of_nodes found
    · exact ih x hx

theorem length_le (h : d.Climb id ids) : ids.length ≤ d.nodes.size :=
  length_le_size h.nodup h.lt_size

end Climb

/-- Node `y` is open and its parent is `z`: the way up goes on. -/
def OpenLink (d : Draft) (y z : DraftId) : Prop :=
  ∃ n, d.nodes[y]? = some n ∧ n.phase = .opened ∧ n.parent = some z

/-- What is reached by open nodes alone has a shorter way up. -/
theorem Climb.above {id a : DraftId} {ids : List DraftId} (h : d.Climb id ids)
    (ha : Relation.TransGen d.OpenLink id a) : ∃ rest, d.Climb a rest ∧ rest.length < ids.length := by
  have hstep : ∀ {y z : DraftId} {ys : List DraftId}, d.Climb y ys → d.OpenLink y z →
      ∃ zs, d.Climb z zs ∧ zs.length < ys.length := by
    rintro y z ys hy ⟨n, hn, hopen, hparent⟩
    cases hy with
    | shut found shut => exact absurd (Option.some.inj (hn.symm.trans found) ▸ hopen) shut
    | top found _ parentless =>
      cases hn.symm.trans found
      cases hparent.symm.trans parentless
    | step found _ parent rest =>
      cases hn.symm.trans found
      cases hparent.symm.trans parent
      exact ⟨_, rest, Nat.lt_succ_self _⟩
  induction ha with
  | single hlink => exact hstep h hlink
  | tail _ hlink ih =>
    obtain ⟨ys, hys, hlt⟩ := ih
    obtain ⟨zs, hzs, hlt'⟩ := hstep hys hlink
    exact ⟨zs, hzs, Nat.lt_trans hlt' hlt⟩

/-- On a cycle of open nodes no way up ends. -/
theorem not_climb_of_cycle {id : DraftId} (h : Relation.TransGen d.OpenLink id id) :
    ¬ ∃ ids, d.Climb id ids := by
  rintro ⟨ids, hids⟩
  obtain ⟨again, hagain, hlt⟩ := hids.above h
  rw [hids.unique hagain] at hlt
  exact Nat.lt_irrefl _ hlt

/-- Without cycles each way up ends. -/
theorem Coherent.climb (hd : d.Coherent) (ha : Acyclic d.parentOf) {id : DraftId}
    (hid : id < d.nodes.size) : ∃ ids, d.Climb id ids := by
  -- the ancestors of a node come before it
  let above (a x : Fin d.nodes.size) : Prop := Ancestor d.parentOf a x
  have : IsTrans _ above := ⟨fun _ _ _ hab hbc => Relation.TransGen.trans hbc hab⟩
  have : Std.Irrefl above := ⟨fun x => ha x⟩
  have hwf := Finite.wellFounded_of_trans_of_irrefl above
  suffices h : ∀ x : Fin d.nodes.size, ∃ ids, d.Climb x ids from h ⟨id, hid⟩
  intro x
  induction x using hwf.induction with
  | h x ih =>
    have hn := Array.getElem?_eq_getElem x.isLt
    by_cases hopen : d.nodes[x].phase = .opened
    · cases hp : d.nodes[x].parent with
      | none => exact ⟨[x], .top hn hopen hp⟩
      | some p =>
        have hparent : d.parentOf x = some p := (parentOf_of_nodes hn).trans hp
        obtain ⟨ids, hids⟩ := ih ⟨p, hd.parent_lt hparent⟩ (.single hparent)
        exact ⟨x :: ids, .step hn hopen hp hids⟩
    · exact ⟨[], .shut hn hopen⟩

/-- One token more in a node. -/
def cover (span : Span) (d : Draft) (id : DraftId) : Draft :=
  d.update id fun n => { n with span := some (n.span.elim span (·.cover span)) }

/-- Given enough fuel, the widened nodes are those of the way up. Spans make no difference to it. -/
theorem Climb.widen_eq {e : Draft} {id : DraftId} {ids : List DraftId} (h : d.Climb id ids)
    (span : Span) (he : ∀ (j : DraftId) (n : DraftNode), d.nodes[j]? = some n →
      ∃ s, e.nodes[j]? = some { n with span := s }) {fuel : Nat} (hfuel : ids.length ≤ fuel) :
    widen span fuel id e = ids.foldl (cover span) e := by
  induction h generalizing e fuel with
  | shut found shut =>
    obtain ⟨s, hs⟩ := he _ _ found
    cases fuel with
    | zero => rfl
    | succ fuel => simp [widen, hs, shut]
  | top found opened parentless =>
    obtain ⟨s, hs⟩ := he _ _ found
    obtain ⟨fuel, rfl⟩ := Nat.exists_eq_succ_of_ne_zero (Nat.ne_zero_of_lt hfuel)
    simp [widen, hs, opened, parentless, cover]
  | @step id p n ids found opened parent rest ih =>
    obtain ⟨s, hs⟩ := he _ _ found
    rw [List.length_cons] at hfuel
    obtain ⟨fuel, rfl⟩ := Nat.exists_eq_succ_of_ne_zero (Nat.ne_zero_of_lt hfuel)
    have hcover : ∀ (j : DraftId) (n : DraftNode), d.nodes[j]? = some n →
        ∃ s, (cover span e id).nodes[j]? = some { n with span := s } := by
      intro j m hm
      obtain ⟨s, hs⟩ := he j m hm
      obtain ⟨s', hs', _⟩ := (respanned_update e id fun s => s.elim span (·.cover span)).nodes j _ hs
      exact ⟨s', hs'⟩
    rw [List.foldl_cons, ← ih hcover (Nat.le_of_succ_le_succ hfuel)]
    simp [widen, hs, opened, parent, cover]

/-- A token is recorded in the open nodes of the way up, and the recording ends with it. -/
theorem Climb.extend_eq {id : DraftId} {ids : List DraftId} (h : d.Climb id ids)
    (hid : id < d.nodes.size) (span : Span) : d.extend id span = .ok (ids.foldl (cover span)
      ({ d with lastEnd := max d.lastEnd span.stop }.placePending span.start)) := by
  let base : Draft := { d with lastEnd := max d.lastEnd span.stop }
  have hspans := respanned_placePending base span.start
  have hsize : (base.placePending span.start).nodes.size = d.nodes.size := hspans.size
  have hwiden := h.widen_eq (e := base.placePending span.start) span (fun j n hn => by
    obtain ⟨s, hs, _⟩ := hspans.nodes j n hn
    exact ⟨s, hs⟩) (hsize ▸ h.length_le)
  have hnode : d.node id = .ok d.nodes[id] := node_eq_ok.mpr (Array.getElem?_eq_getElem hid)
  rw [extend, hnode]
  exact congrArg Except.ok hwiden

end Draft

end JavaSyntax
