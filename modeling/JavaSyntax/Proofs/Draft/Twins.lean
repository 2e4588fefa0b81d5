import JavaSyntax.Proofs.Draft.Orderly

namespace JavaSyntax

/-- The node with other numbers for its parent and its children. -/
def DraftNode.renamed (name : DraftId → DraftId) (n : DraftNode) : DraftNode :=
  { n with parent := n.parent.map name, children := n.children.map name }

namespace Draft

variable {d d' e e' : Draft} {id k x y z since : DraftId} {m n : DraftNode} {name : DraftId → DraftId}
  {image : Option String} {span : Span} {r : Reading}

theorem openNode_eq_ok : d.openNode id = .ok n ↔ d.nodes[id]? = some n ∧ n.phase = .opened := by
  rw [openNode, bind_eq_ok]
  constructor
  · rintro ⟨m, hm, h⟩
    split at h
    · next hp =>
      cases h
      exact ⟨node_eq_ok.mp hm, hp⟩
    · cases h
  · rintro ⟨hn, hp⟩
    exact ⟨n, node_eq_ok.mpr hn, if_pos hp⟩

/-- What lasts of closed nodes: all but the parent, and the span from the time it is known. -/
def Keeps (d d' : Draft) : Prop :=
  ∀ j n, d.look j = some n → n.phase = .closed →
    ∃ span, d'.look j = some { n with span } ∧ ∀ s, n.span = some s → span = some s

theorem Keeps.refl (d : Draft) : d.Keeps d := fun _ n hn _ => ⟨n.span, hn, fun _ hs => hs⟩

theorem Keeps.trans {d'' : Draft} (h : d.Keeps d') (h' : d'.Keeps d'') : d.Keeps d'' := by
  intro j n hn hp
  obtain ⟨span, hn', hspan⟩ := h j n hn hp
  obtain ⟨span', hn'', hspan'⟩ := h' j _ hn' hp
  exact ⟨span', hn'', fun s hs => hspan' s (hspan s hs)⟩

/-- A closed node with a span stays as it is. -/
theorem Keeps.look_eq (h : d.Keeps d') {kind : Kind} {cs : List DraftId}
    (hz : d.look z = some ⟨kind, .closed, none, cs, some span, image⟩) :
    d'.look z = some ⟨kind, .closed, none, cs, some span, image⟩ := by
  obtain ⟨span', hz', hspan⟩ := h z _ hz rfl
  cases hspan span rfl
  exact hz'

/-- A change to one node, which is not closed or only gets its span. -/
theorem keeps_update {f : DraftNode → DraftNode} (hn : d.nodes[k]? = some n)
    (hf : n.phase = .closed → ∃ span, f n = { n with span } ∧ ∀ s, n.span = some s → span = some s) :
    d.Keeps (d.update k f) := by
  intro j m hm hp
  by_cases hj : k = j
  · subst hj
    cases (look_of_nodes hn).symm.trans hm
    obtain ⟨span, hspan, hsame⟩ := hf hp
    refine ⟨span, ?_, hsame⟩
    rw [look, nodes_update, if_pos rfl, hn, Option.map_some, Option.map_some, hspan]
  · exact ⟨m.span, (look_update_ne f hj).trans hm, fun _ hs => hs⟩

theorem Became.keeps (h : d.Became since y z image span r) (hd : d.Keeps d') :
    d'.Became since y z image span r := by
  cases h with
  | kept same => exact .kept same
  | wrapped new around => exact .wrapped new (hd.look_eq around)
  | named new made => exact .named new (hd.look_eq made)
  | namedAndWrapped old new made around =>
    exact .namedAndWrapped old new (hd.look_eq made) (hd.look_eq around)

theorem Became.mono (h : d.Became since y z image span r) {before : DraftId} (hle : before ≤ since) :
    d.Became before y z image span r := by
  cases h with
  | kept same => exact .kept same
  | wrapped new around => exact .wrapped (Nat.le_trans hle new) around
  | named new made => exact .named (Nat.le_trans hle new) made
  | namedAndWrapped old new made around => exact .namedAndWrapped (Nat.le_trans hle old) new made around

/-- The children of a closed node and those of its twin. What stands for the first child `c` is what it came
to be read as, and if it is not the child itself then the child has a span. -/
inductive Settled (name : DraftId → DraftId) (e d : Draft) (kind : Kind) (image : Option String) :
    List DraftId → List DraftId → Prop
  | leaf : Settled name e d kind image [] []
  | first {c z : DraftId} {cs : List DraftId} {l : DraftNode} (child : e.look c = some l)
    (shut : l.phase = .closed) (placed : Reading.ofNode kind image l.kind ≠ .kept → l.span.isSome)
    (became : d.Became 0 (name c) z l.image (l.span.getD default) (.ofNode kind image l.kind)) :
    Settled name e d kind image (c :: cs) (z :: cs.map name)

theorem Settled.keeps {kind : Kind} {cs ds : List DraftId} (h : Settled name e d kind image cs ds)
    (he : e.Keeps e') (hd : d.Keeps d') : Settled name e' d' kind image cs ds := by
  cases h with
  | leaf => exact .leaf
  | @first c z cs l child shut placed became =>
    obtain ⟨span, hl, hspan⟩ := he c l child shut
    have hbecame := became.keeps hd
    by_cases hr : Reading.ofNode kind image l.kind = .kept
    · rw [hr] at hbecame
      cases hbecame with
      | kept same => exact .first hl shut (fun hne => absurd hr hne) (hr ▸ .kept same)
    · obtain ⟨s, hs⟩ := Option.isSome_iff_exists.mp (placed hr)
      have hsame : span = l.span := (hspan s hs).trans hs.symm
      exact .first hl shut (fun hne => hsame ▸ placed hne) (hsame ▸ hbecame)

/-- Node `n` of the second draft is the twin of node `m` of the first. -/
structure Twin (name : DraftId → DraftId) (e d : Draft) (m n : DraftNode) : Prop where
  kind : n.kind = m.kind
  phase : n.phase = m.phase
  span : n.span = m.span
  image : n.image = m.image
  live : m.phase ≠ .closed → n = m.renamed name
  unplaced : m.span = none → n.children = m.children.map name
  settled : m.phase = .closed → Settled name e d m.kind m.image m.children n.children

theorem Twin.keeps (h : Twin name e d m n) (he : e.Keeps e') (hd : d.Keeps d') : Twin name e' d' m n :=
  ⟨h.kind, h.phase, h.span, h.image, h.live, h.unplaced, fun hp => (h.settled hp).keeps he hd⟩

theorem Twin.of_live (hp : m.phase ≠ .closed) : Twin name e d m (m.renamed name) :=
  ⟨rfl, rfl, rfl, rfl, fun _ => rfl, fun _ => rfl, fun hc => absurd hc hp⟩

/-- The open node `id` covers nothing yet, and its first child is to be settled when it is closed. -/
def Premature (d : Draft) (id : DraftId) : Prop :=
  ∃ (n l : DraftNode) (c : DraftId) (cs : List DraftId), d.nodes[id]? = some n ∧ n.phase = .opened ∧
    n.span = none ∧ n.children = c :: cs ∧ d.nodes[c]? = some l ∧ Reading.ofNode n.kind n.image l.kind ≠ .kept

/-- When a node that covers something starts to close, its children get spans. -/
theorem startClosing_placed (hstart : d.startClosing id n = .ok d') (hspan : n.span.isSome) {c : DraftId}
    (hc : c ∈ n.children) (hlt : c < d.nodes.size) : d'.Placed c := by
  obtain ⟨-, rfl⟩ := startClosing_iff.mp hstart
  obtain ⟨span, hs⟩ := Option.isSome_iff_exists.mp hspan
  rw [hs, Option.some_or]
  exact placed_fold n.children hc (by simpa [halted] using hlt)

/-- The nodes of the first draft have twins in the second, which are different nodes. -/
structure Twins (name : DraftId → DraftId) (e d : Draft) : Prop where
  size : e.nodes.size ≤ d.nodes.size
  lastEnd : d.lastEnd = e.lastEnd
  pending : d.pending = e.pending.map name
  inj : ∀ j k, j < e.nodes.size → k < e.nodes.size → name j = name k → j = k
  node : ∀ (k : DraftId) (m : DraftNode), e.nodes[k]? = some m →
    ∃ n, d.nodes[name k]? = some n ∧ Twin name e d m n

namespace Twins

theorem empty (name : DraftId → DraftId) : Twins name .empty .empty := by
  refine ⟨Nat.le_refl _, rfl, rfl, fun j _ hj => absurd hj (Nat.not_lt_zero j), fun k m hm => ?_⟩
  simp [Draft.empty] at hm

theorem ne (h : Twins name e d) (hj : id < e.nodes.size) (hk : k < e.nodes.size) (hne : id ≠ k) :
    name id ≠ name k :=
  fun he => hne (h.inj id k hj hk he)

theorem lt_size (h : Twins name e d) (hk : k < e.nodes.size) : name k < d.nodes.size := by
  obtain ⟨n, hn, _⟩ := h.node k _ (Array.getElem?_eq_getElem hk)
  exact lt_size_of_nodes hn

/-- What is the twin of a node that is there. -/
theorem twin (h : Twins name e d) (hm : e.nodes[k]? = some m) (hn : d.nodes[name k]? = some n) :
    Twin name e d m n := by
  obtain ⟨n', hn', htwin⟩ := h.node k m hm
  cases hn.symm.trans hn'
  exact htwin

/-- The twin of a node that is not closed differs in the numbers only. -/
theorem renamed (h : Twins name e d) (hm : e.nodes[k]? = some m) (hp : m.phase ≠ .closed) :
    d.nodes[name k]? = some (m.renamed name) := by
  obtain ⟨n, hn, htwin⟩ := h.node k m hm
  rw [hn, htwin.live hp]

/-- A change to a node and its twin. -/
theorem update {f g : DraftNode → DraftNode} (h : Twins name e d) (hm : e.nodes[k]? = some m)
    (hn : d.nodes[name k]? = some n) (he : e.Keeps (e.update k f)) (hd : d.Keeps (d.update (name k) g))
    (htwin : Twin name (e.update k f) (d.update (name k) g) (f m) (g n)) :
    Twins name (e.update k f) (d.update (name k) g) := by
  refine ⟨by simpa using h.size, h.lastEnd, h.pending, by simpa using h.inj, fun j l hl => ?_⟩
  rw [nodes_update] at hl
  split at hl
  · next hkj =>
    subst hkj
    rw [hm] at hl
    cases hl
    exact ⟨g n, by rw [nodes_update, if_pos rfl, hn]; rfl, htwin⟩
  · next hkj =>
    obtain ⟨n', hn', htwin'⟩ := h.node j l hl
    have hne := h.ne (lt_size_of_nodes hm) (lt_size_of_nodes hl) hkj
    exact ⟨n', (nodes_update_ne g hne).trans hn', htwin'.keeps he hd⟩

/-- A change to a node that is not closed and does not get closed. -/
theorem update_live {f g : DraftNode → DraftNode} (h : Twins name e d) (hm : e.nodes[k]? = some m)
    (hp : m.phase ≠ .closed) (hf : (f m).phase ≠ .closed) (hfg : g (m.renamed name) = (f m).renamed name) :
    Twins name (e.update k f) (d.update (name k) g) := by
  have hn := h.renamed hm hp
  refine h.update hm hn (keeps_update hm fun hc => absurd hc hp) (keeps_update hn fun hc => absurd hc hp) ?_
  rw [hfg]
  exact .of_live hf

/-- A node that is not closed, or has no span, gets one. -/
theorem respan (h : Twins name e d) (hm : e.nodes[k]? = some m) (g : Option Span → Span)
    (hp : m.phase = .closed → m.span = none) :
    Twins name (e.update k fun n => { n with span := some (g n.span) })
      (d.update (name k) fun n => { n with span := some (g n.span) }) := by
  by_cases hc : m.phase = .closed
  · obtain ⟨n, hn, htwin⟩ := h.node k m hm
    have hnone := hp hc
    have hke := keeps_update (f := fun n => { n with span := some (g n.span) }) hm fun _ =>
      ⟨_, rfl, fun s hs => by cases hnone.symm.trans hs⟩
    have hkd := keeps_update (f := fun n => { n with span := some (g n.span) }) hn fun _ =>
      ⟨_, rfl, fun s hs => by cases (htwin.span.trans hnone).symm.trans hs⟩
    refine h.update hm hn hke hkd ⟨htwin.kind, htwin.phase, ?_, htwin.image, fun hlive => absurd hc hlive,
      nofun, fun _ => (htwin.settled hc).keeps hke hkd⟩
    exact congrArg (fun s => some (g s)) htwin.span
  · exact h.update_live hm hc hc rfl

/-- A new node on both sides. -/
theorem create (h : Twins name e d) (hname : name e.nodes.size = d.nodes.size) (kind : Kind) :
    Twins name (e.create kind).2 (d.create kind).2 := by
  have hkeeps (d : Draft) : d.Keeps (d.create kind).2 := fun j n hn _ =>
    ⟨n.span, (look_of_nodes_eq (nodes_push_lt d _ (lt_size_of_look hn))).trans hn, fun _ hs => hs⟩
  refine ⟨?_, h.lastEnd, h.pending, ?_, ?_⟩
  · simpa [Draft.create] using h.size
  · intro j k hj hk he
    simp only [Draft.create, Array.size_push] at hj hk
    rcases Nat.lt_succ_iff_lt_or_eq.mp hj with hj | rfl
    · rcases Nat.lt_succ_iff_lt_or_eq.mp hk with hk | rfl
      · exact h.inj j k hj hk he
      · exact absurd (he.trans hname) (Nat.ne_of_lt (h.lt_size hj))
    · rcases Nat.lt_succ_iff_lt_or_eq.mp hk with hk | rfl
      · exact absurd (he.symm.trans hname) (Nat.ne_of_lt (h.lt_size hk))
      · rfl
  · intro k m hm
    rw [nodes_create] at hm
    split at hm
    · next hk =>
      cases hm
      refine ⟨_, ?_, .of_live (by simp)⟩
      rw [hk, hname, nodes_create, if_pos rfl]
      rfl
    · obtain ⟨n, hn, htwin⟩ := h.node k m hm
      exact ⟨n, (nodes_push_lt d _ (lt_size_of_nodes hn)).trans hn, htwin.keeps (hkeeps e) (hkeeps d)⟩

/-- What waits, and where the last token ended, may change on both sides. -/
theorem of_nodes (h : Twins name e d) (he : e'.nodes = e.nodes) (hd : d'.nodes = d.nodes)
    (hend : d'.lastEnd = e'.lastEnd) (hpending : d'.pending = e'.pending.map name) : Twins name e' d' := by
  refine ⟨by rw [he, hd]; exact h.size, hend, hpending, by rw [he]; exact h.inj, fun k m hm => ?_⟩
  rw [he] at hm
  obtain ⟨n, hn, htwin⟩ := h.node k m hm
  have hkeeps {d d' : Draft} (hsame : d'.nodes = d.nodes) : d.Keeps d' := fun j n hn _ =>
    ⟨n.span, by rw [look, hsame]; exact hn, fun _ hs => hs⟩
  exact ⟨n, by rw [hd]; exact hn, htwin.keeps (hkeeps he) (hkeeps hd)⟩

/-- Steps that give spans, one for each of some nodes. -/
theorem foldl {F : Draft → DraftId → Draft} {G : Draft → DraftId → Draft} {cs : List DraftId}
    (h : Twins name e d) (hF : ∀ e c, Respanned e (F e c))
    (hstep : ∀ c ∈ cs, ∀ {e' d'}, Respanned e e' → Twins name e' d' →
      Twins name (F e' c) (G d' (name c))) :
    Twins name (cs.foldl F e) ((cs.map name).foldl G d) := by
  induction cs generalizing e d with
  | nil => exact h
  | cons c cs ih =>
    exact ih (hstep c List.mem_cons_self (.refl e) h) fun b hb e' d' he' h' =>
      hstep b (List.mem_cons_of_mem c hb) ((hF e c).trans he') h'

/-- Placing a node places its twin. Below a node without a span nothing was settled. -/
theorem placeBelow {o : Nat} (h : Twins name e d) (he : e.Upright) (hk : k < e.nodes.size)
    {fuel fuel' : Nat} (hfuel : e.nodes.size ≤ fuel + k) (hfuel' : e.nodes.size ≤ fuel' + k) :
    Twins name (placeBelow o fuel k e) (Draft.placeBelow o fuel' (name k) d) := by
  induction fuel generalizing fuel' k e d with
  | zero =>
    rw [Nat.zero_add] at hfuel
    exact absurd hk (Nat.not_lt.mpr hfuel)
  | succ fuel ih =>
    cases fuel' with
    | zero =>
      rw [Nat.zero_add] at hfuel'
      exact absurd hk (Nat.not_lt.mpr hfuel')
    | succ fuel' =>
      have hm := Array.getElem?_eq_getElem hk
      generalize e.nodes[k] = m at hm
      obtain ⟨n, hn, htwin⟩ := h.node k m hm
      rw [Draft.placeBelow, Draft.placeBelow, hm, hn]
      dsimp only
      rw [htwin.span]
      by_cases hs : m.span.isSome = true
      · rw [if_pos hs, if_pos hs]
        exact h
      · rw [if_neg hs, if_neg hs]
        have hnone : m.span = none := by simpa using hs
        have hspans := respanned_update e k fun _ => .empty o
        rw [htwin.unplaced hnone]
        refine (h.respan hm (fun _ => .empty o) fun _ => hnone).foldl
          (fun e c => respanned_placeBelow o fuel c e) fun c hc e' d' he' h' => ?_
        have hparent := (he.child hm).mp hc
        have hlt := he.before c k hparent
        have hsize : e'.nodes.size = e.nodes.size := he'.size.trans hspans.size
        rw [Nat.succ_add_eq_add_succ] at hfuel hfuel'
        refine ih h' ((he.respanned hspans).respanned he') (hsize ▸ lt_size_of_parentOf hparent) ?_ ?_
        · exact hsize ▸ Nat.le_trans hfuel (Nat.add_le_add_left hlt fuel)
        · exact hsize ▸ Nat.le_trans hfuel' (Nat.add_le_add_left hlt fuel')

theorem place (h : Twins name e d) (he : e.Upright) (hk : k < e.nodes.size) (o : Nat) :
    Twins name (e.place o k) (d.place o (name k)) :=
  h.placeBelow he hk (Nat.le_add_right _ k) (Nat.le_trans h.size (Nat.le_add_right _ k))

theorem placeAll (h : Twins name e d) (he : e.Upright) {cs : List DraftId}
    (hcs : ∀ c ∈ cs, c < e.nodes.size) (o : Nat) :
    Twins name (cs.foldl (fun d c => d.place o c) e) ((cs.map name).foldl (fun d c => d.place o c) d) :=
  h.foldl (fun e c => respanned_place e o c) fun c hc _ _ he' h' =>
    h'.place (he.respanned he') (he'.size ▸ hcs c hc) o

theorem placePending (h : Twins name e d) (he : e.Orderly) (o : Nat) :
    Twins name (e.placePending o) (d.placePending o) := by
  have hbase : Twins name { e with pending := [] } { d with pending := [] } :=
    h.of_nodes rfl rfl h.lastEnd rfl
  rw [Draft.placePending, Draft.placePending, h.pending]
  refine hbase.placeAll ⟨he.coherent.linked, he.before, he.sound.nested⟩ (fun c hc => ?_) o
  exact lt_size_of_phaseOf (he.pending c hc)

/-- The way up from a node is the way up from its twin. -/
theorem climb (h : Twins name e d) {ids : List DraftId} (hids : e.Climb k ids) :
    d.Climb (name k) (ids.map name) := by
  induction hids with
  | @shut k m found shut =>
    obtain ⟨n, hn, htwin⟩ := h.node k m found
    exact .shut hn (htwin.phase.symm ▸ shut)
  | @top k m found opened parentless =>
    refine .top (h.renamed found (by simp [opened])) opened ?_
    simp [DraftNode.renamed, parentless]
  | @step k p m ids found opened parent _ ih =>
    refine .step (h.renamed found (by simp [opened])) opened ?_ ih
    simp [DraftNode.renamed, parent]

/-- A token in a node and in its twin. -/
theorem extend (h : Twins name e d) (he : e.Orderly) (hk : k < e.nodes.size) {span : Span}
    (hext : d.extend (name k) span = .ok d') :
    ∃ e', e.extend k span = .ok e' ∧ Twins name e' d' := by
  obtain ⟨ids, hids⟩ := he.coherent.climb he.acyclic hk
  refine ⟨_, hids.extend_eq hk span, ?_⟩
  rw [(h.climb hids).extend_eq (h.lt_size hk)] at hext
  cases hext
  have hbase : Twins name { e with lastEnd := max e.lastEnd span.stop }
      { d with lastEnd := max d.lastEnd span.stop } :=
    h.of_nodes rfl rfl (congrArg (max · span.stop) h.lastEnd) h.pending
  have horderly : Orderly { e with lastEnd := max e.lastEnd span.stop } :=
    he.of_same ⟨he.coherent.linked, he.coherent.waiting⟩ rfl rfl rfl fun _ hid => hid
  have hspans := respanned_placePending { e with lastEnd := max e.lastEnd span.stop } span.start
  refine (hbase.placePending horderly span.start).foldl
    (fun e c => respanned_update e c fun s => s.elim span (·.cover span)) fun c hc e' d' he' h' => ?_
  have hopen : e'.phaseOf c = some .opened := by
    rw [he'.phaseOf_eq, hspans.phaseOf_eq]
    exact hids.opened c hc
  obtain ⟨m, hm, hp⟩ := exists_of_phaseOf hopen
  exact h'.respan hm (fun s => s.elim span (·.cover span)) fun hc => by cases hp.symm.trans hc

/-- What is open in the second draft is open in the first. -/
theorem openNode (h : Twins name e d) (hk : k < e.nodes.size) (hopen : d.openNode (name k) = .ok n) :
    ∃ m, e.openNode k = .ok m ∧ e.nodes[k]? = some m ∧ m.phase = .opened := by
  obtain ⟨hn, hp⟩ := openNode_eq_ok.mp hopen
  have hm := Array.getElem?_eq_getElem hk
  have hphase := (h.twin hm hn).phase.symm.trans hp
  exact ⟨_, openNode_eq_ok.mpr ⟨hm, hphase⟩, hm, hphase⟩

theorem setImage (h : Twins name e d) (hk : k < e.nodes.size) {image : String}
    (hset : d.setImage (name k) image = .ok d') :
    ∃ e', e.setImage k image = .ok e' ∧ Twins name e' d' := by
  obtain ⟨n, hopen, hset⟩ := bind_eq_ok.mp hset
  cases hset
  obtain ⟨m, hopen', hm, hp⟩ := h.openNode hk hopen
  exact ⟨_, bind_eq_ok.mpr ⟨m, hopen', rfl⟩, h.update_live hm (by simp [hp]) (by simp [hp]) rfl⟩

theorem pushImage (h : Twins name e d) (hk : k < e.nodes.size) {text : String}
    (hpush : d.pushImage (name k) text = .ok d') :
    ∃ e', e.pushImage k text = .ok e' ∧ Twins name e' d' := by
  obtain ⟨n, hopen, hpush⟩ := bind_eq_ok.mp hpush
  cases hpush
  obtain ⟨m, hopen', hm, hp⟩ := h.openNode hk hopen
  exact ⟨_, bind_eq_ok.mpr ⟨m, hopen', rfl⟩, h.update_live hm (by simp [hp]) (by simp [hp]) rfl⟩

/-- An open node gets its parent. -/
theorem append (h : Twins name e d) {p c : DraftId} (hp : p < e.nodes.size)
    (hc : e.phaseOf c = some .opened) (happ : d.append (name p) (name c) = .ok d') :
    ∃ e', e.append p c = .ok e' ∧ Twins name e' d' := by
  obtain ⟨n, hopen, hattach⟩ := bind_eq_ok.mp happ
  obtain ⟨m, hopen', hm, hmp⟩ := h.openNode hp hopen
  obtain ⟨hne, ⟨n, hn, hnone⟩, -, rfl⟩ := attach_eq_ok hattach
  obtain ⟨l, hl, hlp⟩ := exists_of_phaseOf hc
  have hpc : p ≠ c := fun he => hne (congrArg name he)
  have hparent : l.parent = none := by
    have hrenamed := (h.twin hl hn).live (by simp [hlp])
    rw [hrenamed] at hnone
    simpa [DraftNode.renamed] using hnone
  have hchild : Twins name (e.update c fun n => { n with parent := some p })
      (d.update (name c) fun n => { n with parent := some (name p) }) :=
    h.update_live hl (by simp [hlp]) (by simp [hlp]) rfl
  refine ⟨_, ?_, hchild.update_live (f := fun n => { n with children := n.children ++ [c] })
    ((nodes_update_ne _ (Ne.symm hpc)).trans hm) (by simp [hmp]) (by simp [hmp]) ?_⟩
  · refine bind_eq_ok.mpr ⟨m, hopen', ?_⟩
    simp [attach, Draft.node, hpc, hl, hparent, hm, bind, Except.bind, pure, Except.pure]
  · simp [DraftNode.renamed]

/-- What children cover, their twins cover. -/
theorem nodesAt_span (h : Twins name e d) {cs : List DraftId} (hcs : ∀ c ∈ cs, c < e.nodes.size) :
    (d.nodesAt (cs.map name)).filterMap DraftNode.span = (e.nodesAt cs).filterMap DraftNode.span := by
  induction cs with
  | nil => rfl
  | cons c cs ih =>
    obtain ⟨m, hm⟩ : ∃ m, e.nodes[c]? = some m :=
      ⟨_, Array.getElem?_eq_getElem (hcs c List.mem_cons_self)⟩
    obtain ⟨n, hn, htwin⟩ := h.node c m hm
    rw [nodesAt, List.map_cons, List.filterMap_cons_some hn, nodesAt, List.filterMap_cons_some hm,
      List.filterMap_cons, List.filterMap_cons, htwin.span]
    have ih := ih fun b hb => hcs b (List.mem_cons_of_mem c hb)
    cases m.span with
    | none => exact ih
    | some span => exact congrArg (span :: ·) ih

theorem covering (h : Twins name e d) (he : e.Upright) (hm : e.nodes[k]? = some m)
    (hp : m.phase ≠ .closed) {cs : List DraftId} (hcs : ∀ c ∈ cs, c < e.nodes.size) (covered : Option Span) :
    Twins name (e.covering k cs covered) (d.covering (name k) (cs.map name) covered) := by
  cases covered with
  | none =>
    refine h.of_nodes rfl rfl h.lastEnd ?_
    simp [Draft.covering, h.pending]
  | some span =>
    exact (h.respan hm (fun _ => span) fun hc => absurd hc hp).placeAll
      (he.respanned (respanned_update e k fun _ => span)) (by simpa using hcs) span.stop

/-- A node and its twin start to close. -/
theorem startClosing (h : Twins name e d) (he : e.Orderly) (hm : e.nodes[k]? = some m)
    (hopen : m.phase = .opened) (hstart : d.startClosing (name k) (m.renamed name) = .ok d') :
    ∃ e', e.startClosing k m = .ok e' ∧ Twins name e' d' := by
  obtain ⟨hkids, rfl⟩ := startClosing_iff.mp hstart
  have hhalted : Twins name (e.halted k) (d.halted (name k)) :=
    h.update_live hm (by simp [hopen]) (by simp) rfl
  have hlt : ∀ c ∈ m.children, c < (e.halted k).nodes.size := fun c hc => by
    rw [halted, size_update]
    exact (he.after hm c hc).2
  have hkids' : ∀ l ∈ (e.halted k).nodesAt m.children, l.phase = .closed := by
    intro l hl
    obtain ⟨c, hc, hl⟩ := List.mem_filterMap.mp hl
    obtain ⟨n, hn, htwin⟩ := hhalted.node c l hl
    rw [← htwin.phase]
    exact hkids n (List.mem_filterMap.mpr ⟨name c, List.mem_map_of_mem hc, hn⟩)
  refine ⟨_, startClosing_iff.mpr ⟨hkids', rfl⟩, ?_⟩
  have hspans : ((d.halted (name k)).nodesAt (m.renamed name).children).filterMap DraftNode.span =
      ((e.halted k).nodesAt m.children).filterMap DraftNode.span := hhalted.nodesAt_span hlt
  rw [hspans]
  exact hhalted.covering (he.upright_halted hm hkids') (nodes_halted_self hm) (by simp) hlt _

/-- A node and its twin are closed, where the twin may have got another first child. -/
theorem endClosing (h : Twins name e d) (hm : e.nodes[k]? = some m) (hp : m.phase = .finalizing)
    {ys : List DraftId} (hself : d'.nodes[name k]? = some { m.renamed name with children := ys })
    (hothers : ∀ j < e.nodes.size, j ≠ k → d'.nodes[name j]? = d.nodes[name j]? ∨
      e.phaseOf j = some .closed ∧ d'.look (name j) = d.look (name j))
    (hkeeps : d.Keeps d') (hsize : d.nodes.size ≤ d'.nodes.size) (hpending : d'.pending = d.pending)
    (hend : d'.lastEnd = d.lastEnd) (hunplaced : m.span = none → ys = m.children.map name)
    (hsettled : Settled name e d' m.kind m.image m.children ys) :
    Twins name (e.endClosing k) (d'.endClosing (name k)) := by
  have hke : e.Keeps (e.endClosing k) := keeps_update hm fun hc => by cases hp.symm.trans hc
  have hkd : d'.Keeps (d'.endClosing (name k)) := keeps_update hself fun hc => by cases hp.symm.trans hc
  refine ⟨?_, hend.trans h.lastEnd, hpending.trans h.pending, ?_, fun j l hl => ?_⟩
  · simpa [Draft.endClosing] using Nat.le_trans h.size hsize
  · simpa [Draft.endClosing] using h.inj
  by_cases hjk : j = k
  · subst hjk
    rw [Draft.endClosing, nodes_update, if_pos rfl, hm] at hl
    cases hl
    refine ⟨_, by rw [Draft.endClosing, nodes_update, if_pos rfl, hself]; rfl, ?_⟩
    exact ⟨rfl, rfl, rfl, rfl, fun hne => absurd rfl hne, hunplaced, fun _ => hsettled.keeps hke hkd⟩
  · rw [Draft.endClosing, nodes_update_ne _ (Ne.symm hjk)] at hl
    have hlt := lt_size_of_nodes hl
    have hne := h.ne (lt_size_of_nodes hm) hlt (Ne.symm hjk)
    obtain ⟨n, hn, htwin⟩ := h.node j l hl
    have htwin := htwin.keeps hke (hkeeps.trans hkd)
    rcases hothers j hlt hjk with hsame | ⟨hclosed, hsame⟩
    · exact ⟨n, (nodes_update_ne _ hne).trans (hsame.trans hn), htwin⟩
    · -- the twin may have lost its parent
      obtain ⟨p, hn', _⟩ := look_eq_some (hsame.trans (look_of_nodes hn))
      have hclosed : l.phase = .closed := Option.some.inj ((phaseOf_of_nodes hl).symm.trans hclosed)
      exact ⟨_, (nodes_update_ne _ hne).trans hn', htwin.kind, htwin.phase, htwin.span, htwin.image,
        fun hlive => absurd hclosed hlive, htwin.unplaced, htwin.settled⟩

/-- A node without settled children is closed on both sides. -/
theorem endClosing_same (h : Twins name e d) (hm : e.nodes[k]? = some m) (hp : m.phase = .finalizing)
    (hsettled : Settled name e d m.kind m.image m.children (m.children.map name)) :
    Twins name (e.endClosing k) (d.endClosing (name k)) :=
  h.endClosing hm hp (h.renamed hm (by simp [hp])) (fun _ _ _ => .inl rfl) (.refl d) (Nat.le_refl _) rfl rfl
    (fun _ => rfl) hsettled

/-- A node is closed on both sides, and the twin gets the first child that it reads. -/
theorem endClosing_exchanged (h : Twins name e d) (hm : e.nodes[k]? = some m) (hp : m.phase = .finalizing)
    {c : DraftId} {cs : List DraftId} {l : DraftNode} (hc : m.children = c :: cs) (hck : c ≠ k)
    (hl : e.nodes[c]? = some l) (hshut : l.phase = .closed)
    (hplaced : Reading.ofNode m.kind m.image l.kind ≠ .kept → m.span.isSome ∧ l.span.isSome)
    (hd' : d.Exchanged (m.renamed name) (name k) z (cs.map name) [name c] d')
    (hbecame : d'.Became d.nodes.size (name c) z l.image (l.span.getD default)
      (.ofNode m.kind m.image l.kind)) : Twins name (e.endClosing k) (d'.endClosing (name k)) := by
  have hclt := lt_size_of_nodes hl
  have hklt := lt_size_of_nodes hm
  refine h.endClosing hm hp hd'.self (fun j hj hjk => ?_) (fun j n hn hpn => ?_) hd'.size hd'.pending
    hd'.lastEnd (fun hnone => ?_) ?_
  · have hne := h.ne hj hklt hjk
    by_cases hjc : j = c
    · subst hjc
      exact .inr ⟨by rw [phaseOf_of_nodes hl, hshut], hd'.look _ (h.lt_size hj) hne⟩
    · refine .inl (hd'.nodes _ (h.lt_size hj) hne ?_)
      rw [List.mem_singleton]
      exact h.ne hj hclt hjc
  · refine ⟨n.span, (hd'.look j (lt_size_of_look hn) ?_).trans hn, fun _ hs => hs⟩
    rintro rfl
    cases (look_of_nodes (h.renamed hm (by simp [hp]))).symm.trans hn
    cases hp.symm.trans hpn
  · -- nothing is settled in a node that covers nothing
    have hkept : Reading.ofNode m.kind m.image l.kind = .kept := by
      by_contra hr
      have := (hplaced hr).1
      rw [hnone] at this
      cases this
    rw [hkept] at hbecame
    cases hbecame with
    | kept same => rw [same, hc, List.map_cons]
  · rw [hc]
    exact .first (look_of_nodes hl) hshut (fun hr => (hplaced hr).2) (hbecame.mono (Nat.zero_le _))

/-- A node is closed on both sides, not too early for what is settled then. -/
theorem close {σ : Type} {s s' : σ} {d₁ d₂ : Draft} (h : Twins name e d) (he : e.Orderly)
    (hm : e.nodes[k]? = some m) (hopen : m.phase = .opened) (htimely : ¬ e.Premature k)
    (hstart : d.startClosing (name k) (m.renamed name) = .ok d₁)
    (hrun : (Finalizer.disambiguate (name k)).run (name k) d₁ s = .ok ((), d₂, s')) :
    ∃ e₁, e.startClosing k m = .ok e₁ ∧ Twins name (e₁.endClosing k) (d₂.endClosing (name k)) := by
  obtain ⟨e₁, hstart', h₁⟩ := h.startClosing he hm hopen hstart
  refine ⟨e₁, hstart', ?_⟩
  obtain ⟨e₂, hspans, hnodes, hclosed⟩ := startClosing_eq_ok hstart'
  rw [← halted] at hspans
  obtain ⟨span, hm₁, hsome⟩ : ∃ span, e₁.nodes[k]? = some { m with phase := .finalizing, span } ∧
      (m.span.isSome → span.isSome) := hnodes ▸ hspans.nodes k _ (nodes_halted_self hm)
  have hx := h₁.renamed hm₁ (by simp)
  cases hc : m.children with
  | nil =>
    have hleaf := Finalizer.run_disambiguate_leaf s hx (congrArg (List.map name) hc)
    cases hleaf.symm.trans hrun
    refine h₁.endClosing_same hm₁ rfl ?_
    dsimp only
    rw [hc]
    exact .leaf
  | cons c cs =>
    have hmem : c ∈ m.children := hc ▸ List.mem_cons_self
    obtain ⟨hkc, hlt⟩ := he.after hm c hmem
    have hck : c ≠ k := Ne.symm (Nat.ne_of_lt hkc)
    obtain ⟨l₀, hl₀⟩ : ∃ l, e.nodes[c]? = some l := ⟨_, Array.getElem?_eq_getElem hlt⟩
    obtain ⟨span', hl, _⟩ := hspans.nodes c l₀ ((nodes_halted_ne hck).trans hl₀)
    rw [hnodes] at hl
    have hshut : l₀.phase = .closed := hclosed c hmem { l₀ with span := span' } hl
    obtain ⟨q, hq, htwin⟩ := h₁.node c _ hl
    have hne := h₁.ne (lt_size_of_nodes hl) (lt_size_of_nodes hm₁) hck
    have hqp : q.phase ≠ .opened := by
      rw [htwin.phase, hshut]
      simp
    obtain ⟨z, d', hrun', hd', hbecame⟩ := Finalizer.run_disambiguate s hx (by simp [DraftNode.renamed])
      (congrArg (List.map name) hc) hq hne hqp
    cases hrun'.symm.trans hrun
    rw [htwin.kind, htwin.image, htwin.span] at hbecame
    refine h₁.endClosing_exchanged hm₁ rfl hc hck hl hshut (fun hr => ?_) hd' hbecame
    have hspan : m.span.isSome := by
      by_contra hnone
      exact htimely ⟨m, l₀, c, cs, hm, hopen, by simpa using hnone, hc, hl₀, hr⟩
    obtain ⟨l₁, hl₁, hplaced⟩ := startClosing_placed hstart' hspan hmem hlt
    cases hl.symm.trans hl₁
    exact ⟨hsome hspan, hplaced⟩

end Twins

end Draft

end JavaSyntax
