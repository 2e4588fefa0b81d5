import JavaSyntax.Proofs.Draft.Acyclic
import JavaSyntax.Proofs.Draft.Recording

namespace JavaSyntax

namespace Draft

variable {d d' : Draft} {id c : DraftId} {n : DraftNode}

/-- The draft in which a node has stopped being open. -/
def halted (d : Draft) (id : DraftId) : Draft := d.update id fun n => { n with phase := .finalizing }

theorem nodes_halted_self (hn : d.nodes[id]? = some n) :
    (d.halted id).nodes[id]? = some { n with phase := .finalizing } := by
  rw [halted, nodes_update, if_pos rfl, hn]
  rfl

theorem nodes_halted_ne {j : DraftId} (hj : j ≠ id) : (d.halted id).nodes[j]? = d.nodes[j]? :=
  nodes_update_ne _ (Ne.symm hj)

theorem parentOf_halted (d : Draft) (id : DraftId) : (d.halted id).parentOf = d.parentOf :=
  parentOf_update d id _ fun _ => rfl

theorem childrenOf_halted (d : Draft) (id : DraftId) : (d.halted id).childrenOf = d.childrenOf :=
  childrenOf_update d id _ fun _ => rfl

/-- The nodes with these numbers, as far as they are there. -/
def nodesAt (d : Draft) (ids : List DraftId) : List DraftNode := ids.filterMap fun c => d.nodes[c]?

/-- What covering something, or nothing yet, means for a node that starts to close and its children. -/
def covering (d : Draft) (id : DraftId) (children : List DraftId) : Option Span → Draft
  | none => { d with pending := d.pending ++ [id] }
  | some span =>
    children.foldl (fun d c => d.place span.stop c) (d.update id fun n => { n with span := some span })

/-- All that happens when a node starts to close. -/
theorem startClosing_iff : d.startClosing id n = .ok d' ↔
    (∀ m ∈ (d.halted id).nodesAt n.children, m.phase = .closed) ∧
      d' = (d.halted id).covering id n.children
        (n.span.or (hull (((d.halted id).nodesAt n.children).filterMap DraftNode.span))) := by
  have hfind : ((d.halted id).nodesAt n.children).find? (fun c => c.phase ≠ .closed) = none ↔
      ∀ m ∈ (d.halted id).nodesAt n.children, m.phase = .closed := by
    simp
  constructor
  · intro h
    unfold startClosing at h
    dsimp only at h
    split at h
    · cases h
    · next hnone =>
      refine ⟨hfind.mp hnone, ?_⟩
      split at h <;> next hspan => cases h; exact (congrArg (covering _ _ _) hspan).symm
  · rintro ⟨hclosed, rfl⟩
    have hnone := hfind.mpr hclosed
    unfold startClosing
    dsimp only
    split
    · next hsome => cases hsome.symm.trans hnone
    · split <;> next hspan => exact congrArg (fun s => Except.ok (covering _ _ _ s)) hspan.symm

theorem respanned_covering (d : Draft) (id : DraftId) (children : List DraftId) (covered : Option Span) :
    ∃ e, Respanned d e ∧ (d.covering id children covered).nodes = e.nodes ∧
      ∀ j ∈ (d.covering id children covered).pending, j ∈ d.pending ∨ j = id := by
  cases covered with
  | none => exact ⟨d, .refl d, rfl, by simp [covering]⟩
  | some span =>
    have hspans := (respanned_update d id fun _ => span).trans
      (respanned_fold (fun d c => respanned_place d span.stop c) children _)
    exact ⟨_, hspans, rfl, fun j hj => .inl (hspans.pending ▸ hj)⟩

theorem lt_size_of_parentOf {p : DraftId} (h : d.parentOf c = some p) : c < d.nodes.size := by
  obtain ⟨m, hm, _⟩ := Option.bind_eq_some_iff.mp h
  exact lt_size_of_nodes hm

/-- Parents come before their children, and below a node that is not open everything is closed. -/
structure Orderly (d : Draft) : Prop where
  coherent : d.Coherent
  before : ∀ c p, d.parentOf c = some p → p < c
  closed : ∀ id p, d.phaseOf id = some p → p ≠ .opened →
    p = .closed ∧ ∀ c ∈ d.childrenOf id, d.phaseOf c = some .closed
  pending : ∀ id ∈ d.pending, d.phaseOf id = some .closed

namespace Orderly

theorem empty : Draft.empty.Orderly := by
  refine ⟨coherent_empty, ?_, ?_, ?_⟩
  · intro c p h
    simp [parentOf, Draft.empty] at h
  · intro id p h
    simp [phaseOf, Draft.empty] at h
  · intro id hid
    cases hid

theorem shut_of_closed (h : d.phaseOf id = some .closed) : d.Shut id := by
  obtain ⟨n, hn, hp⟩ := exists_of_phaseOf h
  exact ⟨n, hn, by simp [hp]⟩

theorem sound (h : d.Orderly) : d.Sound := by
  refine ⟨?_, fun id hid => shut_of_closed (h.pending id hid), h.coherent.waiting⟩
  intro id n hn hp c hc
  have hbelow := (h.closed id n.phase (phaseOf_of_nodes hn) hp).2
  rw [childrenOf_of_nodes hn] at hbelow
  exact shut_of_closed (hbelow c hc)

theorem acyclic (h : d.Orderly) : Acyclic d.parentOf := by
  have hlt : ∀ {a x : DraftId}, Ancestor d.parentOf a x → a < x := by
    intro a x ha
    induction ha with
    | single hp => exact h.before _ _ hp
    | tail _ hp ih => exact Nat.lt_trans (h.before _ _ hp) ih
  exact fun x hx => Nat.lt_irrefl x (hlt hx)

/-- The children of a node come after it. -/
theorem after (h : d.Orderly) (hn : d.nodes[id]? = some n) : ∀ c ∈ n.children, id < c ∧ c < d.nodes.size := by
  intro c hc
  rw [← childrenOf_of_nodes hn, h.coherent.linked.mem_iff] at hc
  exact ⟨h.before c id hc, lt_size_of_parentOf hc⟩

/-- Whoever leaves phases and links alone leaves the order alone. -/
theorem of_same (h : d.Orderly) (hd' : d'.Coherent) (hparent : d'.parentOf = d.parentOf)
    (hchildren : d'.childrenOf = d.childrenOf) (hphase : d'.phaseOf = d.phaseOf)
    (hpending : ∀ id ∈ d'.pending, id ∈ d.pending) : d'.Orderly := by
  refine ⟨hd', hparent ▸ h.before, ?_, ?_⟩
  · rw [hchildren, hphase]
    exact h.closed
  · rw [hphase]
    exact fun id hid => h.pending id (hpending id hid)

theorem create (h : d.Orderly) (k : Kind) : (d.create k).2.Orderly := by
  have hold : ∀ c, d.phaseOf c = some .closed → (d.create k).2.phaseOf c = some .closed := by
    intro c hc
    rw [phaseOf_create, Function.update_of_ne (Nat.ne_of_lt (lt_size_of_phaseOf hc))]
    exact hc
  refine ⟨h.coherent.create k, parentOf_create d k ▸ h.before, ?_, fun id hid => hold id (h.pending id hid)⟩
  intro id p hid hp
  rw [childrenOf_create]
  rw [phaseOf_create, Function.update_apply] at hid
  split at hid
  · exact absurd (Option.some.inj hid).symm hp
  · obtain ⟨hclosed, hbelow⟩ := h.closed id p hid hp
    exact ⟨hclosed, fun c hc => hold c (hbelow c hc)⟩

/-- Only open nodes get children. -/
theorem opened_of_append {p c : DraftId} (happ : d.append p c = .ok d') :
    d.phaseOf p = some .opened ∧ d.attach p c = .ok d' := by
  obtain ⟨_, hopen, hattach⟩ := bind_eq_ok.mp happ
  obtain ⟨k, hk, hif⟩ := bind_eq_ok.mp hopen
  split at hif
  · next hopened => exact ⟨by rw [phaseOf_of_nodes (node_eq_ok.mp hk), hopened], hattach⟩
  · cases hif

/-- The newest node may be appended. -/
theorem append (h : d.Orderly) {p c : DraftId} (hc : c + 1 = d.nodes.size) (happ : d.append p c = .ok d') :
    d'.Orderly := by
  have hd' := h.coherent.append happ
  have hphase := phaseOf_append happ
  obtain ⟨hp, hattach⟩ := opened_of_append happ
  obtain ⟨hne, -, ⟨l, hl⟩, -⟩ := attach_eq_ok hattach
  obtain ⟨hchildren, hparent⟩ := attach_links hattach
  refine ⟨hd', ?_, ?_, ?_⟩
  · intro x q hq
    rw [hparent, Function.update_apply] at hq
    split at hq
    · next hx =>
      cases hq
      have hlt : p < c + 1 := hc ▸ lt_size_of_nodes hl
      exact hx ▸ Nat.lt_of_le_of_ne (Nat.le_of_lt_succ hlt) hne
    · exact h.before x q hq
  · intro id q hid hq
    rw [hphase] at hid
    rw [hphase, hchildren, Function.update_apply]
    split
    · next he =>
      subst he
      rw [hp] at hid
      exact absurd (Option.some.inj hid).symm hq
    · exact h.closed id q hid hq
  · rw [hphase, (attach_relinked hattach).pending]
    exact h.pending

theorem setImage (h : d.Orderly) {image : String} (hset : d.setImage id image = .ok d') : d'.Orderly := by
  have hd' := h.coherent.setImage hset
  have hparent := parentOf_setImage hset
  have hphase := phaseOf_setImage hset
  obtain ⟨_, _, hset⟩ := bind_eq_ok.mp hset
  cases hset
  exact h.of_same hd' hparent (childrenOf_update d id _ fun _ => rfl) hphase fun _ hid => hid

theorem pushImage (h : d.Orderly) {text : String} (hpush : d.pushImage id text = .ok d') : d'.Orderly := by
  have hd' := h.coherent.pushImage hpush
  have hparent := parentOf_pushImage hpush
  have hphase := phaseOf_pushImage hpush
  obtain ⟨_, _, hpush⟩ := bind_eq_ok.mp hpush
  cases hpush
  exact h.of_same hd' hparent (childrenOf_update d id _ fun _ => rfl) hphase fun _ hid => hid

theorem extend (h : d.Orderly) {span : Span} (hext : d.extend id span = .ok d') : d'.Orderly := by
  have hspans := respanned_extend hext
  refine h.of_same (h.coherent.extend hext) hspans.parentOf_eq hspans.childrenOf_eq hspans.phaseOf_eq
    fun id hid => ?_
  rw [hspans.pending] at hid
  cases hid

theorem placePending (h : d.Orderly) (o : Nat) : (d.placePending o).Orderly := by
  have hspans := respanned_placePending d o
  refine h.of_same (h.coherent.placePending o) hspans.parentOf_eq hspans.childrenOf_eq hspans.phaseOf_eq
    fun id hid => ?_
  rw [hspans.pending] at hid
  cases hid

/-- The links of a node that starts to close stay. -/
theorem childrenOf_startClosing (hstart : d.startClosing id n = .ok d') : d'.childrenOf = d.childrenOf := by
  obtain ⟨e, he, hnodes, -⟩ := startClosing_eq_ok hstart
  funext j
  rw [childrenOf, ← hnodes]
  exact congrFun (he.childrenOf_eq.trans (childrenOf_halted d id)) j

theorem childrenOf_endClosing (d : Draft) (id : DraftId) : (d.endClosing id).childrenOf = d.childrenOf :=
  childrenOf_update d id _ fun _ => rfl

/-- The children of a node that stops being open are closed. -/
theorem closed_child (h : d.Orderly) (hn : d.nodes[id]? = some n)
    (hkids : ∀ m ∈ (d.halted id).nodesAt n.children, m.phase = .closed) :
    ∀ c ∈ n.children, c ≠ id ∧ ∃ m, d.nodes[c]? = some m ∧ m.phase = .closed := by
  intro c hc
  obtain ⟨hlt, hsize⟩ := h.after hn c hc
  have hne : c ≠ id := Ne.symm (Nat.ne_of_lt hlt)
  have hm := Array.getElem?_eq_getElem hsize
  exact ⟨hne, _, hm, hkids _ (List.mem_filterMap.mpr ⟨c, hc, (nodes_halted_ne hne).trans hm⟩)⟩

/-- A node is closed, and its finalizer does nothing. -/
theorem close (h : d.Orderly) (hn : d.nodes[id]? = some n) (hstart : d.startClosing id n = .ok d') :
    (d'.endClosing id).Orderly := by
  obtain ⟨hd', hshut⟩ := h.coherent.startClosing hstart hn
  have hlt : id < d'.nodes.size := by
    obtain ⟨m, hm, _⟩ := hshut
    exact lt_size_of_nodes hm
  have hphase : (d'.endClosing id).phaseOf = Function.update d.phaseOf id (some .closed) := by
    rw [phaseOf_endClosing hlt, phaseOf_startClosing hstart hn, Function.update_idem]
  have hclosed : ∀ c, d.phaseOf c = some .closed → (d'.endClosing id).phaseOf c = some .closed := by
    intro c hc
    rw [hphase, Function.update_apply]
    split
    · rfl
    · exact hc
  have hchildren : (d'.endClosing id).childrenOf = d.childrenOf :=
    (childrenOf_endClosing d' id).trans (childrenOf_startClosing hstart)
  obtain ⟨hkids, he⟩ := startClosing_iff.mp hstart
  refine ⟨hd'.endClosing hshut, ?_, ?_, ?_⟩
  · rw [parentOf_endClosing, parentOf_startClosing hstart]
    exact h.before
  · intro j p hj hp
    rw [hphase, Function.update_apply] at hj
    rw [hchildren]
    split at hj
    · next heq =>
      subst heq
      refine ⟨(Option.some.inj hj).symm, fun c hc => ?_⟩
      rw [childrenOf_of_nodes hn] at hc
      obtain ⟨-, m, hm, hmclosed⟩ := h.closed_child hn hkids c hc
      exact hclosed c ((phaseOf_of_nodes hm).trans (congrArg some hmclosed))
    · obtain ⟨hp', hbelow⟩ := h.closed j p hj hp
      exact ⟨hp', fun c hc => hclosed c (hbelow c hc)⟩
  · intro j hj
    obtain ⟨_, _, _, hpending⟩ := respanned_covering (d.halted id) id n.children
      (n.span.or (hull (((d.halted id).nodesAt n.children).filterMap DraftNode.span)))
    have hj : j ∈ d'.pending := hj
    rw [he] at hj
    rcases hpending j hj with hj | rfl
    · exact hclosed j (h.pending j hj)
    · rw [hphase, Function.update_self]

end Orderly

/-- The nodes on the way up are open. -/
theorem Climb.opened {ids : List DraftId} (h : d.Climb id ids) : ∀ j ∈ ids, d.phaseOf j = some .opened := by
  induction h with
  | shut => exact fun j hj => by cases hj
  | top found opened =>
    intro j hj
    rw [List.mem_singleton.mp hj, phaseOf_of_nodes found, opened]
  | step found opened _ _ ih =>
    intro j hj
    rcases List.mem_cons.mp hj with rfl | hj
    · rw [phaseOf_of_nodes found, opened]
    · exact ih j hj

/-- The links agree, parents come before their children, and what stands below a shut node is shut. -/
structure Upright (d : Draft) : Prop where
  linked : Linked d.childrenOf d.parentOf
  before : ∀ c p, d.parentOf c = some p → p < c
  nested : d.Nested

theorem Orderly.upright (h : d.Orderly) : d.Upright := ⟨h.coherent.linked, h.before, h.sound.nested⟩

theorem Respanned.shut (h : Respanned d d') (hs : d.Shut id) : d'.Shut id := by
  obtain ⟨n, hn, hp⟩ := hs
  obtain ⟨span, hn', _⟩ := h.nodes id n hn
  exact ⟨_, hn', hp⟩

theorem Upright.respanned (hd : d.Upright) (h : Respanned d d') : d'.Upright := by
  refine ⟨?_, h.parentOf_eq ▸ hd.before, ?_⟩
  · rw [h.childrenOf_eq, h.parentOf_eq]
    exact hd.linked
  · intro id n' hn' hp c hc
    obtain ⟨n, hn, he, _⟩ := h.back hn'
    rw [he] at hp hc
    exact h.shut (hd.nested id n hn hp c hc)

theorem Upright.child (hd : d.Upright) (hn : d.nodes[id]? = some n) :
    c ∈ n.children ↔ d.parentOf c = some id := by
  rw [← childrenOf_of_nodes hn, hd.linked.mem_iff]

theorem Orderly.upright_halted (hd : d.Orderly) (hn : d.nodes[id]? = some n)
    (hkids : ∀ m ∈ (d.halted id).nodesAt n.children, m.phase = .closed) : (d.halted id).Upright := by
  have hshut : ∀ c, d.Shut c → (d.halted id).Shut c := by
    rintro c ⟨m, hm, hp⟩
    by_cases hc : c = id
    · subst hc
      exact ⟨_, nodes_halted_self hn, by simp⟩
    · exact ⟨m, (nodes_halted_ne hc).trans hm, hp⟩
  refine ⟨?_, parentOf_halted d id ▸ hd.before, ?_⟩
  · rw [parentOf_halted, childrenOf_halted]
    exact hd.coherent.linked
  · intro j m hm hp c hc
    by_cases hj : j = id
    · subst hj
      cases (nodes_halted_self hn).symm.trans hm
      obtain ⟨-, l, hl, hclosed⟩ := hd.closed_child hn hkids c hc
      exact hshut c ⟨l, hl, by simp [hclosed]⟩
    · exact hshut c (hd.sound.nested j m ((nodes_halted_ne hj).symm.trans hm) hp c hc)

end Draft

namespace Builder

open Draft

variable {σ : Type} {text : String} {f : Finalizer σ} {d d' : Draft} {m m' : σ} {b' : Builder σ}
  {op : Operation}

/-- What an operation that succeeds does to the draft and to the memory of the finalizer. -/
inductive Effect (text : String) (f : Finalizer σ) : Operation → Draft → σ → Draft → σ → Prop
  | create {d : Draft} {m : σ} {k : Kind} (node : k.isNode = true) :
    Effect text f (.create k) d m (d.create k).2 m
  | append {d d' : Draft} {m : σ} {p c : DraftId} (appended : d.append p c = .ok d') :
    Effect text f (.append p c) d m d' m
  | setImage {d d' : Draft} {m : σ} {id : DraftId} {image : String}
    (set : d.setImage id image = .ok d') : Effect text f (.setImage id image) d m d' m
  | pushImage {d d' : Draft} {m : σ} {id : DraftId} {more : String}
    (pushed : d.pushImage id more = .ok d') : Effect text f (.pushImage id more) d m d' m
  | extend {d d' : Draft} {m : σ} {id : DraftId} {span : Span} (inside : span.stop ≤ text.utf8ByteSize)
    (extended : d.extend id span = .ok d') : Effect text f (.extend id span) d m d' m
  | again {d : Draft} {m : σ} {id : DraftId} {n : DraftNode} (found : d.nodes[id]? = some n)
    (shut : n.phase ≠ .opened) : Effect text f (.close id) d m d m
  | close {d started d' : Draft} {m m' : σ} {id : DraftId} {n : DraftNode}
    (found : d.nodes[id]? = some n) (opened : n.phase = .opened)
    (starts : d.startClosing id n = .ok started)
    (run : (f id).run id started m = .ok ((), d', m')) :
    Effect text f (.close id) d m (d'.endClosing id) m'

theorem perform_iff : perform ⟨text, f, d, m⟩ op = .ok b' ↔
    ∃ d' m', Effect text f op d m d' m' ∧ b' = ⟨text, f, d', m'⟩ := by
  constructor
  · intro h
    cases op with
    | create k =>
      simp only [perform, Builder.create] at h
      split at h
      · next hk =>
        cases h
        exact ⟨_, _, .create hk, rfl⟩
      · cases h
    | append p c =>
      have h : onDraft ⟨text, f, d, m⟩ (·.append p c) = .ok b' := h
      obtain ⟨d', hd', rfl⟩ := onDraft_eq_ok_iff.mp h
      exact ⟨d', m, .append hd', rfl⟩
    | setImage id image =>
      have h : onDraft ⟨text, f, d, m⟩ (·.setImage id image) = .ok b' := h
      obtain ⟨d', hd', rfl⟩ := onDraft_eq_ok_iff.mp h
      exact ⟨d', m, .setImage hd', rfl⟩
    | pushImage id more =>
      have h : onDraft ⟨text, f, d, m⟩ (·.pushImage id more) = .ok b' := h
      obtain ⟨d', hd', rfl⟩ := onDraft_eq_ok_iff.mp h
      exact ⟨d', m, .pushImage hd', rfl⟩
    | extend id span =>
      simp only [perform, Builder.extend] at h
      split at h
      · next hs =>
        obtain ⟨d', hd', rfl⟩ := onDraft_eq_ok_iff.mp h
        exact ⟨d', m, .extend hs hd', rfl⟩
      · cases h
    | close id =>
      obtain ⟨n, hn, ⟨hshut, rfl⟩ | ⟨hopen, started, d', m', hstart, hrun, rfl⟩⟩ := close_eq_ok.mp h
      · exact ⟨d, m, .again hn hshut, rfl⟩
      · exact ⟨_, m', .close hn hopen hstart hrun, rfl⟩
  · rintro ⟨d', m', heffect, rfl⟩
    have hstep (step : Draft → Except Misuse Draft) (hd' : step d = .ok d') :
        onDraft ⟨text, f, d, m⟩ step = .ok ⟨text, f, d', m⟩ :=
      onDraft_eq_ok_iff.mpr ⟨d', hd', rfl⟩
    cases heffect with
    | create hk => simp [perform, Builder.create, hk, Draft.create, Except.map]
    | append hd' => exact hstep (·.append _ _) hd'
    | setImage hd' => exact hstep (·.setImage _ _) hd'
    | pushImage hd' => exact hstep (·.pushImage _ _) hd'
    | extend hs hd' =>
      simp only [perform, Builder.extend, if_pos hs]
      exact hstep (·.extend _ _) hd'
    | again hn hshut => exact close_eq_ok.mpr ⟨_, hn, .inl ⟨hshut, rfl⟩⟩
    | close hn hopen hstart hrun =>
      exact close_eq_ok.mpr ⟨_, hn, .inr ⟨hopen, _, _, _, hstart, hrun, rfl⟩⟩

/-- One operation with a finalizer that does nothing. What is appended is the newest node. -/
theorem Effect.orderly (h : Effect text .inert op d m d' m') (hd : d.Orderly)
    (hnew : ∀ p c, op = .append p c → c + 1 = d.nodes.size) : d'.Orderly := by
  cases h with
  | create => exact hd.create _
  | append happ => exact hd.append (hnew _ _ rfl) happ
  | setImage hset => exact hd.setImage hset
  | pushImage hpush => exact hd.pushImage hpush
  | extend _ hext => exact hd.extend hext
  | again => exact hd
  | close hn _ hstart hrun =>
    cases hrun
    exact hd.close hn hstart

end Builder

end JavaSyntax
