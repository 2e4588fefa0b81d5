import JavaSyntax.Builder
import JavaSyntax.Proofs.Draft.Links

namespace JavaSyntax

namespace Draft

variable {d d' d'' : Draft} {o : Nat}

/-- Each node was there before. -/
theorem Respanned.back (h : Respanned d d') {j : DraftId} {n' : DraftNode}
    (hn' : d'.nodes[j]? = some n') : ∃ n, d.nodes[j]? = some n ∧ n' = { n with span := n'.span } ∧
      (n.span.isSome → n'.span.isSome) := by
  have hj : j < d.nodes.size := h.size ▸ lt_size_of_nodes hn'
  obtain ⟨span, hn, hspan⟩ := h.nodes j _ (Array.getElem?_eq_getElem hj)
  rw [hn'] at hn
  cases hn
  exact ⟨_, Array.getElem?_eq_getElem hj, rfl, hspan⟩

/-- What does not depend on a span stays. -/
theorem Respanned.map_eq {α : Type} (h : Respanned d d') (j : DraftId) {f : DraftNode → α}
    (hf : ∀ n span, f { n with span } = f n) : d'.nodes[j]?.map f = d.nodes[j]?.map f := by
  cases hj : d.nodes[j]? with
  | none =>
    have hnone : d'.nodes[j]? = none := by
      rw [Array.getElem?_eq_none_iff] at hj ⊢
      exact h.size.symm ▸ hj
    rw [hnone]
  | some n =>
    obtain ⟨span, hn, _⟩ := h.nodes j n hj
    rw [hn]
    exact congrArg some (hf n span)

theorem Respanned.childrenOf_eq (h : Respanned d d') : d'.childrenOf = d.childrenOf :=
  funext fun j => congrArg (Option.getD · []) (h.map_eq j fun _ _ => rfl)

theorem Respanned.parentOf_eq (h : Respanned d d') : d'.parentOf = d.parentOf := by
  funext j
  have hsame := congrArg (Option.bind · id) (h.map_eq j (f := (·.parent)) fun _ _ => rfl)
  rw [Option.bind_map, Option.bind_map] at hsame
  exact hsame

theorem respanned_widen (span : Span) (fuel : Nat) (id : DraftId) (d : Draft) :
    Respanned d (widen span fuel id d) := by
  induction fuel generalizing id d with
  | zero => exact .refl d
  | succ fuel ih =>
    rw [widen]
    split
    · exact .refl d
    · split
      · have h := respanned_update d id fun s => s.elim span (·.cover span)
        dsimp only
        split
        · exact h
        · exact h.trans (ih _ _)
      · exact .refl d

theorem respanned_placePending (d : Draft) (o : Nat) :
    Respanned { d with pending := [] } (d.placePending o) :=
  respanned_fold (fun d id => respanned_place d o id) _ _

/-- A node that has no span after more spans were given had none before. -/
theorem Respanned.unplaced (h : Respanned d d') {j : DraftId} {n' : DraftNode}
    (hn' : d'.nodes[j]? = some n') (hs : n'.span = none) :
    ∃ n, d.nodes[j]? = some n ∧ n.phase = n'.phase ∧ n.span = none := by
  obtain ⟨n, hn, he, hspan⟩ := h.back hn'
  refine ⟨n, hn, (congrArg DraftNode.phase he).symm, ?_⟩
  rw [hs] at hspan
  simpa using hspan

/-- Spans may be given at any time. -/
theorem Coherent.of_respanned (hd : d.Coherent) (h : Respanned d d') : d'.Coherent := by
  refine hd.of_same h.childrenOf_eq h.parentOf_eq ?_
  intro j n' hn' hp hs
  obtain ⟨n, hn, hphase, hspan⟩ := h.unplaced hn' hs
  rw [h.pending]
  exact hd.waiting j n hn (hphase ▸ hp) hspan

/-- Once the waiting nodes are placed, no finished node lacks a span. -/
theorem Coherent.placed (hd : d.Coherent) {id : DraftId} {n' : DraftNode}
    (hn' : (d.placePending o).nodes[id]? = some n') (hp : n'.phase ≠ .opened) :
    n'.span ≠ none := by
  intro hs
  obtain ⟨n, hn, hphase, hspan⟩ := (respanned_placePending d o).unplaced hn' hs
  have hwaiting : id ∈ d.pending := hd.waiting id n hn (hphase ▸ hp) hspan
  obtain ⟨m, hm, hplaced⟩ := placed_fold (d := { d with pending := [] }) (o := o) d.pending
    hwaiting (lt_size_of_nodes hn)
  cases hm.symm.trans hn'
  rw [hs] at hplaced
  cases hplaced

theorem Coherent.placePending (hd : d.Coherent) (o : Nat) : (d.placePending o).Coherent := by
  have h := respanned_placePending d o
  exact hd.of_same h.childrenOf_eq h.parentOf_eq fun id n hn hp hs =>
    absurd hs (hd.placed hn hp)

theorem Coherent.append (hd : d.Coherent) {p c : DraftId} (h : d.append p c = .ok d') :
    d'.Coherent := by
  obtain ⟨_, _, h⟩ := bind_eq_ok.mp h
  exact hd.attach h

theorem Coherent.setImage (hd : d.Coherent) {id : DraftId} {image : String}
    (h : d.setImage id image = .ok d') : d'.Coherent := by
  obtain ⟨_, _, h⟩ := bind_eq_ok.mp h
  cases h
  exact hd.update id _ (fun _ => rfl) (fun _ => rfl) fun _ _ hp hs => ⟨hp, hs⟩

theorem Coherent.pushImage (hd : d.Coherent) {id : DraftId} {text : String}
    (h : d.pushImage id text = .ok d') : d'.Coherent := by
  obtain ⟨_, _, h⟩ := bind_eq_ok.mp h
  cases h
  exact hd.update id _ (fun _ => rfl) (fun _ => rfl) fun _ _ hp hs => ⟨hp, hs⟩

theorem Coherent.extend (hd : d.Coherent) {id : DraftId} {span : Span}
    (h : d.extend id span = .ok d') : d'.Coherent := by
  obtain ⟨_, _, h⟩ := bind_eq_ok.mp h
  cases h
  have hbase : Draft.Coherent { d with lastEnd := max d.lastEnd span.stop } :=
    ⟨hd.linked, hd.waiting⟩
  exact (hbase.placePending span.start).of_respanned (respanned_widen ..)

/-- A node that begins to close covers something, or waits. -/
theorem Coherent.startClosing (hd : d.Coherent) {id : DraftId} {n : DraftNode}
    (h : d.startClosing id n = .ok d') (hid : d.nodes[id]? = some n) :
    d'.Coherent ∧ d'.Shut id := by
  unfold Draft.startClosing at h
  dsimp only at h
  -- the node is no longer open, and nothing says yet where it stands
  let d₁ := d.update id fun n => { n with phase := .finalizing }
  have hn₁ : d₁.nodes[id]? = some { n with phase := .finalizing } := by
    rw [nodes_update, if_pos rfl, hid]
    rfl
  have hlinks : d₁.childrenOf = d.childrenOf ∧ d₁.parentOf = d.parentOf :=
    ⟨childrenOf_update d id _ fun _ => rfl, parentOf_update d id _ fun _ => rfl⟩
  have hother : ∀ (j : DraftId) (m : DraftNode), j ≠ id → d₁.nodes[j]? = some m →
      m.phase ≠ .opened → m.span = none → j ∈ d.pending := fun j m hj hm hp hs =>
    hd.waiting j m ((nodes_update_ne _ (Ne.symm hj)).symm.trans hm) hp hs
  split at h
  · cases h
  · split at h
    · cases h
      refine ⟨hd.of_same hlinks.1 hlinks.2 ?_, ⟨_, hn₁, by simp⟩⟩
      intro j m hm hp hs
      by_cases hj : j = id
      · exact hj ▸ List.mem_append_right _ List.mem_cons_self
      · exact List.mem_append_left _ (hother j m hj hm hp hs)
    · next span _ =>
      cases h
      let d₂ := d₁.update id fun n => { n with span := some span }
      have hn₂ : d₂.nodes[id]? = some { n with phase := .finalizing, span := some span } := by
        rw [nodes_update, if_pos rfl, hn₁]
        rfl
      have hfold := respanned_fold (fun d c => respanned_place d span.stop c) n.children d₂
      have hall : Respanned d₁ _ := (respanned_update d₁ id fun _ => span).trans hfold
      obtain ⟨s, hs, hspan⟩ := hfold.nodes id _ hn₂
      refine ⟨hd.of_same (hall.childrenOf_eq.trans hlinks.1) (hall.parentOf_eq.trans hlinks.2) ?_,
        ⟨_, hs, by simp⟩⟩
      intro j m hm hp hms
      obtain ⟨m₁, hm₁, hphase, hspan₁⟩ := hall.unplaced hm hms
      rw [hall.pending]
      by_cases hj : j = id
      · subst hj
        cases hm.symm.trans hs
        dsimp only at hms
        rw [hms] at hspan
        cases hspan rfl
      · exact hother j m₁ hj hm₁ (hphase ▸ hp) hspan₁

theorem Coherent.endClosing (hd : d.Coherent) {id : DraftId} (h : d.Shut id) :
    (d.endClosing id).Coherent := by
  obtain ⟨n, hn, hp⟩ := h
  refine hd.update id _ (fun _ => rfl) (fun _ => rfl) fun m hm _ hs => ?_
  cases hn.symm.trans hm
  exact ⟨hp, hs⟩

end Draft

namespace Builder

variable {σ : Type} {b b' : Builder σ}

/-- What a client may do to a construction. -/
inductive Operation where
  | create (kind : Kind)
  | append (parent child : DraftId)
  | setImage (id : DraftId) (image : String)
  | pushImage (id : DraftId) (text : String)
  | extend (id : DraftId) (span : Span)
  | close (id : DraftId)

def perform (b : Builder σ) : Operation → Except (Failure σ) (Builder σ)
  | .create k => (b.create k).map Prod.snd
  | .append p c => b.append p c
  | .setImage id image => b.setImage id image
  | .pushImage id text => b.pushImage id text
  | .extend id span => b.extend id span
  | .close id => b.close id

def performAll (b : Builder σ) (ops : List Operation) : Except (Failure σ) (Builder σ) :=
  ops.foldlM perform b

/-- The drafts that a finalizer passes while node `id` is being closed. -/
def Closes (b : Builder σ) (id : DraftId) (d : Draft) : Prop :=
  ∃ n started, b.node id = .ok n ∧ n.phase = .opened ∧
    b.onDraft (·.startClosing id n) = .ok started ∧
    (b.finalizer id).Passes id started.draft started.memory d

theorem onDraft_eq_ok {step : Draft → Except Misuse Draft} (h : b.onDraft step = .ok b') :
    step b.draft = .ok b'.draft ∧ b'.finalizer = b.finalizer ∧ b'.text = b.text := by
  unfold onDraft at h
  split at h
  · cases h
  · next d hd =>
    cases h
    exact ⟨hd, rfl, rfl⟩

theorem node_eq_ok {id : DraftId} {n : DraftNode} :
    b.node id = .ok n ↔ b.draft.nodes[id]? = some n := by
  rw [node, ← Draft.node_eq_ok]
  cases b.draft.node id <;> simp [Except.mapError]

theorem Closes.coherent (hb : b.draft.Coherent) {id : DraftId} {d : Draft} (h : b.Closes id d) :
    d.Coherent ∧ d.Shut id := by
  obtain ⟨n, started, hn, _, hstart, hpasses⟩ := h
  obtain ⟨hstart, _⟩ := onDraft_eq_ok hstart
  obtain ⟨hcoherent, hshut⟩ := hb.startClosing hstart (node_eq_ok.mp hn)
  obtain ⟨hd, hrelinked⟩ := hpasses.coherent hcoherent
  exact ⟨hd, hrelinked.shut hshut⟩

theorem close_coherent (hb : b.draft.Coherent) {id : DraftId} (h : b.close id = .ok b') :
    b'.draft.Coherent := by
  unfold close at h
  obtain ⟨n, hn, h⟩ := Draft.bind_eq_ok.mp h
  split at h
  · cases h
    exact hb
  · next hopen =>
    obtain ⟨started, hstart, h⟩ := Draft.bind_eq_ok.mp h
    obtain ⟨⟨⟨⟩, d, m⟩, hrun, h⟩ := Draft.bind_eq_ok.mp h
    cases h
    have hfinalizer := (onDraft_eq_ok hstart).2.1
    rw [hfinalizer] at hrun
    have hcloses : b.Closes id d :=
      ⟨n, started, hn, not_not.mp hopen, hstart, Rewrite.passes_of_run hrun⟩
    obtain ⟨hd, hshut⟩ := hcloses.coherent hb
    exact hd.endClosing hshut

/-- No operation puts the links out of order. -/
theorem perform_coherent (hb : b.draft.Coherent) {op : Operation} (h : b.perform op = .ok b') :
    b'.draft.Coherent := by
  cases op with
  | create k =>
    simp only [perform, create] at h
    split at h
    · cases h
      exact hb.create k
    · cases h
  | append p c =>
    have h : b.onDraft (·.append p c) = .ok b' := h
    exact hb.append (onDraft_eq_ok h).1
  | setImage id image =>
    have h : b.onDraft (·.setImage id image) = .ok b' := h
    exact hb.setImage (onDraft_eq_ok h).1
  | pushImage id text =>
    have h : b.onDraft (·.pushImage id text) = .ok b' := h
    exact hb.pushImage (onDraft_eq_ok h).1
  | extend id span =>
    simp only [perform, Builder.extend] at h
    split at h
    · exact hb.extend (onDraft_eq_ok h).1
    · cases h
  | close id => exact close_coherent hb h

/-- What every operation keeps is kept by a whole run. -/
theorem performAll_keeps {P : Builder σ → Prop} {ops : List Operation}
    (hstep : ∀ (b b' : Builder σ) (op : Operation), P b → b.perform op = .ok b' → P b')
    (hb : P b) (h : b.performAll ops = .ok b') : P b' := by
  induction ops generalizing b with
  | nil =>
    cases h
    exact hb
  | cons op ops ih =>
    rw [performAll, List.foldlM_cons] at h
    obtain ⟨b₁, hb₁, h⟩ := Draft.bind_eq_ok.mp h
    exact ih (hstep b b₁ op hb hb₁) h

theorem performAll_coherent {ops : List Operation} (hb : b.draft.Coherent)
    (h : b.performAll ops = .ok b') : b'.draft.Coherent :=
  performAll_keeps (P := (·.draft.Coherent)) (fun _ _ _ hb hop => perform_coherent hb hop) hb h

end Builder

end JavaSyntax
