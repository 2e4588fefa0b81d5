import JavaSyntax.Proofs.Draft.Coherence

namespace JavaSyntax

namespace Draft

variable {d d' d'' : Draft} {id j : DraftId} {n : DraftNode}

def phaseOf (d : Draft) (id : DraftId) : Option Phase := d.nodes[id]?.map (·.phase)

theorem phaseOf_of_nodes (h : d.nodes[id]? = some n) : d.phaseOf id = some n.phase := by
  rw [phaseOf, h]
  rfl

theorem exists_of_phaseOf {p : Phase} (h : d.phaseOf id = some p) :
    ∃ n, d.nodes[id]? = some n ∧ n.phase = p :=
  Option.map_eq_some_iff.mp h

theorem lt_size_of_phaseOf {p : Phase} (h : d.phaseOf id = some p) : id < d.nodes.size := by
  obtain ⟨n, hn, _⟩ := exists_of_phaseOf h
  exact lt_size_of_nodes hn

theorem phaseOf_eq_none_iff : d.phaseOf id = none ↔ d.nodes.size ≤ id := by
  rw [phaseOf, Option.map_eq_none_iff, Array.getElem?_eq_none_iff]

theorem phaseOf_update (d : Draft) (id : DraftId) (f : DraftNode → DraftNode)
    (hf : ∀ n, (f n).phase = n.phase) : (d.update id f).phaseOf = d.phaseOf := by
  funext j
  rw [phaseOf, phaseOf, nodes_update]
  split
  · cases d.nodes[j]? with
    | none => rfl
    | some n => simp [hf]
  · rfl

theorem phaseOf_setPhase (h : id < d.nodes.size) (phase : Phase) :
    (d.update id fun n => { n with phase }).phaseOf =
      Function.update d.phaseOf id (some phase) := by
  funext j
  by_cases hj : j = id
  · subst hj
    rw [Function.update_self, phaseOf, nodes_update, if_pos rfl, Array.getElem?_eq_getElem h]
    rfl
  · rw [Function.update_of_ne hj, phaseOf, phaseOf, nodes_update_ne _ (Ne.symm hj)]

theorem phaseOf_create (d : Draft) (k : Kind) :
    (d.create k).2.phaseOf = Function.update d.phaseOf d.nodes.size (some .opened) := by
  funext j
  rw [phaseOf, nodes_create, Function.update_apply]
  split
  · rfl
  · rfl

theorem Respanned.phaseOf_eq (h : Respanned d d') : d'.phaseOf = d.phaseOf :=
  funext fun j => h.map_eq j fun _ _ => rfl

theorem phaseOf_attach {p c : DraftId} (h : d.attach p c = .ok d') : d'.phaseOf = d.phaseOf := by
  obtain ⟨_, _, _, rfl⟩ := attach_eq_ok h
  rw [phaseOf_update, phaseOf_update] <;> exact fun _ => rfl

theorem phaseOf_append {p c : DraftId} (h : d.append p c = .ok d') : d'.phaseOf = d.phaseOf := by
  obtain ⟨_, _, h⟩ := bind_eq_ok.mp h
  exact phaseOf_attach h

theorem phaseOf_setImage {image : String} (h : d.setImage id image = .ok d') :
    d'.phaseOf = d.phaseOf := by
  obtain ⟨_, _, h⟩ := bind_eq_ok.mp h
  cases h
  exact phaseOf_update d id _ fun _ => rfl

theorem phaseOf_pushImage {text : String} (h : d.pushImage id text = .ok d') :
    d'.phaseOf = d.phaseOf := by
  obtain ⟨_, _, h⟩ := bind_eq_ok.mp h
  cases h
  exact phaseOf_update d id _ fun _ => rfl

theorem respanned_extend {span : Span} (h : d.extend id span = .ok d') :
    Respanned { d with lastEnd := max d.lastEnd span.stop, pending := [] } d' := by
  obtain ⟨_, _, h⟩ := bind_eq_ok.mp h
  cases h
  exact (respanned_placePending { d with lastEnd := max d.lastEnd span.stop } span.start).trans
    (respanned_widen ..)

theorem phaseOf_extend {span : Span} (h : d.extend id span = .ok d') : d'.phaseOf = d.phaseOf :=
  (respanned_extend h).phaseOf_eq

theorem phaseOf_replaceChild {p i c old : DraftId} (h : d.replaceChild p i c = .ok (old, d')) :
    d'.phaseOf = d.phaseOf := by
  obtain ⟨_, _, rfl⟩ := replaceChild_eq_ok h
  rw [phaseOf_update, phaseOf_update, phaseOf_update] <;> exact fun _ => rfl

/-- What a node is when its finalizer is called. Its children are closed. -/
theorem startClosing_eq_ok (h : d.startClosing id n = .ok d') :
    ∃ e, Respanned (d.update id fun n => { n with phase := .finalizing }) e ∧ e.nodes = d'.nodes ∧
      ∀ c ∈ n.children, ∀ m, d'.nodes[c]? = some m → m.phase = .closed := by
  unfold startClosing at h
  dsimp only at h
  generalize hd₁ : d.update id (fun n => { n with phase := .finalizing }) = d₁ at h ⊢
  have hclosed : ∀ e, Respanned d₁ e →
      (n.children.filterMap fun c => d₁.nodes[c]?).find? (fun c => c.phase ≠ .closed) = none →
      ∀ c ∈ n.children, ∀ m, e.nodes[c]? = some m → m.phase = .closed := by
    intro e he hfind c hc m hm
    obtain ⟨m₁, hm₁, heq, _⟩ := he.back hm
    have := List.find?_eq_none.mp hfind m₁ (List.mem_filterMap.mpr ⟨c, hc, hm₁⟩)
    rw [heq]
    simpa using this
  split at h
  · cases h
  · next hfind =>
    split at h
    · cases h
      exact ⟨d₁, .refl d₁, rfl, hclosed d₁ (.refl d₁) hfind⟩
    · next span _ =>
      cases h
      have hspans := (respanned_update d₁ id fun _ => span).trans
        (respanned_fold (fun d c => respanned_place d span.stop c) n.children _)
      exact ⟨_, hspans, rfl, hclosed _ hspans hfind⟩

theorem phaseOf_startClosing (h : d.startClosing id n = .ok d') (hid : d.nodes[id]? = some n) :
    d'.phaseOf = Function.update d.phaseOf id (some .finalizing) := by
  obtain ⟨e, he, hnodes, _⟩ := startClosing_eq_ok h
  have hsame : d'.phaseOf = e.phaseOf := by
    funext j
    rw [phaseOf, phaseOf, hnodes]
  rw [hsame, he.phaseOf_eq, phaseOf_setPhase (lt_size_of_nodes hid)]

theorem phaseOf_endClosing (h : id < d.nodes.size) :
    (d.endClosing id).phaseOf = Function.update d.phaseOf id (some .closed) :=
  phaseOf_setPhase h .closed

/-- Nodes that were there stay in their phases, and new ones are closed. -/
def Finalized (d d' : Draft) : Prop :=
  ∀ j, d'.phaseOf j = d.phaseOf j ∨ d.phaseOf j = none ∧ d'.phaseOf j = some .closed

theorem Finalized.refl (d : Draft) : Finalized d d := fun _ => .inl rfl

theorem Finalized.trans (h : Finalized d d') (h' : Finalized d' d'') : Finalized d d'' := by
  intro j
  rcases h j with he | ⟨hnone, hclosed⟩
  · rcases h' j with he' | ⟨hnone', hclosed'⟩
    · exact .inl (he'.trans he)
    · exact .inr ⟨he ▸ hnone', hclosed'⟩
  · rcases h' j with he' | ⟨hnone', hclosed'⟩
    · exact .inr ⟨hnone, he'.trans hclosed⟩
    · exact .inr ⟨hnone, hclosed'⟩

theorem Finalized.of_eq (h : d'.phaseOf = d.phaseOf) : Finalized d d' := fun j => .inl (congrFun h j)

theorem phaseOf_attachAll {p : DraftId} {cs : List DraftId}
    (h : cs.foldlM (fun d c => d.attach p c) d = .ok d') : d'.phaseOf = d.phaseOf := by
  induction cs generalizing d with
  | nil =>
    cases h
    rfl
  | cons c cs ih =>
    rw [List.foldlM_cons] at h
    obtain ⟨d₁, hd₁, h⟩ := bind_eq_ok.mp h
    exact (ih h).trans (phaseOf_attach hd₁)

theorem finalized_synthesize {k : Kind} {image : Option String} {span : Span} {cs : List DraftId}
    (h : d.synthesize k image span cs = .ok (id, d')) : Finalized d d' := by
  unfold synthesize at h
  obtain ⟨d₂, hattach, h⟩ := bind_eq_ok.mp h
  cases h
  have hphase := (phaseOf_attachAll hattach).trans (phaseOf_create d k)
  intro j
  by_cases hj : j = d.nodes.size
  · subst hj
    refine .inr ⟨phaseOf_eq_none_iff.mpr (Nat.le_refl _), ?_⟩
    have hnew : d₂.phaseOf d.nodes.size = some .opened := by rw [hphase, Function.update_self]
    obtain ⟨n, hn, _⟩ := exists_of_phaseOf hnew
    refine phaseOf_of_nodes (n := { n with image, span := some span, phase := .closed }) ?_
    rw [nodes_update]
    simp [hn]
  · refine .inl ?_
    have hrest : d₂.phaseOf j = d.phaseOf j := by rw [hphase, Function.update_of_ne hj]
    rw [← hrest, phaseOf, phaseOf, nodes_update_ne _ (Ne.symm hj)]

end Draft

theorem Rewrite.Passes.finalized {σ α : Type} {self : DraftId} {r : Rewrite σ α} {d e : Draft} {s : σ}
    (h : Passes self r d s e) : Draft.Finalized d e := by
  induction h with
  | here => exact .refl _
  | «recall» _ ih => exact ih
  | remember _ ih => exact ih
  | inspect _ _ ih => exact ih
  | synthesize made _ ih => exact (Draft.finalized_synthesize made).trans ih
  | replaceChild replaced _ ih =>
    exact (Draft.Finalized.of_eq (Draft.phaseOf_replaceChild replaced)).trans ih

namespace Builder

open Draft

variable {σ : Type} {b b' : Builder σ} {id : DraftId}

theorem onDraft_eq_ok_iff {step : Draft → Except Misuse Draft} :
    b.onDraft step = .ok b' ↔ ∃ d, step b.draft = .ok d ∧ b' = { b with draft := d } := by
  unfold onDraft
  split
  · next h => simp [h]
  · next d h => simp [h, eq_comm]

/-- Closing a node does nothing, or it finalizes an open node. -/
theorem close_eq_ok : b.close id = .ok b' ↔ ∃ n, b.draft.nodes[id]? = some n ∧
    (n.phase ≠ .opened ∧ b' = b ∨ n.phase = .opened ∧ ∃ started d memory,
      b.draft.startClosing id n = .ok started ∧
      (b.finalizer id).run id started b.memory = .ok ((), d, memory) ∧
      b' = { b with draft := d.endClosing id, memory }) := by
  unfold close
  rw [bind_eq_ok]
  refine exists_congr fun n => and_congr node_eq_ok ?_
  by_cases hopen : n.phase = .opened
  · rw [if_neg (not_not.mpr hopen), bind_eq_ok]
    constructor
    · rintro ⟨b₁, hb₁, h⟩
      obtain ⟨started, hstart, rfl⟩ := onDraft_eq_ok_iff.mp hb₁
      obtain ⟨⟨⟨⟩, d, memory⟩, hrun, h⟩ := bind_eq_ok.mp h
      cases h
      exact .inr ⟨hopen, started, d, memory, hstart, hrun, rfl⟩
    · rintro (⟨hshut, _⟩ | ⟨_, started, d, memory, hstart, hrun, rfl⟩)
      · exact absurd hopen hshut
      · refine ⟨_, onDraft_eq_ok_iff.mpr ⟨started, hstart, rfl⟩, ?_⟩
        exact bind_eq_ok.mpr ⟨_, hrun, rfl⟩
  · rw [if_pos hopen]
    constructor
    · intro h
      cases h
      exact .inl ⟨hopen, rfl⟩
    · rintro (⟨_, rfl⟩ | ⟨hopen', _⟩)
      · rfl
      · exact absurd hopen' hopen

/-- What an operation does to the phase of a node `j`, if there is such a node. -/
inductive Turns (op : Operation) (j : DraftId) : Option Phase → Option Phase → Prop
  | stays {p : Option Phase} (idle : op = .close j → p ≠ some .opened) : Turns op j p p
  | opens {k : Kind} (created : op = .create k) : Turns op j none (some .opened)
  | made {id : DraftId} (closing : op = .close id) : Turns op j none (some .closed)
  | closes (closing : op = .close j) : Turns op j (some .opened) (some .closed)

theorem turns_of_eq {d d' : Draft} {op : Operation} (hop : ∀ id, op ≠ .close id)
    (h : d'.phaseOf = d.phaseOf) (j : DraftId) : Turns op j (d.phaseOf j) (d'.phaseOf j) := by
  rw [h]
  exact .stays fun he => absurd he (hop j)

theorem turns_create (d : Draft) (k : Kind) (j : DraftId) :
    Turns (.create k) j (d.phaseOf j) ((d.create k).2.phaseOf j) := by
  rw [phaseOf_create]
  by_cases hj : j = d.nodes.size
  · subst hj
    rw [Function.update_self, phaseOf_eq_none_iff.mpr (Nat.le_refl _)]
    exact .opens rfl
  · rw [Function.update_of_ne hj]
    exact .stays fun he => by cases he

/-- Whatever the finalizer, an operation that closes no node is a step of the draft alone. -/
theorem exists_step (text : String) {op : Operation} (hop : ∀ id, op ≠ .close id) :
    ∃ step : Draft → Except Misuse Draft,
      (∀ d d', step d = .ok d' → ∀ j, Turns op j (d.phaseOf j) (d'.phaseOf j)) ∧
      ∀ {σ : Type} (f : Finalizer σ) (d : Draft) (memory : σ),
        perform ⟨text, f, d, memory⟩ op = onDraft ⟨text, f, d, memory⟩ step := by
  cases op with
  | create k =>
    refine ⟨fun d => if k.isNode then .ok (d.create k).2 else .error (.tokenKind k),
      fun d d' h j => ?_, fun f d memory => ?_⟩
    · split at h
      · cases h
        exact turns_create d k j
      · cases h
    · simp only [perform, Builder.create, onDraft]
      split <;> rfl
  | append p c => exact ⟨_, fun d d' h => turns_of_eq hop (phaseOf_append h), fun _ _ _ => rfl⟩
  | setImage id image => exact ⟨_, fun d d' h => turns_of_eq hop (phaseOf_setImage h), fun _ _ _ => rfl⟩
  | pushImage id text => exact ⟨_, fun d d' h => turns_of_eq hop (phaseOf_pushImage h), fun _ _ _ => rfl⟩
  | extend id span =>
    refine ⟨fun d => if span.stop ≤ text.utf8ByteSize then d.extend id span
      else .error (.outsideText span), fun d d' h => ?_, fun f d memory => ?_⟩
    · split at h
      · exact turns_of_eq hop (phaseOf_extend h)
      · cases h
    · simp only [perform, Builder.extend, onDraft]
      split <;> rfl
  | close id => exact absurd rfl (hop id)

theorem close_turns (h : b.close id = .ok b') (j : DraftId) :
    Turns (.close id) j (b.draft.phaseOf j) (b'.draft.phaseOf j) := by
  obtain ⟨n, hn, ⟨hshut, rfl⟩ | ⟨hopen, started, d, memory, hstart, hrun, rfl⟩⟩ := close_eq_ok.mp h
  · refine .stays fun he hopen => hshut ?_
    cases he
    rw [phaseOf_of_nodes hn] at hopen
    exact Option.some.inj hopen
  · have hfinalized := (Rewrite.passes_of_run hrun).finalized
    have hstarted := phaseOf_startClosing hstart hn
    have hself : d.phaseOf id = some .finalizing := by
      rcases hfinalized id with he | ⟨hnone, _⟩
      · rw [he, hstarted, Function.update_self]
      · rw [hstarted, Function.update_self] at hnone
        cases hnone
    simp only [phaseOf_endClosing (lt_size_of_phaseOf hself)]
    by_cases hj : j = id
    · subst hj
      rw [Function.update_self, phaseOf_of_nodes hn, hopen]
      exact .closes rfl
    · have hother : started.phaseOf j = b.draft.phaseOf j := by
        rw [hstarted, Function.update_of_ne hj]
      rw [Function.update_of_ne hj, ← hother]
      rcases hfinalized j with he | ⟨hnone, hclosed⟩
      · rw [he]
        refine .stays fun he => ?_
        cases he
        exact absurd rfl hj
      · rw [hnone, hclosed]
        exact .made rfl

/-- All that an operation does to phases. -/
theorem perform_turns {op : Operation} (h : b.perform op = .ok b') (j : DraftId) :
    Turns op j (b.draft.phaseOf j) (b'.draft.phaseOf j) := by
  by_cases hop : ∃ id, op = .close id
  · obtain ⟨id, rfl⟩ := hop
    exact close_turns h j
  · obtain ⟨step, hturns, hperform⟩ := exists_step b.text fun id he => hop ⟨id, he⟩
    rw [hperform] at h
    obtain ⟨d, hd, rfl⟩ := onDraft_eq_ok_iff.mp h
    exact hturns _ d hd j

theorem performAll_append {b'' : Builder σ} {ops more : List Operation} :
    b.performAll (ops ++ more) = .ok b'' ↔
      ∃ b', b.performAll ops = .ok b' ∧ b'.performAll more = .ok b'' := by
  rw [performAll, List.foldlM_append]
  exact bind_eq_ok

theorem performAll_cons {b'' : Builder σ} {op : Operation} {ops : List Operation} :
    b.performAll (op :: ops) = .ok b'' ↔
      ∃ b', b.perform op = .ok b' ∧ b'.performAll ops = .ok b'' := by
  rw [performAll, List.foldlM_cons]
  exact bind_eq_ok

theorem performAll_single {op : Operation} :
    b.performAll [op] = .ok b' ↔ b.perform op = .ok b' := by
  rw [performAll_cons]
  constructor
  · rintro ⟨b₁, hb₁, h⟩
    cases h
    exact hb₁
  · exact fun h => ⟨b', h, rfl⟩

/-- A node that is no longer open stays as it is. -/
theorem performAll_ended {ops : List Operation} {p : Phase} (h : b.performAll ops = .ok b')
    (hid : b.draft.phaseOf id = some p) (hp : p ≠ .opened) : b'.draft.phaseOf id = some p := by
  refine performAll_keeps (P := (·.draft.phaseOf id = some p)) (fun b b₁ op hid hb₁ => ?_) hid h
  have hturns := perform_turns hb₁ id
  rw [hid] at hturns
  generalize b₁.draft.phaseOf id = q at hturns ⊢
  cases hturns with
  | stays => rfl
  | closes => exact absurd rfl hp

/-- No node is ever lost. -/
theorem performAll_ne_none {ops : List Operation} (h : b.performAll ops = .ok b')
    (hid : b.draft.phaseOf id ≠ none) : b'.draft.phaseOf id ≠ none := by
  refine performAll_keeps (P := (·.draft.phaseOf id ≠ none)) (fun b b₁ op hid hb₁ hnone => hid ?_) hid h
  have hturns := perform_turns hb₁ id
  rw [hnone] at hturns
  generalize b.draft.phaseOf id = q at hturns ⊢
  cases hturns with
  | stays => rfl

end Builder

end JavaSyntax
