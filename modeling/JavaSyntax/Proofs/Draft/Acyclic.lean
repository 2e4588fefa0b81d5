import JavaSyntax.Proofs.Draft.Ancestry

namespace JavaSyntax

namespace Draft

variable {d d' : Draft} {id : DraftId}

theorem parentOf_setImage {image : String} (h : d.setImage id image = .ok d') :
    d'.parentOf = d.parentOf := by
  obtain ⟨_, _, h⟩ := bind_eq_ok.mp h
  cases h
  exact parentOf_update d id _ fun _ => rfl

theorem parentOf_pushImage {text : String} (h : d.pushImage id text = .ok d') :
    d'.parentOf = d.parentOf := by
  obtain ⟨_, _, h⟩ := bind_eq_ok.mp h
  cases h
  exact parentOf_update d id _ fun _ => rfl

theorem parentOf_extend {span : Span} (h : d.extend id span = .ok d') :
    d'.parentOf = d.parentOf := by
  obtain ⟨_, _, h⟩ := bind_eq_ok.mp h
  cases h
  exact (respanned_widen ..).parentOf_eq.trans (respanned_placePending _ span.start).parentOf_eq

theorem parentOf_startClosing {n : DraftNode} (h : d.startClosing id n = .ok d') :
    d'.parentOf = d.parentOf := by
  have hphase : (d.update id fun n => { n with phase := .finalizing }).parentOf = d.parentOf :=
    parentOf_update d id _ fun _ => rfl
  unfold startClosing at h
  dsimp only at h
  split at h
  · cases h
  · split at h
    · cases h
      exact hphase
    · next span _ =>
      cases h
      have hplace := respanned_fold (fun d c => respanned_place d span.stop c) n.children
      exact ((respanned_update _ id fun _ => span).trans (hplace _)).parentOf_eq.trans hphase

theorem parentOf_endClosing (d : Draft) (id : DraftId) : (d.endClosing id).parentOf = d.parentOf :=
  parentOf_update d id _ fun _ => rfl

end Draft

namespace Rewrite

variable {σ α : Type}

/-- The rewriting of `self` replaces none of its children by `self` or a node above. -/
def Grounded (self : DraftId) : Rewrite σ α → Draft → σ → Prop
  | .done _, _, _ => True
  | .fail _, _, _ => True
  | .recall k, d, s => (k s).Grounded self d s
  | .remember s k, d, _ => k.Grounded self d s
  | .inspect id k, d, s => ∀ n, d.node id = .ok n → (k n).Grounded self d s
  | .synthesize kind image span children k, d, s =>
    ∀ id d', d.synthesize kind image span children = .ok (id, d') → (k id).Grounded self d' s
  | .replaceChild i c k, d, s =>
    ∀ old d', d.replaceChild self i c = .ok (old, d') →
      ¬ AtOrAbove d.parentOf c self ∧ (k old).Grounded self d' s

theorem grounded_iff {self : DraftId} {r : Rewrite σ α} {d : Draft} {s : σ} (hd : d.Coherent)
    (ha : Acyclic d.parentOf) :
    r.Grounded self d s ↔ ∀ e, Passes self r d s e → Acyclic e.parentOf := by
  induction r generalizing d s with
  | done a =>
    refine ⟨fun _ e he => ?_, fun _ => trivial⟩
    cases he
    exact ha
  | fail m =>
    refine ⟨fun _ e he => ?_, fun _ => trivial⟩
    cases he
    exact ha
  | «recall» k ih =>
    rw [Grounded, ih s hd ha]
    refine ⟨fun h e he => ?_, fun h e he => h e (.recall he)⟩
    cases he with
    | here => exact ha
    | «recall» rest => exact h e rest
  | remember m k ih =>
    rw [Grounded, ih hd ha]
    refine ⟨fun h e he => ?_, fun h e he => h e (.remember he)⟩
    cases he with
    | here => exact ha
    | remember rest => exact h e rest
  | inspect id k ih =>
    refine ⟨fun h e he => ?_, fun h n hn => (ih n hd ha).mpr fun e he => h e (.inspect hn he)⟩
    cases he with
    | here => exact ha
    | inspect found rest => exact (ih _ hd ha).mp (h _ found) e rest
  | synthesize kind image span children k ih =>
    have hstep : ∀ id d', d.synthesize kind image span children = .ok (id, d') →
        d'.Coherent ∧ Acyclic d'.parentOf := fun id d' hd' =>
      ⟨(hd.synthesize hd').1, Draft.acyclic_synthesize ha hd'⟩
    constructor
    · intro h e he
      cases he with
      | here => exact ha
      | synthesize made rest =>
        obtain ⟨hd', ha'⟩ := hstep _ _ made
        exact (ih _ hd' ha').mp (h _ _ made) e rest
    · intro h id d' made
      obtain ⟨hd', ha'⟩ := hstep id d' made
      exact (ih id hd' ha').mpr fun e he => h e (.synthesize made he)
  | replaceChild i c k ih =>
    constructor
    · intro h e he
      cases he with
      | here => exact ha
      | replaceChild replaced rest =>
        obtain ⟨hapart, hrest⟩ := h _ _ replaced
        have ha' := (Draft.acyclic_replaceChild hd ha replaced).mpr hapart
        exact (ih _ (hd.replaceChild replaced) ha').mp hrest e rest
    · intro h old d' replaced
      have ha' := h d' (.replaceChild replaced .here)
      refine ⟨(Draft.acyclic_replaceChild hd ha replaced).mp ha', ?_⟩
      exact (ih old (hd.replaceChild replaced) ha').mpr fun e he => h e (.replaceChild replaced he)

end Rewrite

namespace Builder

open Draft

variable {σ : Type} {b b' : Builder σ} {ops : List Operation}

/-- The operation puts no node below itself, unless it fails. -/
def Admits (b : Builder σ) : Operation → Prop
  | .append p c => ∀ b', b.append p c = .ok b' → ¬ AtOrAbove b.draft.parentOf c p
  | .close id => ∀ n started, b.node id = .ok n → n.phase = .opened →
    b.onDraft (·.startClosing id n) = .ok started →
    (b.finalizer id).Grounded id started.draft started.memory
  | _ => True

/-- No operation of the construction puts a node below itself. -/
def Grounded (b : Builder σ) : List Operation → Prop
  | [] => True
  | op :: ops => b.Admits op ∧ ∀ b', b.perform op = .ok b' → b'.Grounded ops

/-- The drafts of a construction: between its operations, and while a finalizer runs. -/
inductive Visits : Builder σ → List Operation → Draft → Prop
  | start {b : Builder σ} {ops : List Operation} : Visits b ops b.draft
  | closing {b : Builder σ} {id : DraftId} {ops : List Operation} {d : Draft}
    (closes : b.Closes id d) : Visits b (.close id :: ops) d
  | later {b b' : Builder σ} {op : Operation} {ops : List Operation} {d : Draft}
    (performed : b.perform op = .ok b') (rest : Visits b' ops d) : Visits b (op :: ops) d

/-- The draft at the end is one of them. -/
theorem Visits.coherent {d : Draft} (h : b.Visits ops d) (hb : b.draft.Coherent) : d.Coherent := by
  induction h with
  | start => exact hb
  | closing closes => exact (closes.coherent hb).1
  | later performed _ ih => exact ih (perform_coherent hb performed)

/-- A closed node has the parent it had when its finalizer ended. -/
theorem close_passes {id : DraftId} (h : b.close id = .ok b') :
    b'.draft = b.draft ∨ ∃ d, b.Closes id d ∧ b'.draft = d.endClosing id := by
  unfold close at h
  obtain ⟨n, hn, h⟩ := bind_eq_ok.mp h
  split at h
  · cases h
    exact .inl rfl
  · next hopen =>
    obtain ⟨started, hstart, h⟩ := bind_eq_ok.mp h
    obtain ⟨⟨⟨⟩, d, m⟩, hrun, h⟩ := bind_eq_ok.mp h
    cases h
    rw [(onDraft_eq_ok hstart).2.1] at hrun
    exact .inr ⟨d, ⟨n, started, hn, not_not.mp hopen, hstart, Rewrite.passes_of_run hrun⟩, rfl⟩

theorem admits_close_iff (hb : b.draft.Coherent) (ha : Acyclic b.draft.parentOf) {id : DraftId} :
    b.Admits (.close id) ↔ ∀ d, b.Closes id d → Acyclic d.parentOf := by
  have hstep : ∀ n started, b.node id = .ok n → b.onDraft (·.startClosing id n) = .ok started →
      started.draft.Coherent ∧ Acyclic started.draft.parentOf := by
    intro n started hn hstart
    obtain ⟨hstart, _⟩ := onDraft_eq_ok hstart
    exact ⟨(hb.startClosing hstart (node_eq_ok.mp hn)).1, parentOf_startClosing hstart ▸ ha⟩
  constructor
  · rintro h d ⟨n, started, hn, hopen, hstart, hpasses⟩
    obtain ⟨hd, ha'⟩ := hstep n started hn hstart
    exact (Rewrite.grounded_iff hd ha').mp (h n started hn hopen hstart) d hpasses
  · intro h n started hn hopen hstart
    obtain ⟨hd, ha'⟩ := hstep n started hn hstart
    exact (Rewrite.grounded_iff hd ha').mpr fun d hpasses =>
      h d ⟨n, started, hn, hopen, hstart, hpasses⟩

/-- An operation that leaves the links alone. -/
theorem admits_iff_of_links (ha : Acyclic b.draft.parentOf) {op : Operation} (hop : b.Admits op)
    (hclose : ∀ id, op ≠ .close id)
    (hlinks : ∀ b', b.perform op = .ok b' → b'.draft.parentOf = b.draft.parentOf) :
    b.Admits op ↔ (∀ id d, op = .close id → b.Closes id d → Acyclic d.parentOf) ∧
      ∀ b', b.perform op = .ok b' → Acyclic b'.draft.parentOf := by
  refine ⟨fun _ => ⟨fun id d he => absurd he (hclose id), fun b' hb' => ?_⟩, fun _ => hop⟩
  rw [hlinks b' hb']
  exact ha

/-- One operation: no cycle comes up in it exactly when it puts no node below itself. -/
theorem admits_iff (hb : b.draft.Coherent) (ha : Acyclic b.draft.parentOf) (op : Operation) :
    b.Admits op ↔ (∀ id d, op = .close id → b.Closes id d → Acyclic d.parentOf) ∧
      ∀ b', b.perform op = .ok b' → Acyclic b'.draft.parentOf := by
  cases op with
  | create k =>
    refine admits_iff_of_links ha trivial (by simp) fun b' h => ?_
    simp only [perform, create] at h
    split at h
    · cases h
      exact parentOf_create b.draft k
    · cases h
  | append p c =>
    have hstep : ∀ b', b.append p c = .ok b' →
        (Acyclic b'.draft.parentOf ↔ ¬ AtOrAbove b.draft.parentOf c p) := by
      intro b' h
      obtain ⟨_, _, h⟩ := bind_eq_ok.mp (onDraft_eq_ok h).1
      exact acyclic_attach ha h
    constructor
    · intro h
      refine ⟨fun id d he => ?_, fun b' hb' => (hstep b' hb').mpr (h b' hb')⟩
      cases he
    · exact fun h b' hb' => (hstep b' hb').mp (h.2 b' hb')
  | setImage id image =>
    refine admits_iff_of_links ha trivial (by simp) fun b' h => ?_
    have h : b.onDraft (·.setImage id image) = .ok b' := h
    exact parentOf_setImage (onDraft_eq_ok h).1
  | pushImage id text =>
    refine admits_iff_of_links ha trivial (by simp) fun b' h => ?_
    have h : b.onDraft (·.pushImage id text) = .ok b' := h
    exact parentOf_pushImage (onDraft_eq_ok h).1
  | extend id span =>
    refine admits_iff_of_links ha trivial (by simp) fun b' h => ?_
    simp only [perform, Builder.extend] at h
    split at h
    · exact parentOf_extend (onDraft_eq_ok h).1
    · cases h
  | close id =>
    rw [admits_close_iff hb ha]
    constructor
    · intro h
      refine ⟨fun id' d he hd => ?_, fun b' hb' => ?_⟩
      · cases he
        exact h d hd
      · rcases close_passes hb' with he | ⟨d, hd, he⟩
        · rwa [he]
        · rw [he, parentOf_endClosing]
          exact h d hd
    · exact fun h d hd => h.1 id d rfl hd

/-- A whole construction, from any draft without cycles. -/
theorem grounded_iff (hb : b.draft.Coherent) (ha : Acyclic b.draft.parentOf) :
    b.Grounded ops ↔ ∀ d, b.Visits ops d → Acyclic d.parentOf := by
  induction ops generalizing b with
  | nil =>
    refine ⟨fun _ d hd => ?_, fun _ => trivial⟩
    cases hd
    exact ha
  | cons op ops ih =>
    rw [Grounded, admits_iff hb ha]
    constructor
    · rintro ⟨⟨hcloses, hstep⟩, hrest⟩ d hd
      cases hd with
      | start => exact ha
      | closing closes => exact hcloses _ d rfl closes
      | later performed rest =>
        exact (ih (perform_coherent hb performed) (hstep _ performed)).mp (hrest _ performed) d rest
    · intro h
      have hstep : ∀ b', b.perform op = .ok b' → Acyclic b'.draft.parentOf := fun b' hb' =>
        h _ (.later hb' .start)
      refine ⟨⟨fun id d he hd => ?_, hstep⟩, fun b' hb' => ?_⟩
      · subst he
        exact h d (.closing hd)
      · exact (ih (perform_coherent hb hb') (hstep b' hb')).mpr fun d hd => h d (.later hb' hd)

/-- Whatever is done to a construction, in any order and with any finalizer: no node is ever its own
ancestor if and only if no attachment and no replacement puts a node below itself. Then the way up
from each node ends, and a token is recorded in the open nodes on it, in each once. -/
theorem grounded_iff_acyclic (text : String) (f : Finalizer σ) (memory : σ) (ops : List Operation) :
    (start text f memory).Grounded ops ↔ ∀ d, (start text f memory).Visits ops d →
      Acyclic d.parentOf ∧ ∀ id < d.nodes.size, ∃ ids, d.Climb id ids ∧ ids.Nodup ∧
        ∀ span, d.extend id span = .ok (ids.foldl (cover span)
          ({ d with lastEnd := max d.lastEnd span.stop }.placePending span.start)) := by
  have hstart : (start text f memory).draft.Coherent := coherent_empty
  rw [grounded_iff hstart acyclic_empty]
  constructor
  · intro h d hd
    refine ⟨h d hd, fun id hid => ?_⟩
    obtain ⟨ids, hids⟩ := (hd.coherent hstart).climb (h d hd) hid
    exact ⟨ids, hids, hids.nodup, hids.extend_eq hid⟩
  · exact fun h d hd => (h d hd).1

/-- Two open nodes may be put below each other, and neither way up ends. -/
theorem cycle_of_open_nodes : ∃ b : Builder Unit,
    (start "" Finalizer.inert ()).performAll
        [.create .block, .create .block, .append 0 1, .append 1 0] = .ok b ∧
      Ancestor b.draft.parentOf 0 0 ∧ ¬ ∃ ids, b.draft.Climb 0 ids := by
  refine ⟨_, rfl, .tail (.single rfl) rfl, not_climb_of_cycle ?_⟩
  exact .tail (.single ⟨_, rfl, rfl, rfl⟩) ⟨_, rfl, rfl, rfl⟩

end Builder

end JavaSyntax
