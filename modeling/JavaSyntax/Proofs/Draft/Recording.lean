import JavaSyntax.Proofs.Draft.Disambiguation
import JavaSyntax.Proofs.Draft.Phases

namespace JavaSyntax

/-- What a finalizer finds when it is called: the node that is being closed, and the children of it. -/
structure Call where
  id : DraftId
  node : DraftNode
  children : List DraftNode

namespace Rewrite

variable {σ τ α : Type} {self : DraftId} {d d' : Draft} {m : σ}

/-- Looks at several nodes. -/
def nodes : List DraftId → Rewrite σ (List DraftNode)
  | [] => pure []
  | id :: ids => do
    let n ← node id
    let ns ← nodes ids
    pure (n :: ns)

/-- A rewriting with a second memory, which it leaves alone. -/
def beside (τ : Type) : Rewrite σ α → Rewrite (σ × τ) α
  | .done a => .done a
  | .fail m => .fail m
  | .recall k => .recall fun s => (k s.1).beside τ
  | .remember s k => .recall fun m => .remember (s, m.2) (k.beside τ)
  | .inspect id k => .inspect id fun n => (k n).beside τ
  | .synthesize kind image span children k =>
    .synthesize kind image span children fun id => (k id).beside τ
  | .replaceChild i c k => .replaceChild i c fun old => (k old).beside τ

theorem run_nodes {ids : List DraftId} {ns : List DraftNode}
    (h : ids.map (d.nodes[·]?) = ns.map some) : (nodes ids).run self d m = .ok (ns, d, m) := by
  induction ids generalizing ns with
  | nil =>
    cases ns with
    | nil => rfl
    | cons n ns => cases h
  | cons id ids ih =>
    cases ns with
    | nil => cases h
    | cons n ns =>
      obtain ⟨hn, hns⟩ := List.cons.inj h
      rw [nodes, run_bind _ (run_node hn), run_bind _ (ih hns)]
      rfl

theorem run_beside {a : α} {s : σ} (x : τ) : ∀ (r : Rewrite σ α) {d : Draft} {m : σ},
    r.run self d m = .ok (a, d', s) → (r.beside τ).run self d (m, x) = .ok (a, d', (s, x))
  | .done _, _, _, h => by
    cases h
    rfl
  | .fail _, _, _, h => by cases h
  | .recall k, _, m, h => run_beside x (k m) h
  | .remember _ k, _, _, h => run_beside x k h
  | .inspect id k, d, m, h => by
    rw [run] at h
    rw [beside, run]
    cases hn : d.node id with
    | error e => simp [hn] at h
    | ok n => exact run_beside x (k n) (by simpa [hn] using h)
  | .synthesize kind image span children k, d, m, h => by
    rw [run] at h
    rw [beside, run]
    cases hn : d.synthesize kind image span children with
    | error e => simp [hn] at h
    | ok n => exact run_beside x (k n.1) (by simpa [hn] using h)
  | .replaceChild i c k, d, m, h => by
    rw [run] at h
    rw [beside, run]
    cases hn : d.replaceChild self i c with
    | error e => simp [hn] at h
    | ok n => exact run_beside x (k n.1) (by simpa [hn] using h)

end Rewrite

namespace Finalizer

variable {σ τ : Type}

/-- Notes each call with `add`, and does nothing else. -/
def noting (add : Call → σ → σ) : Finalizer σ := fun self => do
  let n ← Rewrite.node self
  let children ← Rewrite.nodes n.children
  Rewrite.note (add ⟨self, n, children⟩)

/-- Lists its calls. -/
def recorder : Finalizer (List Call) := noting fun call calls => calls ++ [call]

/-- The finalizer `f` with a list of its calls. -/
def recorded (f : Finalizer σ) : Finalizer (σ × List Call) := fun self => do
  noting (fun call m => (m.1, m.2 ++ [call])) self
  (f self).beside (List Call)

/-- `F` does to a draft what `f` does, with a memory that has one more call after each call. -/
structure Records (F : Finalizer τ) (f : Finalizer σ) (rest : τ → σ) (calls : τ → List Call) :
    Prop where
  run : ∀ {self : DraftId} {d d' : Draft} {n : DraftNode} {ns : List DraftNode} {m : τ} {s : σ},
    d.nodes[self]? = some n → n.children.map (d.nodes[·]?) = ns.map some →
    (f self).run self d (rest m) = .ok ((), d', s) →
    ∃ m', (F self).run self d m = .ok ((), d', m') ∧ rest m' = s ∧
      calls m' = calls m ++ [⟨self, n, ns⟩]

theorem run_noting (add : Call → σ → σ) {self : DraftId} {d : Draft} {n : DraftNode}
    {ns : List DraftNode} {m : σ} (hn : d.nodes[self]? = some n)
    (hns : n.children.map (d.nodes[·]?) = ns.map some) :
    (noting add self).run self d m = .ok ((), d, add ⟨self, n, ns⟩ m) := by
  rw [noting, Rewrite.run_bind _ (Rewrite.run_node hn), Rewrite.run_bind _ (Rewrite.run_nodes hns)]
  rfl

theorem recorder_records : recorder.Records inert (fun _ => ()) id := by
  constructor
  intro self d d' n ns m s hn hns h
  cases h
  exact ⟨_, run_noting _ hn hns, rfl, rfl⟩

theorem recorded_records (f : Finalizer σ) : f.recorded.Records f Prod.fst Prod.snd := by
  constructor
  intro self d d' n ns m s hn hns h
  refine ⟨(s, m.2 ++ [⟨self, n, ns⟩]), ?_, rfl, rfl⟩
  rw [recorded, Rewrite.run_bind _ (run_noting _ hn hns)]
  exact Rewrite.run_beside _ (f self) h

end Finalizer

theorem exists_map_some {α β : Type} {f : α → Option β} {as : List α}
    (h : ∀ a ∈ as, ∃ b, f a = some b) : ∃ bs : List β, as.map f = bs.map some := by
  induction as with
  | nil => exact ⟨[], rfl⟩
  | cons a as ih =>
    obtain ⟨b, hb⟩ := h a List.mem_cons_self
    obtain ⟨bs, hbs⟩ := ih fun a ha => h a (List.mem_cons_of_mem _ ha)
    exact ⟨b :: bs, by rw [List.map_cons, List.map_cons, hb, hbs]⟩

theorem Draft.Coherent.exists_children {d : Draft} (hd : d.Coherent) {id : DraftId} {n : DraftNode}
    (hn : d.nodes[id]? = some n) : ∃ ns : List DraftNode, n.children.map (d.nodes[·]?) = ns.map some := by
  refine exists_map_some fun c hc => ?_
  rw [← childrenOf_of_nodes hn, hd.linked.mem_iff] at hc
  obtain ⟨m, hm, _⟩ := Option.bind_eq_some_iff.mp hc
  exact ⟨m, hm⟩

namespace Builder

open Draft

variable {σ τ : Type} {b b' : Builder σ} {ops : List Operation} {id : DraftId} {calls : List Call}

/-- The call of a finalizer that closing the open node `id` leads to. It finds the children closed. -/
structure CalledFor (b : Builder σ) (id : DraftId) (call : Call) : Prop where
  named : call.id = id
  node : ∃ n span, b.draft.nodes[id]? = some n ∧ n.phase = .opened ∧
    call.node = { n with phase := .finalizing, span }
  children : call.children.length = call.node.children.length ∧
    ∀ c ∈ call.children, c.phase = .closed
  closed : ∀ c ∈ call.node.children, b.draft.phaseOf c = some .closed

theorem CalledFor.opened {call : Call} (h : b.CalledFor id call) : b.draft.phaseOf id = some .opened := by
  obtain ⟨n, _, hn, hopen, _⟩ := h.node
  rw [phaseOf_of_nodes hn, hopen]

/-- The calls of a finalizer while some operations are performed. -/
inductive Calls : Builder σ → List Operation → List Call → Prop
  | done (b : Builder σ) : Calls b [] []
  | called {b b' : Builder σ} {id : DraftId} {ops : List Operation} {call : Call} {calls : List Call}
    (now : b.CalledFor id call) (performed : b.perform (.close id) = .ok b')
    (later : Calls b' ops calls) : Calls b (.close id :: ops) (call :: calls)
  | silent {b b' : Builder σ} {op : Operation} {ops : List Operation} {calls : List Call}
    (idle : ∀ id, op = .close id → b.draft.phaseOf id ≠ some .opened)
    (performed : b.perform op = .ok b') (later : Calls b' ops calls) : Calls b (op :: ops) calls

theorem Calls.eq_nil (h : Calls b ops calls) (hops : ∀ op ∈ ops, ∀ id, op ≠ .close id) : calls = [] := by
  induction h with
  | done => rfl
  | called => exact absurd rfl (hops _ List.mem_cons_self _)
  | silent _ _ _ ih => exact ih fun op hop => hops op (List.mem_cons_of_mem _ hop)

section Recorded

variable {f : Finalizer σ} {F : Finalizer τ} {rest : τ → σ} {noted : τ → List Call} {text : String}
  {d : Draft} {m : τ}

/-- What the finalizer finds when an open node is closed. -/
theorem exists_called (hb : b.draft.Coherent) {n : DraftNode} {started : Draft}
    (hn : b.draft.nodes[id]? = some n) (hopen : n.phase = .opened)
    (hstart : b.draft.startClosing id n = .ok started) :
    ∃ (n' : DraftNode) (ns : List DraftNode), started.nodes[id]? = some n' ∧
      n'.children.map (started.nodes[·]?) = ns.map some ∧ b.CalledFor id ⟨id, n', ns⟩ := by
  obtain ⟨e, he, hnodes, hclosed⟩ := startClosing_eq_ok hstart
  have hself : (b.draft.update id fun n => { n with phase := .finalizing }).nodes[id]? =
      some { n with phase := .finalizing } := by
    rw [nodes_update, if_pos rfl, hn]
    rfl
  obtain ⟨span, hspan, _⟩ := he.nodes id _ hself
  rw [hnodes] at hspan
  obtain ⟨ns, hns⟩ := (hb.startClosing hstart hn).1.exists_children hspan
  refine ⟨_, ns, hspan, hns, rfl, ⟨n, span, hn, hopen, rfl⟩, ⟨?_, fun c hc => ?_⟩, fun c hc => ?_⟩
  · have hlength := congrArg List.length hns
    simpa using hlength.symm
  · obtain ⟨i, hi, hget⟩ := List.mem_map.mp (hns ▸ List.mem_map_of_mem (f := some) hc)
    exact hclosed i hi c hget
  · obtain ⟨m, _, hm⟩ := List.mem_map.mp (hns ▸ List.mem_map_of_mem (f := (started.nodes[·]?)) hc)
    have hphase : started.phaseOf c = some .closed := by
      rw [phaseOf_of_nodes hm.symm, hclosed c hc m hm.symm]
    rw [phaseOf_startClosing hstart hn, Function.update_apply] at hphase
    split at hphase
    · cases hphase
    · exact hphase

/-- One operation with both finalizers. -/
theorem perform_recorded (hF : F.Records f rest noted) (hd : d.Coherent) {op : Operation}
    (h : perform ⟨text, f, d, rest m⟩ op = .ok b') : ∃ d' m', b' = ⟨text, f, d', rest m'⟩ ∧
      perform ⟨text, F, d, m⟩ op = .ok ⟨text, F, d', m'⟩ ∧
      (noted m' = noted m ∧ (∀ id, op = .close id → d.phaseOf id ≠ some .opened) ∨
        ∃ id call, op = .close id ∧ CalledFor ⟨text, f, d, rest m⟩ id call ∧
          noted m' = noted m ++ [call]) := by
  by_cases hop : ∃ id, op = .close id
  · obtain ⟨id, rfl⟩ := hop
    obtain ⟨n, hn, ⟨hshut, rfl⟩ | ⟨hopen, started, d', s, hstart, hrun, rfl⟩⟩ := close_eq_ok.mp h
    · refine ⟨d, m, rfl, close_eq_ok.mpr ⟨n, hn, .inl ⟨hshut, rfl⟩⟩, .inl ⟨rfl, ?_⟩⟩
      rintro id he hopened
      cases he
      rw [phaseOf_of_nodes hn] at hopened
      exact hshut (Option.some.inj hopened)
    · obtain ⟨n', ns, hn', hns, hcalled⟩ :=
        exists_called (b := ⟨text, f, d, rest m⟩) hd hn hopen hstart
      obtain ⟨m', hrun', hrest, hnoted⟩ := hF.run hn' hns hrun
      refine ⟨d'.endClosing id, m', by rw [hrest], ?_, .inr ⟨id, _, rfl, hcalled, hnoted⟩⟩
      exact close_eq_ok.mpr ⟨n, hn, .inr ⟨hopen, started, d', m', hstart, hrun', rfl⟩⟩
  · have hop : ∀ id, op ≠ .close id := fun id he => hop ⟨id, he⟩
    obtain ⟨step, _, hperform⟩ := exists_step text hop
    rw [hperform] at h
    obtain ⟨d', hd', rfl⟩ := onDraft_eq_ok_iff.mp h
    refine ⟨d', m, rfl, ?_, .inl ⟨rfl, fun id he => absurd he (hop id)⟩⟩
    rw [hperform]
    exact onDraft_eq_ok_iff.mpr ⟨d', hd', rfl⟩

/-- Operations with both finalizers: the drafts are the same, and the calls are noted. -/
theorem performAll_recorded (hF : F.Records f rest noted) (hd : d.Coherent)
    (h : performAll ⟨text, f, d, rest m⟩ ops = .ok b') : ∃ d' m' calls,
      b' = ⟨text, f, d', rest m'⟩ ∧ performAll ⟨text, F, d, m⟩ ops = .ok ⟨text, F, d', m'⟩ ∧
      noted m' = noted m ++ calls ∧ Calls ⟨text, f, d, rest m⟩ ops calls := by
  induction ops generalizing d m with
  | nil =>
    cases h
    exact ⟨d, m, [], rfl, rfl, (List.append_nil _).symm, .done _⟩
  | cons op ops ih =>
    obtain ⟨b₁, hb₁, h⟩ := performAll_cons.mp h
    have hd₁ := perform_coherent hd hb₁
    obtain ⟨d₁, m₁, rfl, hb₁', hnoted⟩ := perform_recorded hF hd hb₁
    obtain ⟨d', m', calls, rfl, h', hnoted', hcalls⟩ := ih hd₁ h
    rcases hnoted with ⟨hsame, hidle⟩ | ⟨id, call, rfl, hcall, hone⟩
    · exact ⟨d', m', calls, rfl, performAll_cons.mpr ⟨_, hb₁', h'⟩, by rw [hnoted', hsame],
        .silent hidle hb₁ hcalls⟩
    · refine ⟨d', m', call :: calls, rfl, performAll_cons.mpr ⟨_, hb₁', h'⟩, ?_,
        .called hcall hb₁ hcalls⟩
      rw [hnoted', hone, List.append_assoc]
      rfl

end Recorded

/-- Performing `ops` from `b` on, node `id` is closed at `b₀`, where it is open. -/
def ClosesAt (b : Builder σ) (ops : List Operation) (id : DraftId) (b₀ : Builder σ) : Prop :=
  ∃ before after, ops = before ++ .close id :: after ∧ b.performAll before = .ok b₀ ∧
    b₀.draft.phaseOf id = some .opened

theorem ClosesAt.cons {b₁ b₀ : Builder σ} {op : Operation} (h : b₁.ClosesAt ops id b₀)
    (hop : b.perform op = .ok b₁) : b.ClosesAt (op :: ops) id b₀ := by
  obtain ⟨before, after, rfl, hbefore, hopen⟩ := h
  exact ⟨op :: before, after, rfl, performAll_cons.mpr ⟨b₁, hop, hbefore⟩, hopen⟩

/-- A node is closed by the first operation or by a later one. -/
theorem ClosesAt.uncons {b₁ b₀ : Builder σ} {op : Operation} (h : b.ClosesAt (op :: ops) id b₀)
    (hop : b.perform op = .ok b₁) :
    op = .close id ∧ b.draft.phaseOf id = some .opened ∨ b₁.ClosesAt ops id b₀ := by
  obtain ⟨_ | ⟨first, before⟩, after, heq, hbefore, hopen⟩ := h
  · cases heq
    cases hbefore
    exact .inl ⟨rfl, hopen⟩
  · cases heq
    obtain ⟨b₂, hb₂, hbefore⟩ := performAll_cons.mp hbefore
    cases hop.symm.trans hb₂
    exact .inr ⟨before, after, rfl, hbefore, hopen⟩

/-- Each call is for a node that is closed. -/
theorem Calls.found (h : Calls b ops calls) :
    ∀ call ∈ calls, ∃ b₀, b.ClosesAt ops call.id b₀ ∧ b₀.CalledFor call.id call := by
  induction h with
  | done => exact fun call hm => by cases hm
  | @called b b₁ target ops first calls now performed later ih =>
    refine List.forall_mem_cons.mpr ⟨⟨b, ?_, now.named ▸ now⟩, fun call hm => ?_⟩
    · rw [now.named]
      exact ⟨[], ops, rfl, rfl, now.opened⟩
    · obtain ⟨b₀, hb₀, hcall⟩ := ih call hm
      exact ⟨b₀, hb₀.cons performed, hcall⟩
  | silent _ performed _ ih =>
    intro call hm
    obtain ⟨b₀, hb₀, hcall⟩ := ih call hm
    exact ⟨b₀, hb₀.cons performed, hcall⟩

/-- Each node that is closed has its call. -/
theorem Calls.mem_of_closesAt {b₀ : Builder σ} (h : Calls b ops calls) (hb₀ : b.ClosesAt ops id b₀) :
    id ∈ calls.map Call.id := by
  induction h with
  | done b =>
    obtain ⟨before, after, heq, _⟩ := hb₀
    cases before <;> cases heq
  | called now performed later ih =>
    rw [List.map_cons, List.mem_cons, now.named]
    rcases hb₀.uncons performed with ⟨heq, _⟩ | hlater
    · cases heq
      exact .inl rfl
    · exact .inr (ih hlater)
  | silent idle performed later ih =>
    rcases hb₀.uncons performed with ⟨heq, hopen⟩ | hlater
    · exact absurd hopen (idle id heq)
    · exact ih hlater

theorem Calls.mem_iff (h : Calls b ops calls) :
    id ∈ calls.map Call.id ↔ ∃ b₀, b.ClosesAt ops id b₀ := by
  constructor
  · intro hm
    obtain ⟨call, hcall, rfl⟩ := List.mem_map.mp hm
    obtain ⟨b₀, hb₀, _⟩ := h.found call hcall
    exact ⟨b₀, hb₀⟩
  · rintro ⟨b₀, hb₀⟩
    exact h.mem_of_closesAt hb₀

/-- A node that is closed is closed for good. -/
theorem phaseOf_of_close (h : b.perform (.close id) = .ok b')
    (hopen : b.draft.phaseOf id = some .opened) : b'.draft.phaseOf id = some .closed := by
  have hturns := perform_turns h id
  rw [hopen] at hturns
  generalize b'.draft.phaseOf id = q at hturns
  cases hturns with
  | stays idle => exact absurd rfl (idle rfl)
  | closes => rfl

theorem ClosesAt.closed {b₀ : Builder σ} (h : b.ClosesAt ops id b₀) (hops : b.performAll ops = .ok b') :
    b'.draft.phaseOf id = some .closed := by
  obtain ⟨before, after, rfl, hbefore, hopen⟩ := h
  obtain ⟨b₁, hb₁, hops⟩ := performAll_append.mp hops
  cases hbefore.symm.trans hb₁
  obtain ⟨b₂, hb₂, hops⟩ := performAll_cons.mp hops
  exact performAll_ended hops (phaseOf_of_close hb₂ hopen) nofun

/-- What is no longer open is not closed any more. -/
theorem ClosesAt.not_ended {b₀ : Builder σ} {p : Phase} (h : b.ClosesAt ops id b₀)
    (hid : b.draft.phaseOf id = some p) : p = .opened := by
  obtain ⟨before, after, rfl, hbefore, hopen⟩ := h
  by_contra hp
  rw [performAll_ended hbefore hid hp] at hopen
  exact hp (Option.some.inj hopen)

theorem Calls.nodup (h : Calls b ops calls) : (calls.map Call.id).Nodup := by
  induction h with
  | done => exact List.nodup_nil
  | @called b b' target ops call calls now performed later ih =>
    rw [List.map_cons, List.nodup_cons, now.named]
    refine ⟨fun hm => ?_, ih⟩
    obtain ⟨b₀, hb₀⟩ := later.mem_iff.mp hm
    cases hb₀.not_ended (phaseOf_of_close performed now.opened)
  | silent _ _ _ ih => exact ih

/-- A node that a finalizer made while another was closed. -/
def MadeIn (b : Builder σ) (ops : List Operation) (id : DraftId) : Prop :=
  ∃ before target after b₁ b₂, ops = before ++ .close target :: after ∧
    b.performAll before = .ok b₁ ∧ b₁.perform (.close target) = .ok b₂ ∧
    b₁.draft.nodes.size ≤ id ∧ id < b₂.draft.nodes.size

/-- Such a node is never closed: it was not there before, and it is closed from the start. -/
theorem MadeIn.not_closesAt {b₀ : Builder σ} (h : b.MadeIn ops id) : ¬ b.ClosesAt ops id b₀ := by
  rintro ⟨before', after', heq', hbefore', hopen⟩
  obtain ⟨before, target, after, b₁, b₂, rfl, hbefore, hclose, hnew, hmade⟩ := h
  have hnone : b₁.draft.phaseOf id = none := phaseOf_eq_none_iff.mpr hnew
  rcases List.append_eq_append_iff.mp heq' with ⟨_ | ⟨op, between⟩, rfl, hsplit⟩ | ⟨between, rfl, _⟩
  · cases hsplit
    rw [List.append_nil] at hbefore'
    cases hbefore.symm.trans hbefore'
    rw [hnone] at hopen
    cases hopen
  · -- the other operation comes later, when the node is there and closed
    cases hsplit
    obtain ⟨b₃, hb₃, hrest⟩ := performAll_append.mp hbefore'
    cases hbefore.symm.trans hb₃
    obtain ⟨b₄, hb₄, hrest⟩ := performAll_cons.mp hrest
    cases hclose.symm.trans hb₄
    have hclosed : b₂.draft.phaseOf id = some .closed := by
      have hturns := perform_turns hclose id
      rw [hnone] at hturns
      generalize hq : b₂.draft.phaseOf id = q at hturns
      cases hturns with
      | stays => exact absurd hmade (Nat.not_lt.mpr (phaseOf_eq_none_iff.mp hq))
      | opens created => cases created
      | made => rfl
    rw [performAll_ended hrest hclosed nofun] at hopen
    cases hopen
  · -- the other operation comes earlier, when the node would be there already
    obtain ⟨b₃, hb₃, hrest⟩ := performAll_append.mp hbefore
    cases hbefore'.symm.trans hb₃
    refine performAll_ne_none hrest ?_ hnone
    rw [hopen]
    exact nofun

theorem MadeIn.cons {b₁ : Builder σ} {op : Operation} (h : b₁.MadeIn ops id)
    (hop : b.perform op = .ok b₁) : b.MadeIn (op :: ops) id := by
  obtain ⟨before, target, after, b₂, b₃, rfl, hbefore, hmade⟩ := h
  exact ⟨op :: before, target, after, b₂, b₃, rfl, performAll_cons.mpr ⟨b₁, hop, hbefore⟩, hmade⟩

/-- A node gets closed by being closed or by being made so. -/
theorem closed_of_perform {op : Operation} (h : b.perform op = .ok b')
    (hid : b'.draft.phaseOf id = some .closed) : b.draft.phaseOf id = some .closed ∨
      op = .close id ∧ b.draft.phaseOf id = some .opened ∨ b.MadeIn (op :: ops) id := by
  have hturns := perform_turns h id
  generalize hp : b.draft.phaseOf id = p at hturns
  generalize hq : b'.draft.phaseOf id = q at hturns
  cases hturns with
  | stays => exact .inl (hq ▸ hid)
  | opens => cases hq.symm.trans hid
  | @made target closing =>
    subst closing
    exact .inr (.inr ⟨[], target, ops, b, b', rfl, rfl, h, phaseOf_eq_none_iff.mp hp,
      lt_size_of_phaseOf hid⟩)
  | closes closing => exact .inr (.inl ⟨closing, rfl⟩)

/-- The children of a node come before it, but for those that were closed from the start. -/
theorem Calls.ordered (h : Calls b ops calls) {before after : List Call} {call : Call}
    (hcalls : calls = before ++ call :: after) {c : DraftId} (hc : c ∈ call.node.children) :
    b.draft.phaseOf c = some .closed ∨ c ∈ before.map Call.id ∨ b.MadeIn ops c := by
  induction h generalizing before with
  | done => cases before <;> cases hcalls
  | @called b b₁ target ops first calls now performed later ih =>
    cases before with
    | nil =>
      cases hcalls
      exact .inl (now.closed c hc)
    | cons first before =>
      cases hcalls
      rw [List.map_cons, List.mem_cons, now.named]
      rcases ih rfl with hclosed | hbefore | hmade
      · rcases closed_of_perform performed hclosed with hclosed | ⟨heq, _⟩ | hmade
        · exact .inl hclosed
        · cases heq
          exact .inr (.inl (.inl rfl))
        · exact .inr (.inr hmade)
      · exact .inr (.inl (.inr hbefore))
      · exact .inr (.inr (hmade.cons performed))
  | @silent b b₁ op ops calls idle performed later ih =>
    rcases ih hcalls with hclosed | hbefore | hmade
    · rcases closed_of_perform performed hclosed with hclosed | ⟨heq, hopen⟩ | hmade
      · exact .inl hclosed
      · exact absurd hopen (idle c heq)
      · exact .inr (.inr hmade)
    · exact .inr (.inl hbefore)
    · exact .inr (.inr (hmade.cons performed))

/-- The calls of a finalizer during the operations that lead from nothing to `b'`. The children of a node
were closed before it, or made by a finalizer. -/
structure CalledOnce (b : Builder σ) (ops : List Operation) (b' : Builder σ) (calls : List Call) :
    Prop where
  nodup : (calls.map Call.id).Nodup
  mem_iff : ∀ id, id ∈ calls.map Call.id ↔ ∃ b₀, b.ClosesAt ops id b₀
  not_opened : ∀ id, b'.draft.phaseOf id = some .opened → id ∉ calls.map Call.id
  not_made : ∀ id, b.MadeIn ops id → id ∉ calls.map Call.id
  found : ∀ call ∈ calls, ∃ b₀, b.ClosesAt ops call.id b₀ ∧ b₀.CalledFor call.id call
  ordered : ∀ before call after, calls = before ++ call :: after → ∀ c ∈ call.node.children,
    c ∈ before.map Call.id ∨ b.MadeIn ops c

theorem Calls.calledOnce (h : Calls b ops calls) (hb : b.draft = .empty)
    (hops : b.performAll ops = .ok b') : b.CalledOnce ops b' calls := by
  refine ⟨h.nodup, fun id => h.mem_iff, fun id hopen hm => ?_, fun id hmade hm => ?_, h.found,
    fun before call after hsplit c hc => ?_⟩
  · obtain ⟨b₀, hb₀⟩ := h.mem_iff.mp hm
    rw [hb₀.closed hops] at hopen
    cases hopen
  · obtain ⟨b₀, hb₀⟩ := h.mem_iff.mp hm
    exact hmade.not_closesAt hb₀
  · refine (h.ordered hsplit hc).resolve_left fun hclosed => ?_
    rw [hb] at hclosed
    cases hclosed

end Builder

end JavaSyntax
