import JavaSyntax.Proofs.Parse.Recorded

namespace JavaSyntax

/-- Finds the node that is closed, and changes nothing but the memory. -/
def Finalizer.Watches {σ : Type} (f : Finalizer σ) : Prop :=
  ∀ {self : DraftId} {d : Draft} {n : DraftNode} (m : σ), d.Coherent → d.nodes[self]? = some n →
    ∃ m', (f self).run self d m = .ok ((), d, m')

section Watching

variable {σ : Type} {f : Finalizer σ} {text : String} {d : Draft}

open Draft

namespace Builder

theorem perform_watched (hf : f.Watches) (hd : d.Coherent) {op : Operation} {b' : Builder Unit}
    (h : perform ⟨text, .inert, d, ()⟩ op = .ok b') (m : σ) : ∃ d' m',
      b' = ⟨text, .inert, d', ()⟩ ∧ perform ⟨text, f, d, m⟩ op = .ok ⟨text, f, d', m'⟩ := by
  by_cases hop : ∃ id, op = .close id
  · obtain ⟨id, rfl⟩ := hop
    obtain ⟨n, hn, ⟨hshut, rfl⟩ | ⟨hopen, started, d', s, hstart, hrun, rfl⟩⟩ := close_eq_ok.mp h
    · exact ⟨d, m, rfl, close_eq_ok.mpr ⟨n, hn, .inl ⟨hshut, rfl⟩⟩⟩
    · cases hrun
      obtain ⟨n', ns, hn', _⟩ := exists_called (b := ⟨text, Finalizer.inert, d, ()⟩) hd hn hopen hstart
      obtain ⟨m', hrun'⟩ := hf m (hd.startClosing hstart hn).1 hn'
      exact ⟨_, m', rfl, close_eq_ok.mpr ⟨n, hn, .inr ⟨hopen, started, started, m', hstart, hrun', rfl⟩⟩⟩
  · obtain ⟨step, _, hperform⟩ := exists_step text fun id he => hop ⟨id, he⟩
    rw [hperform] at h
    obtain ⟨d', hd', rfl⟩ := onDraft_eq_ok_iff.mp h
    refine ⟨d', m, rfl, ?_⟩
    rw [hperform]
    exact onDraft_eq_ok_iff.mpr ⟨d', hd', rfl⟩

theorem performAll_watched (hf : f.Watches) (hd : d.Coherent) {ops : List Operation}
    {b' : Builder Unit} (h : performAll ⟨text, .inert, d, ()⟩ ops = .ok b') (m : σ) : ∃ d' m',
      b' = ⟨text, .inert, d', ()⟩ ∧ performAll ⟨text, f, d, m⟩ ops = .ok ⟨text, f, d', m'⟩ := by
  induction ops generalizing d m with
  | nil =>
    cases h
    exact ⟨d, m, rfl, rfl⟩
  | cons op ops ih =>
    obtain ⟨b₁, hb₁, h⟩ := performAll_cons.mp h
    have hd₁ := perform_coherent hd hb₁
    obtain ⟨d₁, m₁, rfl, hb₁'⟩ := perform_watched hf hd hb₁ m
    obtain ⟨d', m', rfl, h'⟩ := ih hd₁ h m₁
    exact ⟨d', m', rfl, performAll_cons.mpr ⟨_, hb₁', h'⟩⟩

end Builder

theorem Replay.run_watched (hf : f.Watches) (hd : d.Coherent) {opened : List DraftId}
    {root : Option DraftId} {es : List Event} {r : Replay Unit}
    (h : es.foldlM step ⟨⟨text, .inert, d, ()⟩, opened, root⟩ = .ok r) (m : σ) : ∃ d' m',
      r.builder = ⟨text, .inert, d', ()⟩ ∧
      es.foldlM step ⟨⟨text, f, d, m⟩, opened, root⟩ = .ok ⟨⟨text, f, d', m'⟩, r.opened, r.root⟩ := by
  induction es generalizing d opened root m with
  | nil =>
    cases h
    exact ⟨d, m, rfl, rfl⟩
  | cons e es ih =>
    rw [List.foldlM_cons] at h
    obtain ⟨⟨b₁, opened₁, root₁⟩, hstep, h⟩ := bind_eq_ok.mp h
    obtain ⟨ops, hacts, hops⟩ := step_eq_ok.mp hstep
    have hd₁ := Builder.performAll_coherent hd hops
    obtain ⟨d₁, m₁, rfl, hwatched⟩ := Builder.performAll_watched hf hd hops m
    obtain ⟨d', m', hr, hrun⟩ := ih hd₁ h m₁
    refine ⟨d', m', hr, ?_⟩
    rw [List.foldlM_cons]
    exact bind_eq_ok.mpr ⟨_, step_eq_ok.mpr ⟨ops, hacts, hwatched⟩, hrun⟩

/-- A tree that is built without a finalizer is built with one that watches as well. -/
theorem buildTree_watched (hf : f.Watches) {es : List Event} {t : Tree}
    (h : buildTree text .inert () es = .ok (t, ())) (m : σ) :
    ∃ m', buildTree text f m es = .ok (t, m') := by
  obtain ⟨⟨b, opened, root⟩, hrun, h⟩ := bind_eq_ok.mp h
  obtain ⟨t', hfinish, h⟩ := bind_eq_ok.mp h
  cases h
  obtain ⟨d, m', hr, hwatched⟩ := Replay.run_watched hf coherent_empty hrun m
  cases hr
  cases root with
  | none => cases hfinish
  | some root =>
    obtain ⟨n, branch, hn, hparent, hbranch, heq⟩ := Builder.exists_of_finish hfinish
    refine ⟨m', bind_eq_ok.mpr ⟨_, hwatched, bind_eq_ok.mpr ⟨_, ?_, rfl⟩⟩⟩
    exact heq ▸ Builder.finish_eq text m' hn hparent hbranch

end Watching

end JavaSyntax
