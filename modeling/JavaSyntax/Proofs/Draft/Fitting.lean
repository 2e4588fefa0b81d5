import JavaSyntax.Proofs.Draft.Orderly

namespace JavaSyntax

namespace Span

/-- The span is a part of another. -/
def Inside (s t : Span) : Prop := t.start ≤ s.start ∧ s.stop ≤ t.stop

theorem Inside.refl (s : Span) : s.Inside s := ⟨Nat.le_refl _, Nat.le_refl _⟩

theorem inside_cover (s t : Span) : s.Inside (s.cover t) ∧ t.Inside (s.cover t) :=
  ⟨⟨Nat.min_le_left .., Nat.le_max_left ..⟩, Nat.min_le_right .., Nat.le_max_right ..⟩

theorem Inside.trans {s t u : Span} (h : s.Inside t) (h' : t.Inside u) : s.Inside u :=
  ⟨Nat.le_trans h'.1 h.1, Nat.le_trans h.2 h'.2⟩

theorem Inside.cover {s t u : Span} (hs : s.Inside u) (ht : t.Inside u) : (s.cover t).Inside u :=
  ⟨Nat.le_min.mpr ⟨hs.1, ht.1⟩, Nat.max_le.mpr ⟨hs.2, ht.2⟩⟩

/-- What covers a span covers its parts, whatever it covered before. -/
theorem inside_elim_cover (s : Span) (o : Option Span) :
    s.Inside (o.elim s (·.cover s)) ∧ ∀ t, o = some t → t.Inside (o.elim s (·.cover s)) := by
  cases o with
  | none => exact ⟨.refl s, fun t ht => by cases ht⟩
  | some u =>
    obtain ⟨hu, hs⟩ := inside_cover u s
    exact ⟨hs, fun t ht => Option.some.inj ht ▸ hu⟩

end Span

namespace Draft

variable {d d' : Draft} {id j c x : DraftId} {o fuel : Nat}

def spanOf (d : Draft) (id : DraftId) : Option Span := d.nodes[id]?.bind (·.span)

theorem spanOf_of_nodes {n : DraftNode} (h : d.nodes[id]? = some n) : d.spanOf id = n.span := by
  rw [spanOf, h]
  rfl

theorem spanOf_update (d : Draft) (id : DraftId) (f : DraftNode → DraftNode)
    (hf : ∀ n, (f n).span = n.span) : (d.update id f).spanOf = d.spanOf := by
  funext j
  rw [spanOf, spanOf, nodes_update]
  split
  · cases d.nodes[j]? with
    | none => rfl
    | some n => exact hf n
  · rfl

theorem spanOf_halted (d : Draft) (id : DraftId) : (d.halted id).spanOf = d.spanOf :=
  spanOf_update d id _ fun _ => rfl

theorem spanOf_endClosing (d : Draft) (id : DraftId) : (d.endClosing id).spanOf = d.spanOf :=
  spanOf_update d id _ fun _ => rfl

/-- What the node covers is covered by its parent too, and if a parent that is not open covers something, so
does the node. -/
def Fits (d : Draft) (c : DraftId) : Prop :=
  ∀ p, d.parentOf c = some p →
    (∀ s, d.spanOf c = some s → ∃ t, d.spanOf p = some t ∧ s.Inside t) ∧
    (d.phaseOf p ≠ some .opened → (d.spanOf p).isSome → (d.spanOf c).isSome)

/-- If whatever has no span sits at one place, a node that fits is inside its parent. -/
theorem Fits.inside (h : d.Fits c) {p : DraftId} (hp : d.parentOf c = some p)
    (hshut : d.phaseOf p ≠ some .opened) (o : Nat) :
    ((d.spanOf c).getD (.empty o)).Inside ((d.spanOf p).getD (.empty o)) := by
  obtain ⟨hinside, hplaced⟩ := h p hp
  cases hs : d.spanOf c with
  | some s =>
    obtain ⟨t, ht, hst⟩ := hinside s hs
    rw [ht]
    exact hst
  | none =>
    cases ht : d.spanOf p with
    | none => exact .refl _
    | some t =>
      have hsome := hplaced hshut (by rw [ht]; rfl)
      rw [hs] at hsome
      cases hsome

/-- A span that is there is not changed by placing nodes. -/
theorem Filled.spanOf (h : Filled o d d') {s : Span} (hs : d.spanOf j = some s) : d'.spanOf j = some s := by
  rcases h.nodes j with he | ⟨n, hn, _, hnone, _⟩
  · rw [Draft.spanOf, he]
    exact hs
  · rw [spanOf_of_nodes hn, hnone] at hs
    cases hs

/-- A node that was placed has an empty span. -/
theorem Filled.spanOf_of_placed (h : Filled o d d') (hnone : d.spanOf j = none) (hp : d'.Placed j) :
    d'.spanOf j = some (.empty o) := by
  obtain ⟨n', hn', hsome⟩ := hp
  rcases h.nodes j with he | ⟨n, _, _, _, hn⟩
  · rw [he] at hn'
    rw [spanOf_of_nodes hn'] at hnone
    rw [hnone] at hsome
    cases hsome
  · rw [spanOf_of_nodes hn]

theorem Respanned.isSome_spanOf (h : Respanned d d') (hj : (d.spanOf j).isSome) : (d'.spanOf j).isSome := by
  cases hn : d.nodes[j]? with
  | none => simp [spanOf, hn] at hj
  | some n =>
    obtain ⟨span, hn', hsome⟩ := h.nodes j n hn
    rw [spanOf_of_nodes hn] at hj
    rw [spanOf_of_nodes hn']
    exact hsome hj

/-- All nodes fit but those that are `out`. Where the parent of one of these is not open, it has a span. -/
structure FitsBut (d : Draft) (out : DraftId → Prop) : Prop where
  upright : d.Upright
  parents : ∀ c p, out c → d.parentOf c = some p → d.phaseOf p = some .opened ∨ (d.spanOf p).isSome
  fits : ∀ c, ¬ out c → d.Fits c

namespace FitsBut

variable {out : DraftId → Prop} {k : DraftId} {n : DraftNode}

theorem respanned (h : d.FitsBut out) (hs : Respanned d d') (hfits : ∀ c, ¬ out c → d'.Fits c) :
    d'.FitsBut out := by
  refine ⟨h.upright.respanned hs, fun c p hc hp => ?_, hfits⟩
  rw [hs.parentOf_eq] at hp
  rw [hs.phaseOf_eq]
  exact (h.parents c p hc hp).imp id hs.isSome_spanOf

/-- Once a node has a span, its children are to be looked after. -/
theorem placed (h : d.FitsBut out) (hn : d.nodes[k]? = some n) (hk : out k) :
    (d.update k fun n => { n with span := some (.empty o) }).FitsBut
      fun c => out c ∨ d.parentOf c = some k := by
  have hspans := respanned_update d k fun _ => .empty o
  have hself : ((d.update k fun n => { n with span := some (.empty o) }).spanOf k).isSome := by
    rw [spanOf, nodes_update, if_pos rfl, hn]
    rfl
  generalize hd' : d.update k (fun n => { n with span := some (.empty o) }) = d' at hspans hself ⊢
  have hsame {j : DraftId} (hj : j ≠ k) : d'.spanOf j = d.spanOf j := by
    rw [spanOf, spanOf, ← hd', nodes_update_ne _ (Ne.symm hj)]
  refine ⟨h.upright.respanned hspans, ?_, ?_⟩
  · intro c p hc hp
    rw [hspans.parentOf_eq] at hp
    rw [hspans.phaseOf_eq]
    rcases hc with hc | hc
    · exact (h.parents c p hc hp).imp id hspans.isSome_spanOf
    · cases hp.symm.trans hc
      exact .inr hself
  · intro c hc p hp
    rw [hspans.parentOf_eq] at hp
    have hck : c ≠ k := fun he => hc (.inl (he ▸ hk))
    have hpk : p ≠ k := fun he => hc (.inr (he ▸ hp))
    rw [hsame hck, hsame hpk, hspans.phaseOf_eq]
    exact h.fits c (fun h => hc (.inl h)) p hp

theorem foldl {cs : List DraftId} (h : d.FitsBut out)
    (hstep : ∀ {k : DraftId} {d : Draft}, d.FitsBut out → d.Shut k → d.nodes.size ≤ fuel + k → out k →
      (placeBelow o fuel k d).FitsBut out)
    (hcs : ∀ c ∈ cs, d.Shut c ∧ d.nodes.size ≤ fuel + c ∧ out c) :
    (cs.foldl (fun d c => placeBelow o fuel c d) d).FitsBut out := by
  induction cs generalizing d with
  | nil => exact h
  | cons c cs ih =>
    obtain ⟨hshut, hsize, hout⟩ := hcs c List.mem_cons_self
    have hspans := respanned_placeBelow o fuel c d
    refine ih (hstep h hshut hsize hout) fun b hb => ?_
    obtain ⟨hshut, hsize, hout⟩ := hcs b (List.mem_cons_of_mem _ hb)
    exact ⟨hspans.shut hshut, hspans.size.symm ▸ hsize, hout⟩

/-- A child that had no span fits if it is placed where its parent is. -/
theorem child (h : d.FitsBut out) (hc : ¬ out c) (hp : d.parentOf c = some k) (hk : d.spanOf k = none)
    (hfilled : Filled o d d') (hplaced : d'.Placed k ∧ d'.Placed c) (hparent : d'.parentOf = d.parentOf) :
    d'.Fits c := by
  intro p hp'
  rw [hparent, hp] at hp'
  cases hp'
  have hnone : d.spanOf c = none := by
    cases hs : d.spanOf c with
    | none => rfl
    | some s =>
      obtain ⟨t, ht, _⟩ := (h.fits c hc k hp).1 s hs
      cases hk.symm.trans ht
  rw [hfilled.spanOf_of_placed hnone hplaced.2, hfilled.spanOf_of_placed hk hplaced.1]
  exact ⟨fun s hs => ⟨_, rfl, Option.some.inj hs ▸ .refl _⟩, fun _ _ => rfl⟩

/-- Nodes are placed inside their parents. -/
theorem placeBelow {fuel : Nat} (h : d.FitsBut out) (hk : d.Shut k) (hsize : d.nodes.size ≤ fuel + k)
    (hout : out k) : (Draft.placeBelow o fuel k d).FitsBut out := by
  induction fuel generalizing d k out with
  | zero =>
    obtain ⟨n, hn, _⟩ := hk
    rw [Nat.zero_add] at hsize
    exact absurd (lt_size_of_nodes hn) (Nat.not_lt.mpr hsize)
  | succ fuel ih =>
    have hfilled := placeBelow_filled (o := o) (fuel + 1) k d h.upright.nested hk
    have hspans := respanned_placeBelow o (fuel + 1) k d
    obtain ⟨n, hn, hshut⟩ := hk
    refine h.respanned hspans fun c hc => ?_
    have hself := placed_placeBelow o fuel (lt_size_of_nodes hn)
    rw [Draft.placeBelow, hn] at hfilled hspans hself ⊢
    dsimp only at hfilled hspans hself ⊢
    by_cases hspan : n.span.isSome = true
    · rw [if_pos hspan]
      exact h.fits c hc
    rw [if_neg hspan] at hfilled hspans hself ⊢
    have hchild : ∀ b, b ∈ n.children ↔ d.parentOf b = some k := fun b => h.upright.child hn
    have hplaced := respanned_update d k fun _ => .empty o
    have hafter : ∀ b, d.parentOf b = some k → d.nodes.size ≤ fuel + b := by
      intro b hb
      rw [Nat.succ_add_eq_add_succ] at hsize
      exact Nat.le_trans hsize (Nat.add_le_add_left (h.upright.before b k hb) fuel)
    -- the children are placed with the node, and whatever else is not out fits as before
    have hfold := (h.placed (o := o) hn hout).foldl ih (fun b (hb : b ∈ n.children) =>
      ⟨hplaced.shut (h.upright.nested k n hn hshut b hb), hplaced.size.symm ▸ hafter b ((hchild b).mp hb),
        .inr ((hchild b).mp hb)⟩)
    by_cases hp : d.parentOf c = some k
    · refine h.child hc hp ?_ hfilled ⟨hself, ?_⟩ hspans.parentOf_eq
      · rw [spanOf_of_nodes hn]
        simpa using hspan
      · have hlt := lt_size_of_parentOf hp
        have hroom := hafter c hp
        obtain ⟨fuel, rfl⟩ : ∃ f, fuel = f + 1 :=
          Nat.exists_eq_succ_of_ne_zero fun hz => by
            rw [hz, Nat.zero_add] at hroom
            exact Nat.not_lt.mpr hroom hlt
        exact placed_foldl_placeBelow fuel ((hchild c).mpr hp) (hplaced.size.symm ▸ hlt)
    · exact hfold.fits c fun h => h.elim hc hp

end FitsBut

end Draft

end JavaSyntax
