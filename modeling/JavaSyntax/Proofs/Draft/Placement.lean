import JavaSyntax.Proofs.Draft.Sprout

namespace JavaSyntax.Draft

variable {d d' d'' : Draft} {o : Nat}

theorem lt_size_of_nodes {j : DraftId} {n : DraftNode} (h : d.nodes[j]? = some n) :
    j < d.nodes.size :=
  (Array.getElem?_eq_some_iff.mp h).1

/-- Nothing differs but spans, and no span is lost. -/
structure Respanned (d d' : Draft) : Prop where
  size : d'.nodes.size = d.nodes.size
  pending : d'.pending = d.pending
  nodes : ∀ (j : DraftId) (n : DraftNode), d.nodes[j]? = some n →
    ∃ span, d'.nodes[j]? = some { n with span } ∧ (n.span.isSome → span.isSome)

theorem Respanned.refl (d : Draft) : Respanned d d :=
  ⟨rfl, rfl, fun _ n hn => ⟨n.span, hn, id⟩⟩

theorem Respanned.trans (h : Respanned d d') (h' : Respanned d' d'') : Respanned d d'' := by
  refine ⟨h'.size.trans h.size, h'.pending.trans h.pending, ?_⟩
  intro j n hn
  obtain ⟨span, hn', hspan⟩ := h.nodes j n hn
  obtain ⟨span', hn'', hspan'⟩ := h'.nodes j _ hn'
  exact ⟨span', hn'', fun hs => hspan' (hspan hs)⟩

theorem respanned_update (d : Draft) (id : DraftId) (f : Option Span → Span) :
    Respanned d (d.update id fun n => { n with span := some (f n.span) }) := by
  refine ⟨size_update .., rfl, ?_⟩
  intro j n hn
  rw [nodes_update, hn]
  split
  · exact ⟨some (f n.span), rfl, fun _ => rfl⟩
  · exact ⟨n.span, rfl, fun hs => hs⟩

theorem respanned_fold {α : Type} {f : Draft → α → Draft} (hf : ∀ d a, Respanned d (f d a))
    (as : List α) (d : Draft) : Respanned d (as.foldl f d) := by
  induction as generalizing d with
  | nil => exact .refl d
  | cons a as ih => exact (hf d a).trans (ih (f d a))

theorem respanned_placeBelow (o fuel : Nat) (id : DraftId) (d : Draft) :
    Respanned d (placeBelow o fuel id d) := by
  induction fuel generalizing id d with
  | zero => exact .refl d
  | succ fuel ih =>
    rw [placeBelow]
    split
    · exact .refl d
    · split
      · exact .refl d
      · exact (respanned_update d id fun _ => .empty o).trans
          (respanned_fold (fun d c => ih c d) _ _)

theorem respanned_place (d : Draft) (o : Nat) (id : DraftId) : Respanned d (d.place o id) :=
  respanned_placeBelow o _ id d

/-- The node has a span. -/
def Placed (d : Draft) (id : DraftId) : Prop :=
  ∃ n : DraftNode, d.nodes[id]? = some n ∧ n.span.isSome = true

theorem Respanned.placed (h : Respanned d d') {id : DraftId} (hp : d.Placed id) : d'.Placed id := by
  obtain ⟨n, hn, hs⟩ := hp
  obtain ⟨span, hn', hspan⟩ := h.nodes id n hn
  exact ⟨_, hn', hspan hs⟩

/-- A placed node has a span, wherever it stands: below closed nodes, open ones or itself. -/
theorem placed_placeBelow (o fuel : Nat) {id : DraftId} (h : id < d.nodes.size) :
    (placeBelow o (fuel + 1) id d).Placed id := by
  have hn := Array.getElem?_eq_getElem h
  rw [placeBelow, hn]
  dsimp only
  split
  · next hs => exact ⟨_, hn, hs⟩
  · refine (respanned_fold (fun d c => respanned_placeBelow o fuel c d) _ _).placed ?_
    exact ⟨{ d.nodes[id] with span := some (.empty o) }, by rw [nodes_update, if_pos rfl, hn]; rfl, rfl⟩

theorem placed_foldl_placeBelow (fuel : Nat) {ids : List DraftId} {id : DraftId} (hid : id ∈ ids)
    (h : id < d.nodes.size) : (ids.foldl (fun d c => placeBelow o (fuel + 1) c d) d).Placed id := by
  induction ids generalizing d with
  | nil => cases hid
  | cons c cs ih =>
    rw [List.foldl_cons]
    rcases List.mem_cons.mp hid with rfl | hid
    · exact (respanned_fold (fun d c => respanned_placeBelow o _ c d) cs _).placed (placed_placeBelow o fuel h)
    · exact ih hid ((respanned_placeBelow ..).size.symm ▸ h)

theorem foldl_place (o : Nat) (cs : List DraftId) (d : Draft) :
    cs.foldl (fun d c => d.place o c) d =
      cs.foldl (fun d' c => placeBelow o d.nodes.size c d') d := by
  have h : ∀ (cs : List DraftId) (e : Draft), e.nodes.size = d.nodes.size →
      cs.foldl (fun d c => d.place o c) e =
        cs.foldl (fun d' c => placeBelow o d.nodes.size c d') e := by
    intro cs
    induction cs with
    | nil => exact fun _ _ => rfl
    | cons c cs ih =>
      intro e he
      simp only [List.foldl_cons, place, he]
      exact ih _ ((respanned_placeBelow o _ c e).size.trans he)
  exact h cs d rfl

theorem placed_fold (ids : List DraftId) {id : DraftId} (hid : id ∈ ids) (h : id < d.nodes.size) :
    (ids.foldl (fun d id => d.place o id) d).Placed id := by
  obtain ⟨fuel, hfuel⟩ := Nat.exists_eq_succ_of_ne_zero (Nat.ne_zero_of_lt h)
  rw [foldl_place, hfuel]
  exact placed_foldl_placeBelow fuel hid h

/-- The node is there and takes no more children. -/
def Shut (d : Draft) (id : DraftId) : Prop :=
  ∃ n : DraftNode, d.nodes[id]? = some n ∧ n.phase ≠ .opened

/-- What stands below a shut node is shut. -/
def Nested (d : Draft) : Prop :=
  ∀ (id : DraftId) (n : DraftNode), d.nodes[id]? = some n → n.phase ≠ .opened →
    ∀ c ∈ n.children, d.Shut c

/-- Some shut nodes that waited for a span sit at `o` now. Nothing else differs. -/
structure Filled (o : Nat) (d d' : Draft) : Prop where
  size : d'.nodes.size = d.nodes.size
  pending : d'.pending = d.pending
  lastEnd : d'.lastEnd = d.lastEnd
  nodes : ∀ j : DraftId, d'.nodes[j]? = d.nodes[j]? ∨
    ∃ n : DraftNode, d.nodes[j]? = some n ∧ n.phase ≠ .opened ∧ n.span = none ∧
      d'.nodes[j]? = some { n with span := some (.empty o) }

theorem Filled.refl (o : Nat) (d : Draft) : Filled o d d := ⟨rfl, rfl, rfl, fun _ => .inl rfl⟩

theorem Filled.trans (h : Filled o d d') (h' : Filled o d' d'') : Filled o d d'' := by
  refine ⟨h'.size.trans h.size, h'.pending.trans h.pending, h'.lastEnd.trans h.lastEnd, ?_⟩
  intro j
  rcases h'.nodes j with e | ⟨n, hn, hp, hs, e⟩
  · rw [e]
    exact h.nodes j
  · rcases h.nodes j with e' | ⟨m, _, _, _, e'⟩
    · exact .inr ⟨n, e'.symm.trans hn, hp, hs, e⟩
    · -- a node that has a span is not placed again
      rw [hn] at e'
      cases e'
      cases hs

/-- Placing nodes changes neither their phase nor their children. -/
theorem Filled.node (h : Filled o d d') {id : DraftId} {n : DraftNode}
    (hn : d'.nodes[id]? = some n) :
    ∃ m, d.nodes[id]? = some m ∧ m.phase = n.phase ∧ m.children = n.children := by
  rcases h.nodes id with e | ⟨m, hm, _, _, e⟩
  · exact ⟨n, e.symm.trans hn, rfl, rfl⟩
  · rw [hn] at e
    cases e
    exact ⟨m, hm, rfl, rfl⟩

theorem Filled.shut (h : Filled o d d') {id : DraftId} (hs : d.Shut id) : d'.Shut id := by
  obtain ⟨n, hn, hp⟩ := hs
  rcases h.nodes id with e | ⟨m, hm, hp', _, e⟩
  · exact ⟨n, e.trans hn, hp⟩
  · exact ⟨_, e, hp'⟩

theorem Filled.nested (h : Filled o d d') (hd : d.Nested) : d'.Nested := by
  intro id n hn hp c hc
  obtain ⟨m, hm, hph, hch⟩ := h.node hn
  exact h.shut (hd id m hm (hph ▸ hp) c (hch ▸ hc))

theorem filled_fold {f : DraftId → Draft → Draft}
    (hf : ∀ c (d : Draft), d.Nested → d.Shut c → Filled o d (f c d)) (cs : List DraftId) :
    ∀ {d : Draft}, d.Nested → (∀ c ∈ cs, d.Shut c) →
      Filled o d (cs.foldl (fun d c => f c d) d) := by
  induction cs with
  | nil => exact fun _ _ => Filled.refl o _
  | cons c cs ih =>
    intro d hd hc
    have h := hf c d hd (hc c List.mem_cons_self)
    exact h.trans (ih (h.nested hd) fun b hb => h.shut (hc b (List.mem_cons_of_mem _ hb)))

theorem filled_update {id : DraftId} {n : DraftNode} (hn : d.nodes[id]? = some n)
    (hp : n.phase ≠ .opened) (hs : n.span = none) :
    Filled o d (d.update id fun n => { n with span := some (.empty o) }) := by
  refine ⟨size_update .., rfl, rfl, ?_⟩
  intro j
  rw [nodes_update]
  split
  · next h =>
    subst h
    exact .inr ⟨n, hn, hp, hs, by rw [hn]; rfl⟩
  · exact .inl rfl

theorem placeBelow_filled (fuel : Nat) : ∀ (id : DraftId) (d : Draft), d.Nested → d.Shut id →
    Filled o d (placeBelow o fuel id d) := by
  induction fuel with
  | zero => exact fun _ _ _ _ => Filled.refl o _
  | succ fuel ih =>
    rintro id d hd ⟨n, hn, hp⟩
    rw [placeBelow, hn]
    dsimp only
    split
    · exact Filled.refl o d
    · next hs =>
      have h := filled_update (o := o) hn hp (by simpa using hs)
      exact h.trans (filled_fold ih _ (h.nested hd) fun c hc => h.shut (hd id n hn hp c hc))

theorem place_filled (id : DraftId) (d : Draft) (hd : d.Nested) (hs : d.Shut id) :
    Filled o d (d.place o id) :=
  placeBelow_filled _ id d hd hs

/-- Shut nodes are below shut nodes only, and those without a span are known to wait for one. -/
structure Sound (d : Draft) : Prop where
  nested : d.Nested
  pending : ∀ id ∈ d.pending, d.Shut id
  waiting : ∀ (id : DraftId) (n : DraftNode), d.nodes[id]? = some n → n.phase ≠ .opened →
    n.span = none → id ∈ d.pending

/-- What the next token, or the end, does to each node. -/
def filled (o : Nat) (n : DraftNode) : DraftNode :=
  if n.phase = .opened then n else { n with span := some (n.span.getD (.empty o)) }

theorem placePending_filled (h : d.Sound) (o : Nat) :
    Filled o { d with pending := [] } (d.placePending o) :=
  filled_fold place_filled _ h.nested h.pending

/-- All shut nodes have a span once the waiting ones are placed, and no other node changes. -/
theorem nodes_placePending (h : d.Sound) (o : Nat) (j : DraftId) :
    (d.placePending o).nodes[j]? = d.nodes[j]?.map (filled o) := by
  let base : Draft := { d with pending := [] }
  have hfill : Filled o base (d.placePending o) := placePending_filled h o
  have hplaced : ∀ id ∈ d.pending, (d.placePending o).Placed id := by
    intro id hid
    obtain ⟨n, hn, _⟩ := h.pending id hid
    exact placed_fold (d := base) d.pending hid (lt_size_of_nodes hn)
  rcases hfill.nodes j with e | ⟨n, hn, hp, hs, e⟩
  · rw [e]
    change d.nodes[j]? = _
    cases hn : d.nodes[j]? with
    | none => rfl
    | some n =>
      by_cases hp : n.phase = .opened
      · simp [filled, hp]
      · cases hs : n.span with
        | some s =>
          cases n
          cases hs
          simp [filled, hp]
        | none =>
          obtain ⟨m, hm, hspan⟩ := hplaced j (h.waiting j n hn hp hs)
          rw [e] at hm
          cases hm.symm.trans hn
          rw [hs] at hspan
          cases hspan
  · change d.nodes[j]? = _ at hn
    rw [e, hn]
    simp [filled, hp, hs]

theorem look_placePending (h : d.Sound) (o : Nat) (j : DraftId) :
    (d.placePending o).look j = (d.look j).map (filled o) := by
  rw [look, look, nodes_placePending h]
  cases d.nodes[j]? with
  | none => rfl
  | some n =>
    simp only [Option.map_some, filled]
    split <;> rfl

theorem Sound.placePending (h : d.Sound) (o : Nat) : (d.placePending o).Sound := by
  have hfill := placePending_filled h o
  refine ⟨hfill.nested h.nested, ?_, ?_⟩
  · intro id hid
    rw [hfill.pending] at hid
    cases hid
  · intro id n hn hp hs
    rw [nodes_placePending h] at hn
    obtain ⟨m, _, rfl⟩ := Option.map_eq_some_iff.mp hn
    unfold filled at hp hs
    split at hs
    · next he => simp [he] at hp
    · cases hs

mutual

theorem GrownAt.filled : ∀ {s : Sprout} {x : DraftId} {ids : List DraftId}, GrownAt d s x ids →
    (∀ j ∈ ids, d'.look j = (d.look j).map (Draft.filled o)) → GrownAt d' (s.fill o) x ids
  | ⟨_, _, _, _⟩, _, _, ⟨kids, below, hx, hb, rfl⟩, same => by
    refine ⟨kids, below, ?_, hb.filled fun j hj => same j (List.mem_cons_of_mem _ hj), rfl⟩
    rw [same _ List.mem_cons_self, hx]
    rfl

theorem AllGrownAt.filled : ∀ {ss : List Sprout} {xs ids : List DraftId}, AllGrownAt d ss xs ids →
    (∀ j ∈ ids, d'.look j = (d.look j).map (Draft.filled o)) →
    AllGrownAt d' (Sprout.fillAll o ss) xs ids
  | [], _, _, h, _ => h
  | _ :: _, _, _, ⟨x, xs, own, others, hk, rfl, hs, hss⟩, same =>
    ⟨x, xs, own, others, hk, rfl,
      hs.filled fun j hj => same j (List.mem_append_left _ hj),
      hss.filled fun j hj => same j (List.mem_append_right _ hj)⟩

end

/-- Nodes outside of a set are the same in both drafts. -/
def SameOutside (ids : List DraftId) (d d' : Draft) : Prop :=
  ∀ j : DraftId, j ∉ ids → d'.nodes[j]? = d.nodes[j]?

theorem SameOutside.look {ids : List DraftId} (h : SameOutside ids d d') {j : DraftId}
    (hj : j ∉ ids) : d'.look j = d.look j := by
  rw [Draft.look, Draft.look, h j hj]

theorem SameOutside.mono {ids more : List DraftId} (h : SameOutside ids d d')
    (hsub : ∀ j ∈ ids, j ∈ more) : SameOutside more d d' :=
  fun j hj => h j fun hj' => hj (hsub j hj')

theorem SameOutside.trans {ids : List DraftId} (h : SameOutside ids d d')
    (h' : SameOutside ids d' d'') : SameOutside ids d d'' :=
  fun j hj => (h' j hj).trans (h j hj)

mutual

/-- Placing a closed node settles its sprout and touches nothing else. -/
theorem placeBelow_grown : ∀ {s : Sprout} {x : DraftId} {ids : List DraftId} (fuel : Nat)
    {d : Draft}, GrownAt d s x ids → ids.Nodup → ids.length ≤ fuel →
    GrownAt (placeBelow o fuel x d) (s.settle o) x ids ∧
      SameOutside ids d (placeBelow o fuel x d)
  | ⟨_, _, some _, _⟩, x, _, 0, d, h, _, _ => ⟨h, fun _ _ => rfl⟩
  | ⟨_, _, none, _⟩, x, _, 0, d, ⟨_, _, _, _, rfl⟩, _, hlen => by simp at hlen
  | ⟨_, _, some _, _⟩, x, _, fuel + 1, d, ⟨kids, below, hx, hb, rfl⟩, _, _ => by
    obtain ⟨p, hn, _⟩ := look_eq_some hx
    rw [placeBelow, hn]
    exact ⟨⟨kids, below, hx, hb, rfl⟩, fun _ _ => rfl⟩
  | ⟨_, _, none, children⟩, x, _, fuel + 1, d, ⟨kids, below, hx, hb, rfl⟩, hnd, hlen => by
    obtain ⟨p, hn, _⟩ := look_eq_some hx
    rw [placeBelow, hn]
    simp only [Option.isSome_none, Bool.false_eq_true, if_false]
    obtain ⟨hxb, hnd⟩ := List.nodup_cons.mp hnd
    -- the children are grown in the draft in which only `x` has changed
    have hb' : AllGrownAt (d.update x fun n => { n with span := some (.empty o) }) children kids
        below := hb.frame fun j hj => look_update_ne _ (by rintro rfl; exact hxb hj)
    obtain ⟨hg, hs⟩ := placeBelow_allGrown fuel hb' hnd (by simpa using hlen)
    refine ⟨⟨kids, below, ?_, hg, rfl⟩, ?_⟩
    · rw [hs.look hxb, look, nodes_update]
      simp [hn]
    · intro j hj
      rw [List.mem_cons, not_or] at hj
      exact (hs j hj.2).trans (nodes_update_ne _ (Ne.symm hj.1))

theorem placeBelow_allGrown : ∀ {ss : List Sprout} {xs ids : List DraftId} (fuel : Nat)
    {d : Draft}, AllGrownAt d ss xs ids → ids.Nodup → ids.length ≤ fuel →
    AllGrownAt (xs.foldl (fun d c => placeBelow o fuel c d) d) (Sprout.settleAll o ss) xs ids ∧
      SameOutside ids d (xs.foldl (fun d c => placeBelow o fuel c d) d)
  | [], _, _, fuel, d, ⟨rfl, rfl⟩, _, _ => ⟨⟨rfl, rfl⟩, fun _ _ => rfl⟩
  | s :: ss, _, _, fuel, d, ⟨x, xs, own, others, rfl, rfl, hs, hss⟩, hnd, hlen => by
    rw [List.length_append] at hlen
    obtain ⟨hown, hothers, hdisj⟩ := List.nodup_append.mp hnd
    obtain ⟨hg, hsame⟩ := placeBelow_grown fuel hs hown (by omega)
    have hss' := hss.frame fun j hj => hsame.look fun hj' => hdisj j hj' j hj rfl
    obtain ⟨hgs, hsames⟩ := placeBelow_allGrown fuel hss' hothers (by omega)
    refine ⟨⟨x, xs, own, others, rfl, rfl, ?_, hgs⟩, ?_⟩
    · exact hg.frame fun j hj => hsames.look fun hj' => hdisj j hj j hj' rfl
    · exact (hsame.mono fun j hj => List.mem_append_left _ hj).trans
        (hsames.mono fun j hj => List.mem_append_right _ hj)

end

end JavaSyntax.Draft
