import JavaSyntax.Proofs.Draft.Fitting
import JavaSyntax.Proofs.Tree.Disambiguated

namespace JavaSyntax

namespace Draft

variable {d d' : Draft} {id j c x : DraftId} {o : Nat}

/-- Node `x` is open, and all open nodes are on the way up from it. -/
structure Innermost (d : Draft) (x : DraftId) : Prop where
  opened : d.phaseOf x = some .opened
  around : ∀ j, d.phaseOf j = some .opened → AtOrAbove d.parentOf j x

/-- What is around an open node is open. -/
theorem Orderly.opened (h : d.Orderly) {p : DraftId} (hp : d.parentOf c = some p)
    (hc : d.phaseOf c = some .opened) : d.phaseOf p = some .opened := by
  have hn := Array.getElem?_eq_getElem (h.coherent.parent_lt hp)
  by_contra hshut
  rw [phaseOf_of_nodes hn] at hshut
  have hmem := (h.coherent.linked.mem_iff p c).mpr hp
  cases hc.symm.trans ((h.closed p _ (phaseOf_of_nodes hn) fun he => hshut (he ▸ rfl)).2 c hmem)

/-- The way up from the innermost open node passes the open nodes. -/
theorem Innermost.climb (hx : d.Innermost x) (h : d.Orderly) :
    ∃ ids, d.Climb x ids ∧ ∀ j, j ∈ ids ↔ d.phaseOf j = some .opened := by
  obtain ⟨ids, hids⟩ := h.coherent.climb h.acyclic (lt_size_of_phaseOf hx.opened)
  refine ⟨ids, hids, fun j => ⟨hids.opened j, fun hj => ?_⟩⟩
  have hup := hx.around j hj
  have hopen := hx.opened
  clear hx
  induction hids with
  | shut found shut =>
    rw [phaseOf_of_nodes found] at hopen
    exact absurd (Option.some.inj hopen) shut
  | @top x n found opened parentless =>
    exact List.mem_singleton.mpr (hup.eq_of_none ((parentOf_of_nodes found).trans parentless))
  | @step x p n ids found opened parent rest ih =>
    have hp : d.parentOf x = some p := (parentOf_of_nodes found).trans parent
    rcases Relation.ReflTransGen.cases_head hup with rfl | ⟨q, hq, hup⟩
    · exact List.mem_cons_self
    · cases hp.symm.trans hq
      exact List.mem_cons_of_mem _ (ih hup (h.opened hp hopen))

/-- A node is the innermost open one if the way up from it passes all open nodes. -/
theorem Climb.innermost {ids : List DraftId} (hids : d.Climb x ids) (hx : d.phaseOf x = some .opened)
    (h : ∀ j < d.nodes.size, d.phaseOf j = some .opened → j ∈ ids) : d.Innermost x := by
  have hup : ∀ j ∈ ids, AtOrAbove d.parentOf j x := by
    clear h hx
    induction hids with
    | shut => exact fun j hj => by cases hj
    | top =>
      intro j hj
      rw [List.mem_singleton.mp hj]
      exact .refl
    | step found _ parent _ ih =>
      intro j hj
      rcases List.mem_cons.mp hj with rfl | hj
      · exact .refl
      · exact .head ((parentOf_of_nodes found).trans parent) (ih j hj)
  exact ⟨hx, fun j hj => hup j (h j (lt_size_of_phaseOf hj) hj)⟩

/-- What a token in the innermost open node does to each node. -/
def reached (span : Span) (n : DraftNode) : DraftNode :=
  if n.phase = .opened then { n with span := some (n.span.elim span (·.cover span)) }
  else { n with span := some (n.span.getD (.empty span.start)) }

/-- Where the token is inside and the span of the node was, its span is inside afterwards. -/
theorem inside_of_reached {span s u : Span} {m : DraftNode} (hs : (reached span m).span = some s)
    (htoken : span.Inside u) (hold : ∀ t, m.span = some t → t.Inside u) : s.Inside u := by
  unfold reached at hs
  split at hs
  · cases hs
    cases hm : m.span with
    | none => exact htoken
    | some t => exact (hold t hm).cover htoken
  · cases hs
    cases hm : m.span with
    | none =>
      have hempty : (Span.empty span.start).Inside span := ⟨Nat.le_refl _, span.start_le_stop⟩
      exact hempty.trans htoken
    | some t => exact hold t hm

theorem nodes_foldl_cover (span : Span) {ids : List DraftId} (hnd : ids.Nodup) (j : DraftId) :
    (ids.foldl (cover span) d).nodes[j]? = if j ∈ ids
      then d.nodes[j]?.map fun n => { n with span := some (n.span.elim span (·.cover span)) }
      else d.nodes[j]? := by
  induction ids generalizing d with
  | nil => rfl
  | cons i ids ih =>
    obtain ⟨hi, hnd⟩ := List.nodup_cons.mp hnd
    rw [List.foldl_cons, ih hnd, cover, nodes_update]
    by_cases hj : i = j
    · subst hj
      rw [if_neg hi, if_pos rfl, if_pos List.mem_cons_self]
    · simp only [hj, if_false, List.mem_cons, Ne.symm hj, false_or]

/-- A token in the innermost open node widens all open nodes and places all others. -/
theorem Innermost.nodes_extend (hx : d.Innermost x) (h : d.Orderly) {span : Span}
    (hext : d.extend x span = .ok d') (j : DraftId) : d'.nodes[j]? = d.nodes[j]?.map (reached span) := by
  obtain ⟨ids, hids, hopen⟩ := hx.climb h
  rw [hids.extend_eq (lt_size_of_phaseOf hx.opened)] at hext
  cases hext
  have hbase : Sound { d with lastEnd := max d.lastEnd span.stop } :=
    ⟨h.sound.nested, h.sound.pending, h.sound.waiting⟩
  rw [nodes_foldl_cover span hids.nodup, nodes_placePending hbase]
  cases hn : d.nodes[j]? with
  | none => simp
  | some n =>
    have hphase : j ∈ ids ↔ n.phase = .opened := by
      rw [hopen, phaseOf_of_nodes hn, Option.some.injEq]
    by_cases hp : n.phase = .opened
    · simp [hphase, hp, reached, filled]
    · simp [hphase, hp, reached, filled]

/-- Every node of the draft fits into its parent. -/
def Nests (d : Draft) : Prop := ∀ c, d.Fits c

theorem Fits.of_same (h : d.Fits c) (hparent : d'.parentOf = d.parentOf)
    (hspan : ∀ p, d.parentOf c = some p → d'.spanOf c = d.spanOf c ∧ d'.spanOf p = d.spanOf p ∧
      d'.phaseOf p = d.phaseOf p) : d'.Fits c := by
  intro p hp
  rw [hparent] at hp
  obtain ⟨hc, hp', hphase⟩ := hspan p hp
  rw [hc, hp', hphase]
  exact h p hp

namespace Nests

theorem create (h : d.Nests) (hd : d.Orderly) (k : Kind) : (d.create k).2.Nests := by
  have hspan (j : DraftId) : (d.create k).2.spanOf j = d.spanOf j := by
    rw [spanOf, spanOf, nodes_create]
    split
    · next he => simp [he]
    · rfl
  refine fun c => (h c).of_same (parentOf_create d k) fun p hp => ⟨hspan c, hspan p, ?_⟩
  rw [phaseOf_create, Function.update_of_ne (Nat.ne_of_lt (hd.coherent.parent_lt hp))]

/-- A node without a span may be appended. -/
theorem append (h : d.Nests) {p : DraftId} (hc : d.spanOf c = none) (happ : d.append p c = .ok d') :
    d'.Nests := by
  have hphase := phaseOf_append happ
  obtain ⟨hopen, hattach⟩ := Orderly.opened_of_append happ
  obtain ⟨-, -, -, hd'⟩ := attach_eq_ok hattach
  have hspan : d'.spanOf = d.spanOf := by
    rw [hd']
    refine (spanOf_update _ p _ ?_).trans (spanOf_update d c _ ?_)
    · exact fun _ => rfl
    · exact fun _ => rfl
  intro x q hq
  rw [(attach_links hattach).2, Function.update_apply] at hq
  rw [hspan, hphase]
  split at hq
  · next hx =>
    cases hq
    rw [hx, hc]
    exact ⟨fun s hs => (by cases hs), fun hshut => absurd hopen hshut⟩
  · exact h x q hq

/-- An open node gets another payload. -/
theorem update (h : d.Nests) (f : DraftNode → DraftNode) (hf : ∀ n, (f n).parent = n.parent ∧
    (f n).span = n.span ∧ (f n).phase = n.phase) : (d.update id f).Nests := by
  have hspan := spanOf_update d id f fun n => (hf n).2.1
  have hphase := phaseOf_update d id f fun n => (hf n).2.2
  refine fun c => (h c).of_same (parentOf_update d id f fun n => (hf n).1) fun p _ => ?_
  exact ⟨congrFun hspan c, congrFun hspan p, congrFun hphase p⟩

/-- A token that is reported in the innermost open node. -/
theorem extend (h : d.Nests) (hd : d.Orderly) (hx : d.Innermost x) {span : Span}
    (hext : d.extend x span = .ok d') : d'.Nests := by
  have hnodes := hx.nodes_extend hd hext
  intro c p hp
  rw [parentOf_extend hext] at hp
  obtain ⟨m, hm⟩ : ∃ m, d.nodes[c]? = some m := ⟨_, Array.getElem?_eq_getElem (lt_size_of_parentOf hp)⟩
  obtain ⟨n, hn⟩ : ∃ n, d.nodes[p]? = some n := ⟨_, Array.getElem?_eq_getElem (hd.coherent.parent_lt hp)⟩
  have hm' : d'.nodes[c]? = some (reached span m) := by rw [hnodes, hm]; rfl
  have hn' : d'.nodes[p]? = some (reached span n) := by rw [hnodes, hn]; rfl
  rw [spanOf_of_nodes hm', spanOf_of_nodes hn', phaseOf_of_nodes hn']
  by_cases hopen : n.phase = .opened
  · -- the parent covers the token, and whatever it covered before
    obtain ⟨htoken, hold⟩ := Span.inside_elim_cover span n.span
    have hspan : (reached span n).span = some (n.span.elim span (·.cover span)) := by
      rw [reached, if_pos hopen]
    have hphase : (reached span n).phase = .opened := by rw [reached, if_pos hopen, hopen]
    refine ⟨fun s hs => ⟨_, hspan, inside_of_reached hs htoken fun t ht => ?_⟩,
      fun hshut => absurd (congrArg some hphase) hshut⟩
    obtain ⟨u, hu, htu⟩ := (h c p hp).1 t ((spanOf_of_nodes hm).trans ht)
    exact htu.trans (hold u ((spanOf_of_nodes hn).symm.trans hu))
  · -- both are placed where the token starts, if they have no span
    have hshut : d.phaseOf p ≠ some .opened := by
      rw [phaseOf_of_nodes hn, Ne, Option.some.injEq]
      exact hopen
    have hbelow := (hd.closed p n.phase (phaseOf_of_nodes hn) hopen).2 c
      ((hd.coherent.linked.mem_iff p c).mpr hp)
    have hclosed : m.phase ≠ .opened := by
      rw [phaseOf_of_nodes hm, Option.some.injEq] at hbelow
      simp [hbelow]
    have hinside := (h c).inside hp hshut span.start
    rw [spanOf_of_nodes hm, spanOf_of_nodes hn] at hinside
    rw [reached, if_neg hclosed, reached, if_neg hopen]
    exact ⟨fun s hs => ⟨_, rfl, Option.some.inj hs ▸ hinside⟩, fun _ _ => rfl⟩

end Nests

/-- Below an open node nothing covers more than it does. -/
theorem Nests.covered (h : d.Nests) (hd : d.Orderly) {n : DraftNode} (hn : d.nodes[id]? = some n) :
    n.span.or (hull (((d.halted id).nodesAt n.children).filterMap DraftNode.span)) = n.span := by
  cases hspan : n.span with
  | some span => rfl
  | none =>
    have hnone : ((d.halted id).nodesAt n.children).filterMap DraftNode.span = [] := by
      refine List.filterMap_eq_nil_iff.mpr fun m hm => ?_
      obtain ⟨c, hc, hm⟩ := List.mem_filterMap.mp hm
      have hne : id ≠ c := Nat.ne_of_lt (hd.after hn c hc).1
      rw [halted, nodes_update_ne _ hne] at hm
      cases hms : m.span with
      | none => rfl
      | some s =>
        obtain ⟨t, ht, _⟩ := (h c id ((hd.upright.child hn).mp hc)).1 s ((spanOf_of_nodes hm).trans hms)
        rw [spanOf_of_nodes hn, hspan] at ht
        cases ht
    rw [hnone]
    rfl

/-- When a node stops being open, all nodes still fit but its children, which may wait for a span. -/
theorem Nests.halted (h : d.Nests) (hd : d.Orderly) {n : DraftNode} (hn : d.nodes[id]? = some n)
    (hkids : ∀ m ∈ (d.halted id).nodesAt n.children, m.phase = .closed) (hspan : n.span.isSome) :
    (d.halted id).FitsBut fun c => d.parentOf c = some id := by
  refine ⟨hd.upright_halted hn hkids, ?_, ?_⟩
  · intro c p hc hp
    rw [parentOf_halted] at hp
    cases hp.symm.trans hc
    rw [spanOf_of_nodes (nodes_halted_self hn)]
    exact .inr hspan
  · intro c hc
    refine (h c).of_same (parentOf_halted d id) fun p hp => ?_
    have hpid : p ≠ id := fun he => hc (he ▸ hp)
    exact ⟨congrFun (spanOf_halted d id) c, congrFun (spanOf_halted d id) p,
      by rw [phaseOf, phaseOf, nodes_halted_ne hpid]⟩

theorem phaseOf_endClosing_ne {p : DraftId} (hp : p ≠ id) : (d.endClosing id).phaseOf p = d.phaseOf p := by
  rw [phaseOf, phaseOf, endClosing, nodes_update_ne _ (Ne.symm hp)]

theorem update_eq_self {n : DraftNode} {f : DraftNode → DraftNode} (hn : d.nodes[id]? = some n)
    (hf : f n = n) : d.update id f = d := by
  refine ext_nodes rfl rfl fun j => ?_
  rw [nodes_update]
  split
  · next hj => rw [← hj, hn, Option.map_some, hf]
  · rfl

/-- A node that covers nothing waits when it is closed, and so do its children. -/
theorem Nests.wait (h : d.Nests) {n : DraftNode} (hn : d.nodes[id]? = some n) (hspan : n.span = none) :
    (((d.halted id).covering id n.children none).endClosing id).Nests := by
  generalize he : (d.halted id).covering id n.children none = d'
  have hnodes : d'.nodes = (d.halted id).nodes := by rw [← he]; rfl
  have hspans : d'.spanOf = d.spanOf := by rw [← he]; exact spanOf_halted d id
  have hparents : d'.parentOf = d.parentOf := by rw [← he]; exact parentOf_halted d id
  intro c p hp
  rw [parentOf_endClosing, hparents] at hp
  rw [spanOf_endClosing, hspans]
  obtain ⟨hinside, hplaced⟩ := h c p hp
  refine ⟨hinside, fun hshut hsome => ?_⟩
  by_cases hpid : p = id
  · rw [hpid, spanOf_of_nodes hn, hspan] at hsome
    cases hsome
  · refine hplaced (fun hopen => hshut ?_) hsome
    rw [phaseOf_endClosing_ne hpid, phaseOf, hnodes, nodes_halted_ne hpid]
    exact hopen

/-- The children of a node that covers something have spans inside it when it starts to close. -/
theorem Nests.placed_inside (h : d.Nests) {n : DraftNode} (hn : d.nodes[id]? = some n) {span : Span}
    (hspan : n.span = some span) (hc : d.parentOf c = some id) (hfilled : Filled span.stop (d.halted id) d')
    (hplaced : d'.Placed c) : ∃ s, d'.spanOf c = some s ∧ s.Inside span := by
  have hchild : (d.halted id).spanOf c = d.spanOf c := congrFun (spanOf_halted d id) c
  cases hs : d.spanOf c with
  | some s =>
    obtain ⟨t, ht, hst⟩ := (h c id hc).1 s hs
    cases hspan.symm.trans ((spanOf_of_nodes hn).symm.trans ht)
    exact ⟨s, hfilled.spanOf (hchild.trans hs), hst⟩
  | none =>
    have hc' := hfilled.spanOf_of_placed (hchild.trans hs) hplaced
    exact ⟨.empty span.stop, hc', span.start_le_stop, Nat.le_refl _⟩

/-- A node that covers something gives its children spans when it is closed. -/
theorem Nests.cover (h : d.Nests) (hd : d.Orderly) {n : DraftNode} (hn : d.nodes[id]? = some n)
    (hkids : ∀ m ∈ (d.halted id).nodesAt n.children, m.phase = .closed) {span : Span}
    (hspan : n.span = some span) :
    (((d.halted id).covering id n.children (some span)).endClosing id).Nests := by
  have hsome : n.span.isSome = true := by rw [hspan]; rfl
  have hupright := hd.upright_halted hn hkids
  have hself := nodes_halted_self hn
  have hshut : ∀ c ∈ n.children, (d.halted id).Shut c := fun c hc =>
    hupright.nested id _ hself (by simp) c hc
  rw [covering, update_eq_self hself (by rw [hspan])]
  generalize he : n.children.foldl (fun d c => d.place span.stop c) (d.halted id) = d'
  have hspans : Respanned (d.halted id) d' :=
    he ▸ respanned_fold (fun d c => respanned_place d span.stop c) n.children (d.halted id)
  have hfilled : Filled span.stop (d.halted id) d' :=
    he ▸ filled_fold place_filled n.children hupright.nested hshut
  have hfits : d'.FitsBut fun c => d.parentOf c = some id := by
    rw [← he, foldl_place]
    exact (h.halted hd hn hkids hsome).foldl FitsBut.placeBelow fun c hc =>
      ⟨hshut c hc, Nat.le_add_right .., (hd.upright.child hn).mp hc⟩
  have hparents : d'.parentOf = d.parentOf := hspans.parentOf_eq.trans (parentOf_halted d id)
  intro c p hp
  rw [parentOf_endClosing, hparents] at hp
  rw [spanOf_endClosing]
  by_cases hpid : p = id
  · rw [hpid] at hp ⊢
    have hplaced : d'.Placed c := he ▸ placed_fold n.children ((hd.upright.child hn).mpr hp) (by
      rw [Draft.halted, size_update]
      exact lt_size_of_parentOf hp)
    obtain ⟨s, hs, hst⟩ := h.placed_inside hn hspan hp hfilled hplaced
    rw [hs, hfilled.spanOf ((spanOf_of_nodes hself).trans hspan)]
    exact ⟨fun t ht => ⟨span, rfl, Option.some.inj ht ▸ hst⟩, fun _ _ => rfl⟩
  · have hfit := hfits.fits c fun hc => hpid (Option.some.inj (hp.symm.trans hc))
    rw [phaseOf_endClosing_ne hpid]
    exact hfit p ((congrFun hparents c).trans hp)

/-- A node is closed, and its finalizer does nothing. -/
theorem Nests.close (h : d.Nests) (hd : d.Orderly) {n : DraftNode} (hn : d.nodes[id]? = some n)
    (hstart : d.startClosing id n = .ok d') : (d'.endClosing id).Nests := by
  obtain ⟨hkids, rfl⟩ := startClosing_iff.mp hstart
  rw [h.covered hd hn]
  cases hspan : n.span with
  | none => exact h.wait hn hspan
  | some span => exact h.cover hd hn hkids hspan

/-- Once the waiting nodes are placed, what stands below a closed node stands inside it. -/
theorem Nests.inside (h : d.Nests) (hd : d.Orderly) (o : Nat) {p : DraftId} (hp : d.parentOf c = some p)
    (hclosed : d.phaseOf p = some .closed) :
    ∃ s t, (d.placePending o).spanOf c = some s ∧ (d.placePending o).spanOf p = some t ∧ s.Inside t := by
  obtain ⟨n, hn, hphase⟩ := exists_of_phaseOf hclosed
  obtain ⟨m, hm, hbelow⟩ :=
    exists_of_phaseOf ((hd.closed p _ hclosed (by simp)).2 c ((hd.coherent.linked.mem_iff p c).mpr hp))
  have hspan {j : DraftId} {l : DraftNode} (hl : d.nodes[j]? = some l) (hj : l.phase = .closed) :
      (d.placePending o).spanOf j = some (l.span.getD (.empty o)) := by
    rw [spanOf, nodes_placePending hd.sound, hl]
    simp [filled, hj]
  have hinside := (h c).inside hp (by rw [hclosed]; simp) o
  rw [spanOf_of_nodes hm, spanOf_of_nodes hn] at hinside
  exact ⟨_, _, hspan hm hbelow, hspan hn hphase, hinside⟩

theorem AllGrownAt.mem {u : Sprout} {ss : List Sprout} {xs ids : List DraftId} (h : AllGrownAt d ss xs ids)
    (hu : u ∈ ss) : ∃ y ∈ xs, ∃ own, GrownAt d u y own := by
  induction ss generalizing xs ids with
  | nil => cases hu
  | cons s ss ih =>
    obtain ⟨x, xs, own, others, rfl, rfl, hs, hss⟩ := h
    rcases List.mem_cons.mp hu with rfl | hu
    · exact ⟨x, List.mem_cons_self, own, hs⟩
    · obtain ⟨y, hy, hgrown⟩ := ih hss hu
      exact ⟨y, List.mem_cons_of_mem _ hy, hgrown⟩

end Draft

/-- The children of the node stand inside it. -/
def Branch.Encloses (b : Branch) : Prop := ∀ c ∈ b.children, c.span.Inside b.span

theorem Branch.lasting_encloses : Lasting Encloses := by
  refine ⟨?_, ?_, ?_⟩
  · intro k image span cs ds hspans h d hd
    obtain ⟨c, hc, he⟩ := List.mem_map.mp (hspans ▸ List.mem_map_of_mem (f := Branch.span) hd)
    exact he ▸ h c hc
  · intro b _ c hc
    cases hc
  · intro b _ c hc
    rw [List.mem_singleton.mp hc]
    exact .refl _

namespace Draft

variable {d : Draft}

theorem Nests.child_inside (h : d.Nests) (hd : d.Orderly) (o : Nat) {x y : DraftId} {n : DraftNode}
    {u : Sprout} {own : List DraftId} (hx : (d.placePending o).look x = some n) (hn : n.phase = .closed)
    (hy : y ∈ n.children) (hu : GrownAt (d.placePending o) u y own) :
    u.toBranch.span.Inside (n.span.getD default) := by
  have hparentOf : (d.placePending o).parentOf = d.parentOf := (respanned_placePending d o).parentOf_eq
  have hphaseOf : (d.placePending o).phaseOf = d.phaseOf := (respanned_placePending d o).phaseOf_eq
  obtain ⟨p, hx, _⟩ := look_eq_some hx
  obtain ⟨_, _, hlook, _, _⟩ := hu.root
  obtain ⟨q, hm, _⟩ := look_eq_some hlook
  have hparent : d.parentOf y = some x := by
    rw [← hparentOf, ← (hd.coherent.placePending o).linked.mem_iff, childrenOf_of_nodes hx]
    exact hy
  have hphase : d.phaseOf x = some .closed := by
    rw [← hphaseOf, phaseOf_of_nodes hx, ← hn]
  obtain ⟨s, t, hs, ht, hst⟩ := h.inside hd o hparent hphase
  have hspanU : u.span = some s := (spanOf_of_nodes hm).symm.trans hs
  have hspanN : n.span = some t := (spanOf_of_nodes hx).symm.trans ht
  cases u
  subst hspanU
  rw [hspanN]
  exact hst

mutual

theorem Nests.encloses (h : d.Nests) (hd : d.Orderly) (o : Nat) : ∀ {s : Sprout} {x : DraftId}
    {ids : List DraftId}, GrownAt (d.placePending o) s x ids → ∀ b ∈ s.toBranch.subtrees, b.Encloses
  | ⟨_, _, _, children⟩, x, _, ⟨kids, below, hx, hb, _⟩, b, hmem => by
    rw [Sprout.toBranch, Branch.subtrees] at hmem
    rcases List.mem_cons.mp hmem with rfl | hmem
    · intro c hc
      rw [Sprout.toBranches_eq_map] at hc
      obtain ⟨u, hu, rfl⟩ := List.mem_map.mp hc
      obtain ⟨y, hy, own, hgrown⟩ := hb.mem hu
      exact h.child_inside hd o hx rfl hy hgrown
    · exact h.enclosesAll hd o hb b hmem

theorem Nests.enclosesAll (h : d.Nests) (hd : d.Orderly) (o : Nat) : ∀ {ss : List Sprout}
    {xs ids : List DraftId}, AllGrownAt (d.placePending o) ss xs ids →
    ∀ b ∈ Branch.subtreesOfAll (Sprout.toBranches ss), b.Encloses
  | [], _, _, _, b, hmem => by cases hmem
  | _ :: _, _, _, ⟨_, _, _, _, _, _, hs, hss⟩, b, hmem => by
    rcases List.mem_append.mp hmem with hmem | hmem
    · exact h.encloses hd o hs b hmem
    · exact h.enclosesAll hd o hss b hmem

end

end Draft

namespace Builder

open Draft

/-- One operation with a finalizer that does nothing, when each token is reported in the innermost open
node. -/
theorem Effect.nests {σ : Type} {text : String} {d d' : Draft} {m m' : σ} {op : Operation}
    (h : Effect text .inert op d m d' m') (hd : d.Orderly) (hn : d.Nests)
    (hnew : ∀ p c, op = .append p c → d.spanOf c = none)
    (hin : ∀ x span, op = .extend x span → d.Innermost x) : d'.Nests := by
  cases h with
  | create => exact hn.create hd _
  | append happ => exact hn.append (hnew _ _ rfl) happ
  | setImage hset =>
    obtain ⟨_, _, hset⟩ := bind_eq_ok.mp hset
    cases hset
    exact hn.update _ fun _ => ⟨rfl, rfl, rfl⟩
  | pushImage hpush =>
    obtain ⟨_, _, hpush⟩ := bind_eq_ok.mp hpush
    cases hpush
    exact hn.update _ fun _ => ⟨rfl, rfl, rfl⟩
  | extend _ hext => exact hn.extend hd (hin _ _ rfl) hext
  | again => exact hn
  | close hfound _ hstart hrun =>
    cases hrun
    exact hn.close hd hfound hstart

end Builder

end JavaSyntax
