import JavaSyntax.Event
import JavaSyntax.Proofs.Draft.Disambiguation
import JavaSyntax.Proofs.Grammar.Proper

namespace JavaSyntax

namespace Sprout

/-- What several tokens do to an open node around them. -/
def passedAll (ts : List Token) (s : Sprout) : Sprout := ts.foldl (fun s t => s.passed t.span) s

/-- A token that adds to the payload of the node it stands in. -/
def noted (t : Token) (inImage : Bool) (s : Sprout) : Sprout :=
  if inImage then { s with image := some (s.image.getD "" ++ t.text) } else s

def withChild (s c : Sprout) : Sprout := { s with children := s.children ++ [c] }

end Sprout

namespace Piece

mutual

/-- What is done of an open node once a piece is read in it. -/
def grow (g : Sprout → Sprout) : Piece → Sprout → Sprout
  | .token t inImage, s => (s.passed t.span).noted t inImage
  | .node k parts, s =>
    (s.passedAll (tokensOfAll parts)).withChild (g (growAll g parts ⟨k, none, none, []⟩).shut)

def growAll (g : Sprout → Sprout) : List Piece → Sprout → Sprout
  | [], s => s
  | p :: ps, s => growAll g ps (p.grow g s)

end

mutual

/-- The nodes of a piece that `g` changes have a first child that covers a token. -/
def Suits (g : Sprout → Sprout) : Piece → Prop
  | .token _ _ => True
  | .node k parts => k.isNode = true ∧
    ((∀ s : Sprout, s.kind = k → g s = s) ∨ ∀ p, parts.find? isNode = some p → p.tokens ≠ []) ∧
    AllSuit g parts

def AllSuit (g : Sprout → Sprout) : List Piece → Prop
  | [] => True
  | p :: ps => p.Suits g ∧ AllSuit g ps

end

end Piece

/-- The end of the last token, after some more. -/
def lastStop (e : Nat) (ts : List Token) : Nat := ts.foldl (fun e t => max e t.span.stop) e

namespace Builder

open Draft

variable {σ : Type} {f : Finalizer σ} {g : Sprout → Sprout} {d : Draft} (text : String) (m : σ)

theorem extend_eq {x : DraftId} {span : Span} {d' : Draft} (hs : span.stop ≤ text.utf8ByteSize)
    (h : d.extend x span = .ok d') :
    extend ⟨text, f, d, m⟩ x span = .ok ⟨text, f, d', m⟩ := by
  rw [extend, if_pos hs, onDraft]
  simp only [h]

theorem node_eq {x : DraftId} {n : DraftNode} (h : d.nodes[x]? = some n) :
    node ⟨text, f, d, m⟩ x = .ok n := by
  rw [node, Draft.node, h]
  rfl

theorem finish_eq {x : DraftId} {n : DraftNode} {b : Branch} (h : d.nodes[x]? = some n)
    (hp : n.parent = none) (hb : (d.placePending d.lastEnd).branch x = .ok b) :
    finish ⟨text, f, d, m⟩ x = .ok (.ofBranch text b) := by
  simp only [finish, node_eq text m h, hp, hb, bind, Except.bind]
  rfl

/-- Closing a node never fails, and nothing changes but the node and what is below it. -/
theorem close_grown (hg : f.Implements g) {s : Sprout} {x : DraftId} {kids below : List DraftId}
    {parent : Option DraftId} (hd : d.Sound)
    (hx : d.nodes[x]? = some ⟨s.kind, .opened, parent, kids, s.span, s.image⟩)
    (hb : AllGrownAt d s.children kids below) (hnd : (x :: below).Nodup) :
    ∃ d' below', close ⟨text, f, d, m⟩ x = .ok ⟨text, f, d', m⟩ ∧
      GrownAt d' (g s.shut) x (x :: below') ∧ d'.Sound ∧ (x :: below').Nodup ∧
      RewrittenAt x below below' d d' ∧ ∃ n, d'.nodes[x]? = some n ∧ n.parent = parent := by
  obtain ⟨d₁, hstart, hclosing, hout, hsize, hend⟩ := startClosing_closing hd hx hb hnd
  obtain ⟨d₂, below', hrun, hclosing', hr⟩ := hg d₁ _ parent x below m hclosing
  obtain ⟨hgrown, hsound, hout', kids', hx'⟩ := endClosing_grown hclosing'
  have hr₁ : RewrittenAt x below below d d₁ :=
    ⟨Nat.le_of_eq hsize.symm, fun j _ hj => hout j hj, fun _ hj => .inl hj, hend⟩
  have hr₃ : RewrittenAt x below' below' d₂ (d₂.endClosing x) := by
    refine ⟨Nat.le_of_eq (size_update ..).symm, fun j _ hj => hout' j ?_, fun _ hj => .inl hj, rfl⟩
    rw [List.mem_singleton]
    exact fun he => hj (he ▸ List.mem_cons_self)
  refine ⟨d₂.endClosing x, below', ?_, hgrown, hsound, hclosing'.nodup, (hr₁.trans hr).trans hr₃,
    _, hx', rfl⟩
  simp [close, node_eq text m hx, bind, Except.bind, pure, Except.pure, onDraft, hstart, hrun]

/-- A node inside another is closed. -/
theorem close_stands (hg : f.Implements g) {x y : DraftId} {ys : List DraftId} {s u : Sprout}
    {us : List Sprout} (h : d.Stands (x :: y :: ys) (s :: u :: us)) :
    ∃ d', close ⟨text, f, d, m⟩ x = .ok ⟨text, f, d', m⟩ ∧
      d'.Stands (y :: ys) (u.withChild (g s.shut) :: us) ∧ d'.lastEnd = d.lastEnd := by
  obtain ⟨hd, owned, ⟨_, _, kids, below, others, hss, rfl, hx, hb, hrest⟩, hnd⟩ := h
  cases hss
  have hlt := hrest.lt_size
  obtain ⟨hown, hothers, hdisj⟩ := List.nodup_append.mp hnd
  rw [Option.toList_none, List.append_nil] at hx
  obtain ⟨d', below', hclose, hgrown, hsound, hnd', hr, _⟩ :=
    close_grown text m hg hd hx hb hown
  -- the nodes around are not among those that were rewritten
  have hrest' := hrest.frame fun j hj =>
    hr.outside j (hlt j hj) fun hm => hdisj j hm j hj rfl
  have hdisj' : ∀ j ∈ x :: below', j ∉ others := by
    intro j hj hjo
    rcases List.mem_cons.mp hj with rfl | hj
    · exact hdisj j List.mem_cons_self j hjo rfl
    · rcases hr.fresh j hj with hj | hj
      · exact hdisj j (List.mem_cons_of_mem _ hj) j hjo rfl
      · exact Nat.lt_irrefl _ (Nat.lt_of_lt_of_le (hlt j hjo) hj)
  obtain ⟨_, _, kids', below₂, others₂, huu, rfl, hy, hb₂, hrest₂⟩ := hrest'
  cases huu
  refine ⟨d', hclose, ⟨hsound, y :: (below₂ ++ (x :: below')) ++ others₂, ?_, ?_⟩, hr.lastEnd⟩
  · refine ⟨_, _, kids' ++ [x], below₂ ++ (x :: below'), others₂, rfl, rfl, ?_, ?_, ?_⟩
    · simpa [Sprout.withChild] using hy
    · exact hb₂.append (allGrownAt_single hgrown)
    · cases ys with
      | nil => exact hrest₂
      | cons z zs => exact hrest₂
  · have hperm : (y :: (below₂ ++ (x :: below')) ++ others₂).Perm
        ((x :: below') ++ (y :: below₂ ++ others₂)) := by
      have h₁ : (y :: (below₂ ++ (x :: below')) ++ others₂) =
          (y :: below₂) ++ ((x :: below') ++ others₂) := by simp
      have h₂ : (x :: below') ++ (y :: below₂ ++ others₂) =
          (x :: below') ++ ((y :: below₂) ++ others₂) := rfl
      rw [h₁, h₂, ← List.append_assoc, ← List.append_assoc]
      exact List.perm_append_comm.append_right _
    exact hperm.symm.nodup (List.nodup_append.mpr
      ⟨hnd', hothers, fun j hj b hb he => hdisj' j hj (he ▸ hb)⟩)

end Builder

namespace Replay

open Draft

variable {σ : Type} {f : Finalizer σ} {g : Sprout → Sprout} (text : String) (m : σ)
  (root : Option DraftId)

theorem step_start {d : Draft} {x : DraftId} {xs : List DraftId} {s : Sprout} {ss : List Sprout}
    {k : Kind} (hk : k.isNode = true) (h : d.Stands (x :: xs) (s :: ss)) :
    ∃ d' y, step ⟨⟨text, f, d, m⟩, x :: xs, root⟩ (.start k) =
        .ok ⟨⟨text, f, d', m⟩, y :: x :: xs, root⟩ ∧
      d'.Stands (y :: x :: xs) (⟨k, none, none, []⟩ :: s :: ss) ∧ d'.lastEnd = d.lastEnd := by
  obtain ⟨d', happ, hst, hend⟩ := create_append_stands k h
  refine ⟨d', d.nodes.size, ?_, hst, hend⟩
  simp only [create] at happ
  simp [step, Builder.create, hk, create, Builder.append, Builder.onDraft, happ, bind, Except.bind,
    pure, Except.pure]

theorem step_token {d : Draft} {x : DraftId} {xs : List DraftId} {s : Sprout} {ss : List Sprout}
    {t : Token} (i : Bool) (ht : t.span.stop ≤ text.utf8ByteSize) (h : d.Stands (x :: xs) (s :: ss)) :
    ∃ d', step ⟨⟨text, f, d, m⟩, x :: xs, root⟩ (.token t i) =
        .ok ⟨⟨text, f, d', m⟩, x :: xs, root⟩ ∧
      d'.Stands (x :: xs) ((s.passed t.span).noted t i :: ss.map (Sprout.passed t.span)) ∧
      d'.lastEnd = max d.lastEnd t.span.stop := by
  obtain ⟨d₁, hext, hst, hend⟩ := extend_stands t.span h
  have hstep := Builder.extend_eq (f := f) text m ht hext
  cases i with
  | false =>
    refine ⟨d₁, ?_, hst, hend⟩
    simp [step, hstep, bind, Except.bind, pure, Except.pure]
  | true =>
    obtain ⟨d₂, hpush, hst', hend'⟩ := pushImage_stands t.text hst
    refine ⟨d₂, ?_, hst', hend'.trans hend⟩
    simp [step, hstep, Builder.pushImage, Builder.onDraft, hpush, bind, Except.bind, pure,
      Except.pure]

theorem step_finish {d : Draft} (hg : f.Implements g) {x y : DraftId} {ys : List DraftId}
    {s u : Sprout} {us : List Sprout} (h : d.Stands (x :: y :: ys) (s :: u :: us)) :
    ∃ d', step ⟨⟨text, f, d, m⟩, x :: y :: ys, root⟩ .finish =
        .ok ⟨⟨text, f, d', m⟩, y :: ys, root⟩ ∧
      d'.Stands (y :: ys) (u.withChild (g s.shut) :: us) ∧ d'.lastEnd = d.lastEnd := by
  obtain ⟨d', hclose, hst, hend⟩ := Builder.close_stands text m hg h
  refine ⟨d', ?_, hst, hend⟩
  simp [step, hclose, bind, Except.bind, pure, Except.pure]

/-- The events of a piece lead from one state of the open nodes to the next. -/
def Leads (f : Finalizer σ) (events : List Event)
    (d d' : Draft) (xs : List DraftId) : Prop :=
  events.foldlM step ⟨⟨text, f, d, m⟩, xs, root⟩ = .ok ⟨⟨text, f, d', m⟩, xs, root⟩

variable {text m root} in
theorem Leads.append {d d' d'' : Draft} {xs : List DraftId} {es es' : List Event}
    (h : Leads text m root f es d d' xs) (h' : Leads text m root f es' d' d'' xs) :
    Leads text m root f (es ++ es') d d'' xs := by
  rw [Leads, List.foldlM_append, h]
  exact h'

mutual

/-- A piece that fits into the text is replayed in whatever node is open. -/
theorem leads_piece (hg : f.Implements g) : ∀ (p : Piece) {d : Draft} {x : DraftId}
    {xs : List DraftId} {s : Sprout} {ss : List Sprout}, p.Suits g →
    (∀ t ∈ p.tokens, t.span.stop ≤ text.utf8ByteSize) → d.Stands (x :: xs) (s :: ss) →
    ∃ d', Leads text m root f p.events d d' (x :: xs) ∧
      d'.Stands (x :: xs) (p.grow g s :: ss.map (Sprout.passedAll p.tokens)) ∧
      d'.lastEnd = lastStop d.lastEnd p.tokens
  | .token t i, d, x, xs, s, ss, _, ht, h => by
    obtain ⟨d', hstep, hst, hend⟩ := step_token text m root (f := f) i
      (ht t (by simp [Piece.tokens])) h
    refine ⟨d', ?_, hst, hend⟩
    simp [Leads, Piece.events, hstep, bind, Except.bind, pure, Except.pure]
  | .node k parts, d, x, xs, s, ss, ⟨hk, _, hp⟩, ht, h => by
    obtain ⟨d₁, y, hstart, hst₁, hend₁⟩ :=
      step_start text m root (f := f) hk h
    obtain ⟨d₂, hlead, hst₂, hend₂⟩ := leads_pieces hg parts hp ht hst₁
    obtain ⟨d₃, hfinish, hst₃, hend₃⟩ :=
      step_finish text m root hg hst₂
    refine ⟨d₃, ?_, hst₃, ?_⟩
    · rw [Leads] at hlead ⊢
      simp [Piece.events, List.foldlM_cons, List.foldlM_append, hstart, hlead, hfinish, bind,
        Except.bind, pure, Except.pure]
    · rw [hend₃, hend₂, hend₁]
      rfl

theorem leads_pieces (hg : f.Implements g) : ∀ (ps : List Piece) {d : Draft} {x : DraftId}
    {xs : List DraftId} {s : Sprout} {ss : List Sprout}, Piece.AllSuit g ps →
    (∀ t ∈ Piece.tokensOfAll ps, t.span.stop ≤ text.utf8ByteSize) → d.Stands (x :: xs) (s :: ss) →
    ∃ d', Leads text m root f (Piece.eventsOfAll ps) d d' (x :: xs) ∧
      d'.Stands (x :: xs) (Piece.growAll g ps s :: ss.map (Sprout.passedAll (Piece.tokensOfAll ps))) ∧
      d'.lastEnd = lastStop d.lastEnd (Piece.tokensOfAll ps)
  | [], d, x, xs, s, ss, _, _, h => by
    refine ⟨d, rfl, ?_, rfl⟩
    have hid : ss.map (Sprout.passedAll (Piece.tokensOfAll [])) = ss := by
      rw [show Sprout.passedAll (Piece.tokensOfAll []) = id from rfl, List.map_id]
    rw [hid]
    exact h
  | p :: ps, d, x, xs, s, ss, ⟨hp, hps⟩, ht, h => by
    obtain ⟨d₁, hlead, hst, hend⟩ := leads_piece hg p hp
      (fun t hm => ht t (List.mem_append_left _ hm)) h
    obtain ⟨d₂, hlead', hst', hend'⟩ := leads_pieces hg ps hps
      (fun t hm => ht t (List.mem_append_right _ hm)) hst
    refine ⟨d₂, hlead.append hlead', ?_, ?_⟩
    · rw [List.map_map] at hst'
      have hmap : ss.map (Sprout.passedAll (Piece.tokensOfAll (p :: ps))) =
          ss.map (Sprout.passedAll (Piece.tokensOfAll ps) ∘ Sprout.passedAll p.tokens) := by
        apply List.map_congr_left
        intro u _
        simp [Sprout.passedAll, Piece.tokensOfAll, List.foldl_append]
      rw [hmap]
      exact hst'
    · rw [hend', hend]
      simp [lastStop, Piece.tokensOfAll, List.foldl_append]

end

end Replay

namespace Draft

variable {d : Draft}

mutual

/-- A sprout is read off the draft whole, when all below it is closed. -/
theorem branchBelow_grown : ∀ {s : Sprout} {x : DraftId} {ids : List DraftId} (fuel : Nat),
    GrownAt d s x ids → ids.length ≤ fuel → d.branchBelow fuel x = .ok s.toBranch
  | ⟨_, _, _, _⟩, x, _, 0, ⟨_, _, _, _, rfl⟩, hlen => by simp at hlen
  | ⟨_, _, _, _⟩, x, _, fuel + 1, ⟨kids, below, hx, hb, rfl⟩, hlen => by
    obtain ⟨p, hn, _⟩ := look_eq_some hx
    have hkids := mapM_branchBelow_grown fuel hb (by simpa using hlen)
    simp [branchBelow, closedNode, node, hn, hkids, bind, Except.bind, pure, Except.pure,
      Sprout.toBranch]

theorem mapM_branchBelow_grown : ∀ {ss : List Sprout} {xs ids : List DraftId} (fuel : Nat),
    AllGrownAt d ss xs ids → ids.length ≤ fuel →
    xs.mapM (d.branchBelow fuel) = .ok (Sprout.toBranches ss)
  | [], _, _, _, ⟨rfl, rfl⟩, _ => rfl
  | _ :: _, _, _, fuel, ⟨x, xs, own, others, rfl, rfl, hs, hss⟩, hlen => by
    rw [List.length_append] at hlen
    have hx := branchBelow_grown fuel hs (by omega)
    have hxs := mapM_branchBelow_grown fuel hss (by omega)
    simp [List.mapM_cons, hx, hxs, bind, Except.bind, pure, Except.pure, Sprout.toBranches]

end

theorem sound_empty : Draft.empty.Sound := by
  refine ⟨?_, ?_, ?_⟩
  · intro id n hn
    simp [empty] at hn
  · intro id hid
    cases hid
  · intro id n hn
    simp [empty] at hn

end Draft

open Draft in
/-- The tree that the events of a node describe. -/
theorem buildTree_node {σ : Type} {f : Finalizer σ} {g : Sprout → Sprout} (hg : f.Implements g)
    (text : String) (m : σ) {k : Kind} {parts : List Piece} (hp : (Piece.node k parts).Suits g)
    (ht : ∀ t ∈ Piece.tokensOfAll parts, t.span.stop ≤ text.utf8ByteSize) :
    buildTree text f m (Piece.eventsOfAll [.node k parts]) =
      .ok (.ofBranch text (Sprout.fill (lastStop 0 (Piece.tokensOfAll parts))
        (g (Piece.growAll g parts ⟨k, none, none, []⟩).shut)).toBranch, m) := by
  obtain ⟨hk, _, hparts⟩ := hp
  let d₀ := (Draft.empty.create k).2
  have hst₀ : d₀.Stands [0] [⟨k, none, none, []⟩] := create_stands sound_empty k
  have hstart : Replay.step ⟨⟨text, f, .empty, m⟩, [], none⟩ (.start k) =
      .ok ⟨⟨text, f, d₀, m⟩, [0], some 0⟩ := by
    simp [Replay.step, Builder.create, hk, d₀, create, Draft.empty, bind, Except.bind, pure,
      Except.pure]
  obtain ⟨d₁, hlead, hst₁, hend₁⟩ :=
    Replay.leads_pieces text m (some 0) hg parts hparts ht hst₀
  obtain ⟨hd₁, owned, ⟨_, _, kids, below, others, hss, rfl, hx, hb, _, rfl⟩, hnd⟩ := hst₁
  cases hss
  rw [Option.toList_none, List.append_nil, List.head?_nil] at hx
  rw [List.append_nil] at hnd
  obtain ⟨d₂, below', hclose, hgrown, hd₂, hnd', hr, n, hn, hpar⟩ :=
    Builder.close_grown text m hg hd₁ hx hb hnd
  have hend : d₂.lastEnd = lastStop 0 (Piece.tokensOfAll parts) := hr.lastEnd.trans hend₁
  -- the root and what is below it get their spans in the end
  have hfilled := hgrown.filled fun j _ => look_placePending hd₂ d₂.lastEnd j
  have hbranch := branchBelow_grown _ hfilled
    (length_le_size hnd' (allGrownAt_single hfilled).lt_size)
  have hfinish : Replay.step ⟨⟨text, f, d₁, m⟩, [0], some 0⟩ .finish =
      .ok ⟨⟨text, f, d₂, m⟩, [], some 0⟩ := by
    simp [Replay.step, hclose, bind, Except.bind, pure, Except.pure]
  have hrun : (Piece.eventsOfAll [.node k parts]).foldlM Replay.step
      ⟨.start text f m, [], none⟩ = .ok ⟨⟨text, f, d₂, m⟩, [], some 0⟩ := by
    rw [Piece.eventsOfAll, Piece.events, Piece.eventsOfAll, List.append_nil, List.cons_append,
      List.foldlM_cons, Builder.start, hstart]
    change List.foldlM Replay.step _ (Piece.eventsOfAll parts ++ [.finish]) = _
    rw [List.foldlM_append, hlead]
    simp [hfinish, bind, Except.bind, pure, Except.pure]
  have htree : Replay.finish ⟨⟨text, f, d₂, m⟩, [], some 0⟩ = .ok (.ofBranch text
      (Sprout.fill d₂.lastEnd (g (Piece.growAll g parts ⟨k, none, none, []⟩).shut)).toBranch) := by
    exact Builder.finish_eq text m hn hpar hbranch
  rw [buildTree, hrun, ← hend]
  simp [htree, bind, Except.bind, pure, Except.pure]

end JavaSyntax
