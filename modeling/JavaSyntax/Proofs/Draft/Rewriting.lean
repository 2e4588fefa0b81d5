import JavaSyntax.Proofs.Draft.Client
import JavaSyntax.Proofs.Draft.Finished
import JavaSyntax.Proofs.Event.Built

namespace JavaSyntax

namespace Draft

variable {d e : Draft} {x : DraftId} {name : DraftId → DraftId} {fuel : Nat}

mutual

/-- A node has one sprout at most. -/
theorem GrownAt.unique : ∀ {s u : Sprout} {x : DraftId} {ids others : List DraftId}, GrownAt d s x ids →
    GrownAt d u x others → s = u
  | ⟨_, _, _, _⟩, ⟨_, _, _, _⟩, _, _, _, ⟨_, _, hx, hb, _⟩, ⟨_, _, hx', hb', _⟩ => by
    cases hx.symm.trans hx'
    rw [hb.unique hb']

theorem AllGrownAt.unique : ∀ {ss us : List Sprout} {xs ids others : List DraftId},
    AllGrownAt d ss xs ids → AllGrownAt d us xs others → ss = us
  | [], [], _, _, _, _, _ => rfl
  | [], _ :: _, _, _, _, ⟨rfl, _⟩, ⟨_, _, _, _, hxs, _⟩ => by cases hxs
  | _ :: _, [], _, _, _, ⟨_, _, _, _, hxs, _⟩, ⟨rfl, _⟩ => by cases hxs
  | _ :: _, _ :: _, _, _, _, ⟨_, _, _, _, rfl, _, hs, hss⟩, ⟨_, _, _, _, hxs, _, hu, hus⟩ => by
    cases hxs
    rw [hs.unique hu, hss.unique hus]

end

theorem exists_allGrownAt {xs : List DraftId} (h : ∀ x ∈ xs, ∃ s ids, GrownAt d s x ids) :
    ∃ ss ids, AllGrownAt d ss xs ids := by
  induction xs with
  | nil => exact ⟨[], [], rfl, rfl⟩
  | cons x xs ih =>
    obtain ⟨s, own, hs⟩ := h x List.mem_cons_self
    obtain ⟨ss, others, hss⟩ := ih fun y hy => h y (List.mem_cons_of_mem x hy)
    exact ⟨s :: ss, own ++ others, x, xs, own, others, rfl, rfl, hs, hss⟩

/-- Below a closed node everything is closed. -/
theorem Orderly.grown (h : d.Orderly) (hx : d.phaseOf x = some .closed) : ∃ s ids, GrownAt d s x ids := by
  -- children come after their parents, so there is less behind them
  induction hk : d.nodes.size - x using Nat.strongRecOn generalizing x with
  | ind k ih =>
    obtain ⟨n, hn, hp⟩ := exists_of_phaseOf hx
    have hbelow : ∀ c ∈ n.children, ∃ s ids, GrownAt d s c ids := by
      intro c hc
      obtain ⟨hxc, hlt⟩ := h.after hn c hc
      have hclosed := (h.closed x _ hx (by simp)).2 c (by rwa [childrenOf_of_nodes hn])
      exact ih _ (hk ▸ Nat.sub_lt_sub_left (Nat.lt_trans hxc hlt) hxc) hclosed rfl
    obtain ⟨ss, ids, hss⟩ := exists_allGrownAt hbelow
    refine ⟨⟨n.kind, n.image, n.span, ss⟩, x :: ids, n.children, ids, ?_, hss, rfl⟩
    rw [look_of_nodes hn, ← hp]

mutual

/-- Where children come after their parents, the number of a node bounds the depth below it. -/
theorem Orderly.branchBelow (h : d.Orderly) : ∀ {s : Sprout} {x : DraftId} {ids : List DraftId} {fuel : Nat},
    GrownAt d s x ids → d.nodes.size ≤ fuel + x → d.branchBelow fuel x = .ok s.toBranch
  | ⟨_, _, _, _⟩, x, _, 0, ⟨_, _, hx, _, _⟩, hfuel => by
    rw [Nat.zero_add] at hfuel
    exact absurd (lt_size_of_look hx) (Nat.not_lt.mpr hfuel)
  | ⟨_, _, _, _⟩, x, _, fuel + 1, ⟨kids, below, hx, hb, _⟩, hfuel => by
    obtain ⟨p, hn, _⟩ := look_eq_some hx
    have hkids := h.mapM_branchBelow hb fun c hc => by
      rw [Nat.succ_add_eq_add_succ] at hfuel
      exact Nat.le_trans hfuel (Nat.add_le_add_left (h.after hn c hc).1 fuel)
    simp [Draft.branchBelow, closedNode, node, hn, hkids, bind, Except.bind, pure, Except.pure,
      Sprout.toBranch]

theorem Orderly.mapM_branchBelow (h : d.Orderly) : ∀ {ss : List Sprout} {xs ids : List DraftId} {fuel : Nat},
    AllGrownAt d ss xs ids → (∀ x ∈ xs, d.nodes.size ≤ fuel + x) →
    xs.mapM (d.branchBelow fuel) = .ok (Sprout.toBranches ss)
  | [], _, _, _, ⟨rfl, rfl⟩, _ => rfl
  | _ :: _, _, _, _, ⟨x, xs, own, others, rfl, rfl, hs, hss⟩, hfuel => by
    have hx := h.branchBelow hs (hfuel x List.mem_cons_self)
    have hxs := h.mapM_branchBelow hss fun y hy => hfuel y (List.mem_cons_of_mem x hy)
    simp [List.mapM_cons, hx, hxs, bind, Except.bind, pure, Except.pure, Sprout.toBranches]

end

mutual

/-- What hangs below the twin of a closed node is what hangs below the node, with its names settled. -/
theorem Twins.grown (h : Twins name e d) : ∀ {s : Sprout} {x : DraftId} {ids : List DraftId},
    GrownAt e s x ids →
    ∃ u own, GrownAt d u (name x) own ∧ u.toBranch = s.toBranch.disambiguated
  | ⟨kind, image, span, ss⟩, x, _, ⟨kids, below, hx, hb, _⟩ => by
    obtain ⟨p, hm, _⟩ := look_eq_some hx
    obtain ⟨n, hn, htwin⟩ := h.node x _ hm
    obtain ⟨us, own, hus, hbranches⟩ := h.allGrown hb
    have hlook : d.look (name x) = some ⟨kind, .closed, none, n.children, span, image⟩ := by
      rw [look_of_nodes hn, htwin.kind, htwin.phase, htwin.span, htwin.image]
    have hbranch : Branch.disambiguated (Sprout.toBranch ⟨kind, image, span, ss⟩) =
        Branch.settleFirst ⟨kind, image, span.getD default, Sprout.toBranches us⟩ := by
      rw [hbranches]
      rfl
    have hsettled := htwin.settled rfl
    dsimp only at hsettled
    rw [hbranch]
    generalize n.children = ys at hlook hsettled
    cases hsettled with
    | leaf =>
      cases us with
      | nil => exact ⟨⟨kind, image, span, []⟩, _, ⟨_, _, hlook, hus, rfl⟩, rfl⟩
      | cons u us =>
        obtain ⟨_, _, _, _, hnil, _⟩ := hus
        cases hnil
    | @first c z cs l child _ _ became =>
      cases us with
      | nil => cases hus.1
      | cons u us =>
        obtain ⟨_, _, mine, others, hcons, rfl, hu, hus⟩ := hus
        cases hcons
        -- the first child in the new reading, and the others
        obtain ⟨q, hl, _⟩ := look_eq_some child
        obtain ⟨n', hn', htwin'⟩ := h.node c _ hl
        obtain ⟨_, _, hlook', _, _⟩ := hu.root
        have hsame := Option.some.inj ((look_of_nodes hn').symm.trans hlook')
        have hkind : l.kind = u.kind := htwin'.kind.symm.trans (congrArg DraftNode.kind hsame)
        have himage : l.image = u.image := htwin'.image.symm.trans (congrArg DraftNode.image hsame)
        have hspan : l.span = u.span := htwin'.span.symm.trans (congrArg DraftNode.span hsame)
        rw [hkind, himage, hspan] at became
        obtain ⟨own', hgrown, _⟩ := became.grown hu
        refine ⟨⟨kind, image, span, u.read (.ofNode kind image u.kind) :: us⟩, _,
          ⟨z :: cs.map name, own' ++ others, hlook, ⟨z, _, own', others, rfl, rfl, hgrown, hus⟩, rfl⟩, ?_⟩
        have hkind : u.toBranch.kind = u.kind := by
          cases u
          rfl
        simp only [Sprout.toBranch, Sprout.toBranches, Branch.settleFirst, Sprout.toBranch_read, hkind]

theorem Twins.allGrown (h : Twins name e d) : ∀ {ss : List Sprout} {xs ids : List DraftId},
    AllGrownAt e ss xs ids → ∃ us own, AllGrownAt d us (xs.map name) own ∧
      Sprout.toBranches us = Branch.rebuiltAll Branch.settleFirst (Sprout.toBranches ss)
  | [], _, _, ⟨rfl, _⟩ => ⟨[], [], ⟨rfl, rfl⟩, rfl⟩
  | _ :: _, _, _, ⟨x, xs, _, _, rfl, _, hs, hss⟩ => by
    obtain ⟨u, own, hu, hbranch⟩ := h.grown hs
    obtain ⟨us, others, hus, hbranches⟩ := h.allGrown hss
    refine ⟨u :: us, own ++ others, ⟨name x, xs.map name, own, others, rfl, rfl, hu, hus⟩, ?_⟩
    rw [Sprout.toBranches, Sprout.toBranches, Branch.rebuiltAll, hbranch, hbranches]
    rfl

end

end Draft

namespace Builder

open Draft

variable {σ : Type} {text : String} {d d' e : Draft} {s s' : σ} {op : Operation} {ops : List Operation}
  {name number : DraftId → DraftId} {n : Nat} {c c' : Client σ}

/-- An operation on nodes that are there, with a finalizer that settles qualifiers and without one. `number`
is how the nodes are called. -/
theorem Effect.twins (heffect : Effect text .disambiguate (op.renamed number) d s d' s')
    (h : Twins name e d) (he : e.Orderly) (htimely : Timely e op) (hop : ∀ k, op ≠ .create k)
    (happ : ∀ p x, op = .append p x → e.phaseOf x = some .opened)
    (hnumber : ∀ id n, d.nodes[number id]? = some n → id < e.nodes.size ∧ number id = name id) :
    ∃ e', Effect text .inert op e () e' () ∧ Twins name e' d' := by
  have hopen {id : DraftId} {n : DraftNode} (hn : d.openNode (number id) = .ok n) :
      id < e.nodes.size ∧ number id = name id := hnumber id n (openNode_eq_ok.mp hn).1
  cases op with
  | create k => exact absurd rfl (hop k)
  | append p x =>
    cases heffect with
    | append appended =>
      obtain ⟨n, hn, hattach⟩ := bind_eq_ok.mp appended
      obtain ⟨hp, hpname⟩ := hopen hn
      obtain ⟨-, ⟨l, hl, -⟩, -⟩ := attach_eq_ok hattach
      rw [hpname, (hnumber x l hl).2] at appended
      obtain ⟨e', he', h'⟩ := h.append hp (happ p x rfl) appended
      exact ⟨e', .append he', h'⟩
  | setImage id image =>
    cases heffect with
    | setImage set =>
      obtain ⟨n, hn, -⟩ := bind_eq_ok.mp set
      obtain ⟨hlt, hname⟩ := hopen hn
      rw [hname] at set
      obtain ⟨e', he', h'⟩ := h.setImage hlt set
      exact ⟨e', .setImage he', h'⟩
  | pushImage id more =>
    cases heffect with
    | pushImage pushed =>
      obtain ⟨n, hn, -⟩ := bind_eq_ok.mp pushed
      obtain ⟨hlt, hname⟩ := hopen hn
      rw [hname] at pushed
      obtain ⟨e', he', h'⟩ := h.pushImage hlt pushed
      exact ⟨e', .pushImage he', h'⟩
  | extend id span =>
    cases heffect with
    | extend inside extended =>
      obtain ⟨n, hn, -⟩ := bind_eq_ok.mp extended
      obtain ⟨hlt, hname⟩ := hnumber id n (Draft.node_eq_ok.mp hn)
      rw [hname] at extended
      obtain ⟨e', he', h'⟩ := h.extend he hlt extended
      exact ⟨e', .extend inside he', h'⟩
  | close id =>
    cases heffect with
    | again found shut =>
      obtain ⟨hlt, hname⟩ := hnumber id _ found
      rw [hname] at found
      have hm := Array.getElem?_eq_getElem hlt
      exact ⟨e, .again hm ((h.twin hm found).phase ▸ shut), h⟩
    | close found opened starts run =>
      obtain ⟨hlt, hname⟩ := hnumber id _ found
      rw [hname] at found starts run ⊢
      have hm := Array.getElem?_eq_getElem hlt
      have htwin := h.twin hm found
      have hp := htwin.phase.symm.trans opened
      rw [htwin.live (by simp [hp])] at starts
      obtain ⟨e₁, hstart, h'⟩ := h.close he hm hp (htimely id rfl) starts run
      exact ⟨_, .close hm hp hstart rfl, h'⟩

namespace Client

theorem perform_create {k : Kind} : c.perform (.create k) = .ok c' ↔
    ∃ b, c.builder.perform (.create k) = .ok b ∧ c' = ⟨b, c.made ++ [c.builder.draft.nodes.size]⟩ := by
  rw [perform, bind_eq_ok]
  exact exists_congr fun b => and_congr_right fun _ => by simp [pure, Except.pure, eq_comm]

theorem perform_other (hop : ∀ k, op ≠ .create k) : c.perform op = .ok c' ↔
    ∃ b, c.builder.perform (op.renamed c.name) = .ok b ∧ c' = ⟨b, c.made⟩ := by
  rw [perform, bind_eq_ok]
  refine exists_congr fun b => and_congr_right fun _ => ?_
  cases op with
  | create k => exact absurd rfl (hop k)
  | _ => simp [pure, Except.pure, eq_comm]

theorem performAll_cons : c.performAll (op :: ops) = .ok c' ↔
    ∃ c₁, c.perform op = .ok c₁ ∧ c₁.performAll ops = .ok c' := by
  rw [performAll, List.foldlM_cons]
  exact bind_eq_ok

/-- The numbers of nodes stay. -/
theorem performAll_made (h : c.performAll ops = .ok c') : ∃ more, c'.made = c.made ++ more := by
  induction ops generalizing c with
  | nil =>
    cases h
    exact ⟨[], (List.append_nil _).symm⟩
  | cons op ops ih =>
    obtain ⟨c₁, hc₁, h⟩ := performAll_cons.mp h
    obtain ⟨more, hmore⟩ := ih h
    by_cases hop : ∃ k, op = .create k
    · obtain ⟨k, rfl⟩ := hop
      obtain ⟨b, -, rfl⟩ := perform_create.mp hc₁
      exact ⟨_, hmore.trans (List.append_assoc ..)⟩
    · obtain ⟨b, -, rfl⟩ := (perform_other fun k he => hop ⟨k, he⟩).mp hc₁
      exact ⟨more, hmore⟩

/-- Without its finalizer the client would have the draft `e`. -/
structure Shadow (text : String) (name : DraftId → DraftId) (e : Draft) (c : Client σ) : Prop where
  text : c.builder.text = text
  finalizer : c.builder.finalizer = .disambiguate
  made : c.made = (List.range e.nodes.size).map name
  twins : Twins name e c.builder.draft
  orderly : e.Orderly
  coherent : c.builder.draft.Coherent

theorem Shadow.name_eq (h : c.Shadow text name e) {id : DraftId} {m : DraftNode}
    (hm : c.builder.draft.nodes[c.name id]? = some m) : id < e.nodes.size ∧ c.name id = name id := by
  by_cases hlt : id < e.nodes.size
  · exact ⟨hlt, by simp [Client.name, h.made, hlt]⟩
  · have hnone : c.name id = c.builder.draft.nodes.size := by simp [Client.name, h.made, hlt]
    rw [hnone] at hm
    exact absurd (lt_size_of_nodes hm) (Nat.lt_irrefl _)

theorem Shadow.create {k : Kind} (h : c.Shadow text name e)
    (hname : name e.nodes.size = c.builder.draft.nodes.size) (hc : c.perform (.create k) = .ok c') :
    Effect text .inert (.create k) e () (e.create k).2 () ∧ c'.Shadow text name (e.create k).2 := by
  obtain ⟨⟨text, f, d, s⟩, made⟩ := c
  obtain ⟨b, hb, rfl⟩ := perform_create.mp hc
  obtain ⟨d', s', heffect, rfl⟩ := perform_iff.mp hb
  cases heffect with
  | create hk =>
    refine ⟨.create hk, h.text, h.finalizer, ?_, h.twins.create hname k, h.orderly.create k,
      h.coherent.create k⟩
    rw [size_create, List.range_succ, List.map_append, List.map_singleton, hname]
    exact congrArg (· ++ _) h.made

theorem Shadow.step (h : c.Shadow text name e) (htimely : Timely e op) (hop : ∀ k, op ≠ .create k)
    (happ : ∀ p x, op = .append p x → x + 1 = e.nodes.size ∧ e.phaseOf x = some .opened)
    (hc : c.perform op = .ok c') :
    ∃ e', Effect text .inert op e () e' () ∧ c'.Shadow text name e' := by
  have hnumber := fun id m (hm : c.builder.draft.nodes[c.name id]? = some m) => h.name_eq hm
  obtain ⟨b, hb, rfl⟩ := (perform_other hop).mp hc
  obtain ⟨⟨text', f, d, s⟩, made⟩ := c
  obtain ⟨rfl, rfl, hmade, htwins, he, hcoherent⟩ := h
  have hcoherent := perform_coherent hcoherent hb
  obtain ⟨d', s', heffect, rfl⟩ := perform_iff.mp hb
  obtain ⟨e', heffect', htwins'⟩ :=
    heffect.twins htwins he htimely hop (fun p x hpx => (happ p x hpx).2) hnumber
  refine ⟨e', heffect', rfl, rfl, ?_, htwins', heffect'.orderly he fun p x hpx => (happ p x hpx).1,
    hcoherent⟩
  rw [heffect'.size_eq hop]
  exact hmade

/-- A whole run. Its names are those that the client knows in the end. -/
theorem Shadow.performAll (hops : AtOnce n ops) (hn : e.nodes.size = n) (h : c.Shadow text name e)
    (htimely : (⟨text, .inert, e, ()⟩ : Builder Unit).Each Timely ops) (hrun : c.performAll ops = .ok c')
    (hname : ∀ i x, c'.made[i]? = some x → name i = x) :
    ∃ e', Builder.performAll ⟨text, .inert, e, ()⟩ ops = .ok ⟨text, .inert, e', ()⟩ ∧
      c'.Shadow text name e' := by
  -- the name of the next node, if it is created
  have hnext {c₁ : Client σ} {ops : List Operation} {c : Client σ} {e : Draft} (h : c.Shadow text name e)
      (hmade : c₁.made = c.made ++ [c.builder.draft.nodes.size]) (hrun : c₁.performAll ops = .ok c') :
      name e.nodes.size = c.builder.draft.nodes.size := by
    obtain ⟨more, hmore⟩ := performAll_made hrun
    refine hname _ _ ?_
    rw [hmore, hmade, h.made]
    simp
  have hstep {op : Operation} {e e' : Draft} (he : Effect text (.inert : Finalizer Unit) op e () e' ()) :
      Builder.perform ⟨text, .inert, e, ()⟩ op = .ok ⟨text, .inert, e', ()⟩ :=
    perform_iff.mpr ⟨e', (), he, rfl⟩
  induction hops generalizing c e with
  | done =>
    cases hrun
    exact ⟨e, rfl, h⟩
  | @root n k ops _ ih =>
    obtain ⟨c₁, hc₁, hrun⟩ := performAll_cons.mp hrun
    obtain ⟨b, -, hb⟩ := perform_create.mp hc₁
    obtain ⟨heffect, h₁⟩ := h.create (hnext h (by rw [hb]) hrun) hc₁
    obtain ⟨e', he', h'⟩ := ih ((size_create e k).trans (congrArg (· + 1) hn)) h₁
      (htimely.2 _ (hstep heffect)) hrun
    exact ⟨e', Builder.performAll_cons.mpr ⟨_, hstep heffect, he'⟩, h'⟩
  | @child n k p ops _ ih =>
    obtain ⟨c₁, hc₁, hrun⟩ := performAll_cons.mp hrun
    obtain ⟨b, -, hb⟩ := perform_create.mp hc₁
    obtain ⟨heffect, h₁⟩ := h.create (hnext h (by rw [hb]) hrun) hc₁
    obtain ⟨c₂, hc₂, hrun⟩ := performAll_cons.mp hrun
    have htimely₁ := htimely.2 _ (hstep heffect)
    have hsize := (size_create e k).trans (congrArg (· + 1) hn)
    have hopened : (e.create k).2.phaseOf n = some .opened := by
      rw [phaseOf_create, hn, Function.update_self]
    obtain ⟨e₂, heffect₂, h₂⟩ := h₁.step htimely₁.1 nofun
      (fun q x he => by cases he; exact ⟨hsize.symm, hopened⟩) hc₂
    obtain ⟨e', he', h'⟩ := ih ((heffect₂.size_eq nofun).trans hsize) h₂
      (htimely₁.2 _ (hstep heffect₂)) hrun
    exact ⟨e', Builder.performAll_cons.mpr ⟨_, hstep heffect,
      Builder.performAll_cons.mpr ⟨_, hstep heffect₂, he'⟩⟩, h'⟩
  | @other n op ops creates appends _ ih =>
    obtain ⟨c₁, hc₁, hrun⟩ := performAll_cons.mp hrun
    obtain ⟨e₁, heffect, h₁⟩ := h.step htimely.1 creates (fun p x he => absurd he (appends p x)) hc₁
    obtain ⟨e', he', h'⟩ := ih ((heffect.size_eq creates).trans hn) h₁ (htimely.2 _ (hstep heffect)) hrun
    exact ⟨e', Builder.performAll_cons.mpr ⟨_, hstep heffect, he'⟩, h'⟩

/-- What is finished is what hangs below the root without the finalizer, with its names settled. -/
theorem Shadow.finish (h : c.Shadow text name e) {root : DraftId} {t : Tree}
    (hfinish : c.finish root = .ok t) :
    ∃ s ids, GrownAt (e.placePending e.lastEnd) s root ids ∧
      t = .ofBranch text s.toBranch.disambiguated := by
  obtain ⟨m, branch, hm, hparent, -⟩ := exists_of_finish hfinish
  obtain ⟨hlt, hname⟩ := h.name_eq hm
  obtain ⟨order, stopped, left, -, -, hwalk⟩ := finish_of_walk h.coherent hm hparent
  cases stopped with
  | some misuse => cases hwalk.symm.trans hfinish
  | none =>
    obtain ⟨u, hu, hok⟩ := hwalk
    cases hok.symm.trans hfinish
    rw [hname, h.twins.lastEnd] at hu
    have htwins := h.twins.placePending h.orderly e.lastEnd
    -- the root is closed in both drafts
    obtain ⟨kids, below, hlook, -, -⟩ := hu.root
    obtain ⟨q, hn, -⟩ := look_eq_some hlook
    have hspans := respanned_placePending e e.lastEnd
    obtain ⟨l, hl⟩ : ∃ l, (e.placePending e.lastEnd).nodes[root]? = some l :=
      ⟨_, Array.getElem?_eq_getElem (hspans.size.symm ▸ hlt)⟩
    have hclosed : (e.placePending e.lastEnd).phaseOf root = some .closed := by
      rw [phaseOf_of_nodes hl, ← (htwins.twin hl hn).phase]
    obtain ⟨s, ids, hs⟩ := (h.orderly.placePending e.lastEnd).grown hclosed
    obtain ⟨v, own, hv, hbranch⟩ := htwins.grown hs
    exact ⟨s, ids, hs, by rw [← hbranch, hu.unique hv, h.text]⟩

end Client

/-- Settling qualifiers while a tree is built keeps spans, whatever is built by a client that gives each node
its parent when it creates it, unless a node with a qualifier is closed before it covers something. The tree
is the one that the same operations build without the finalizer, with its names settled: a type expression has
the span of what it is around, a class type that of the name it stands for, and all other nodes have theirs.
And if each token was reported in the innermost open node, all nodes of the tree stand inside their parents. -/
theorem rewriting_keeps_spans (text : String) (memory : σ) (hops : AtOnce 0 ops)
    (hrun : (Client.start text .disambiguate memory).performAll ops = .ok c) {root : DraftId} {t : Tree}
    (hfinish : c.finish root = .ok t) (htimely : (start text .inert ()).Each Timely ops) :
    ∃ b whole, (start text .inert ()).performAll ops = .ok b ∧
      (b.draft.placePending b.draft.lastEnd).branch root = .ok whole ∧
      (b.draft.parentOf root = none → b.finish root = .ok (.ofBranch text whole)) ∧
      t = .ofBranch text whole.disambiguated ∧
      ((start text .inert ()).Each Inward ops → ∀ x ∈ t.root.subtrees, x.Encloses) := by
  let name := fun i => c.made.getD i 0
  have hstart : (Client.start text .disambiguate memory).Shadow text name .empty :=
    ⟨rfl, rfl, rfl, .empty name, .empty, coherent_empty⟩
  obtain ⟨e, he, hshadow⟩ := hstart.performAll hops rfl htimely hrun fun i x hx => by simp [name, hx]
  obtain ⟨s, ids, hs, rfl⟩ := hshadow.finish hfinish
  have horderly := hshadow.orderly.placePending e.lastEnd
  have hbranch : (e.placePending e.lastEnd).branch root = .ok s.toBranch :=
    horderly.branchBelow hs (Nat.le_add_right ..)
  refine ⟨_, s.toBranch, he, hbranch, fun hroot => ?_, rfl, fun hin => ?_⟩
  · obtain ⟨kids, below, hlook, -, -⟩ := hs.root
    have hlt : root < e.nodes.size :=
      (respanned_placePending e e.lastEnd).size ▸ lt_size_of_look hlook
    have hm := Array.getElem?_eq_getElem hlt
    exact finish_eq text () hm ((parentOf_of_nodes hm).symm.trans hroot) hbranch
  · have hnests := (hops.orderly rfl rfl .empty he).2 hin fun x p hp => by cases hp
    exact Branch.lasting_encloses.disambiguated s.toBranch (hnests.encloses hshadow.orderly e.lastEnd hs)

/-- The arguments in `f(Id.this, 1)`. Settling `Id` makes three nodes before the last argument is created. -/
def outerThisArguments : List Operation :=
  [.create .argumentList, .extend 0 ⟨1, 2, by decide⟩, .create .thisExpression, .append 0 1,
    .create .ambiguousName, .append 1 2, .pushImage 2 "Id", .extend 2 ⟨2, 4, by decide⟩, .close 2,
    .extend 1 ⟨4, 9, by decide⟩, .close 1, .extend 0 ⟨9, 10, by decide⟩, .create .literal, .append 0 3,
    .extend 3 ⟨11, 12, by decide⟩, .close 3, .extend 0 ⟨12, 13, by decide⟩, .close 0]

theorem atOnce_outerThisArguments : AtOnce 0 outerThisArguments := by
  refine .root (.other nofun nofun (.child (.child ?_)))
  refine .other nofun nofun (.other nofun nofun (.other nofun nofun (.other nofun nofun ?_)))
  refine .other nofun nofun (.other nofun nofun (.child (.other nofun nofun ?_)))
  exact .other nofun nofun (.other nofun nofun (.other nofun nofun (.done _)))

theorem timely_outerThisArguments :
    (start "f(Id.this, 1)" Finalizer.inert ()).Each Timely outerThisArguments := by
  have hleaf {d : Draft} {id : DraftId} (h : d.childrenOf id = []) : Timely d (.close id) := by
    rintro _ ⟨⟩ ⟨n, l, c, cs, hn, -, -, hc, -⟩
    rw [childrenOf_of_nodes hn, hc] at h
    cases h
  have hplaced {d : Draft} {id : DraftId} (h : (d.spanOf id).isSome) : Timely d (.close id) := by
    rintro _ ⟨⟩ ⟨n, l, c, cs, hn, -, hs, -⟩
    rw [spanOf_of_nodes hn, hs] at h
    cases h
  refine .cons nofun rfl (.cons nofun rfl (.cons nofun rfl (.cons nofun rfl (.cons nofun rfl ?_))))
  refine .cons nofun rfl (.cons nofun rfl (.cons nofun rfl (.cons (hleaf rfl) rfl ?_)))
  refine .cons nofun rfl (.cons (hplaced rfl) rfl (.cons nofun rfl (.cons nofun rfl ?_)))
  refine .cons nofun rfl (.cons nofun rfl (.cons (hleaf rfl) rfl (.cons nofun rfl ?_)))
  exact .cons (hplaced rfl) rfl trivial

theorem inward_outerThisArguments :
    (start "f(Id.this, 1)" Finalizer.inert ()).Each Inward outerThisArguments := by
  have hin {d : Draft} {id : DraftId} {span : Span} {ids : List DraftId} (hids : d.Climb id ids)
      (hid : d.phaseOf id = some .opened)
      (h : ∀ j < d.nodes.size, d.phaseOf j = some .opened → j ∈ ids) : Inward d (.extend id span) := by
    rintro _ _ ⟨⟩
    exact hids.innermost hid h
  refine .cons nofun rfl (.cons (hin (.top rfl rfl rfl) rfl (by decide)) rfl ?_)
  refine .cons nofun rfl (.cons nofun rfl (.cons nofun rfl (.cons nofun rfl (.cons nofun rfl ?_))))
  refine .cons (hin (.step rfl rfl rfl (.step rfl rfl rfl (.top rfl rfl rfl))) rfl (by decide)) rfl ?_
  refine .cons nofun rfl (.cons (hin (.step rfl rfl rfl (.top rfl rfl rfl)) rfl (by decide)) rfl ?_)
  refine .cons nofun rfl (.cons (hin (.top rfl rfl rfl) rfl (by decide)) rfl ?_)
  refine .cons nofun rfl (.cons nofun rfl ?_)
  refine .cons (hin (.step rfl rfl rfl (.top rfl rfl rfl)) rfl (by decide)) rfl ?_
  refine .cons nofun rfl (.cons (hin (.top rfl rfl rfl) rfl (by decide)) rfl ?_)
  exact .cons nofun rfl trivial

theorem rewriting_keeps_spans_arguments : ∃ (c : Client Unit) (t : Tree) (b : Builder Unit) (whole : Branch),
    (Client.start "f(Id.this, 1)" Finalizer.disambiguate ()).performAll outerThisArguments = .ok c ∧
      c.finish 0 = .ok t ∧ t.size = 5 ∧
      (start "f(Id.this, 1)" Finalizer.inert ()).performAll outerThisArguments = .ok b ∧
      b.finish 0 = .ok (.ofBranch "f(Id.this, 1)" whole) ∧ t = .ofBranch "f(Id.this, 1)" whole.disambiguated ∧
      ∀ x ∈ t.root.subtrees, x.Encloses := by
  have hrun : (((Client.start "f(Id.this, 1)" Finalizer.disambiguate ()).performAll outerThisArguments >>=
      (·.finish 0)).toOption.map Tree.size) = some 5 := by decide +kernel
  obtain ⟨t, ht, hsize⟩ := Option.map_eq_some_iff.mp hrun
  obtain ⟨c, hc, hfinish⟩ := bind_eq_ok.mp (ok_of_toOption ht)
  obtain ⟨b, whole, hb, -, hroot, htree, hnests⟩ := rewriting_keeps_spans "f(Id.this, 1)" ()
    atOnce_outerThisArguments hc hfinish timely_outerThisArguments
  refine ⟨c, t, b, whole, hc, hfinish, hsize, hb, hroot ?_, htree, hnests inward_outerThisArguments⟩
  cases hb
  rfl

/-- A block with a method reference around an array type, and nothing was reported in these two when they are
closed. -/
def emptyReference : List Operation :=
  [.create .block, .extend 0 ⟨0, 2, by decide⟩, .create .methodReference, .append 0 1, .create .arrayType,
    .append 1 2, .close 2, .close 1, .close 0]

/-- What is settled too early stands at the start of the text: neither around the type nor inside the method
reference, which are placed when the block is closed. -/
theorem empty_reference_at_start : AtOnce 0 emptyReference ∧
    (start "\x7b\x7d" Finalizer.inert ()).Each Inward emptyReference ∧ ∃ (c : Client Unit) (t : Tree),
      (Client.start "\x7b\x7d" Finalizer.disambiguate ()).performAll emptyReference = .ok c ∧
      c.finish 0 = .ok t ∧ t.root = ⟨.block, none, ⟨0, 2, by decide⟩, [⟨.methodReference, none, .empty 2,
        [⟨.typeExpression, none, .empty 0, [⟨.arrayType, none, .empty 2, []⟩]⟩]⟩]⟩ := by
  refine ⟨?_, ?_, _, _, rfl, rfl, rfl⟩
  · refine .root (.other nofun nofun (.child (.child ?_)))
    exact .other nofun nofun (.other nofun nofun (.other nofun nofun (.done _)))
  · refine .cons nofun rfl (.cons ?_ rfl (.of_forall ?_))
    · rintro _ _ ⟨⟩
      exact (Climb.top rfl rfl rfl).innermost rfl (by decide)
    · rintro op hop d _ _ rfl
      simp at hop

end Builder

end JavaSyntax
