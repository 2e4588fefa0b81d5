import Mathlib.Data.List.Perm.Basic
import JavaSyntax.Proofs.Draft.Finished
import JavaSyntax.Proofs.Draft.Recording
import JavaSyntax.Proofs.Parse.Total
import JavaSyntax.Proofs.Tree.Neighbours

namespace JavaSyntax

namespace Builder

open Draft

variable {σ : Type} {b b' : Builder σ}

/-- The draft of a builder after an operation that closes no node. -/
theorem draft_create {k : Kind} (h : b.perform (.create k) = .ok b') :
    b'.draft = (b.draft.create k).2 := by
  simp only [perform, Builder.create] at h
  split at h
  · cases h
    rfl
  · cases h

theorem draft_append {p c : DraftId}
    (h : b.perform (.append p c) = .ok b') : b.draft.append p c = .ok b'.draft := by
  have h : b.onDraft (·.append p c) = .ok b' := h
  exact (onDraft_eq_ok h).1

theorem draft_pushImage {id : DraftId} {text : String}
    (h : b.perform (.pushImage id text) = .ok b') : b.draft.pushImage id text = .ok b'.draft := by
  have h : b.onDraft (·.pushImage id text) = .ok b' := h
  exact (onDraft_eq_ok h).1

theorem draft_extend {id : DraftId} {span : Span}
    (h : b.perform (.extend id span) = .ok b') : b.draft.extend id span = .ok b'.draft := by
  simp only [perform, Builder.extend] at h
  split at h
  · exact (onDraft_eq_ok h).1
  · cases h

end Builder

namespace Replay

open Builder (Operation performAll_single)

variable {σ : Type} {r r' : Replay σ} {e : Event}

/-- An event as operations, where the draft has `size` nodes, and the open nodes and the root after it. -/
inductive Acts (size : Nat) : List DraftId → Option DraftId → Event → List Operation →
    List DraftId → Option DraftId → Prop
  | root {k : Kind} : Acts size [] none (.start k) [.create k] [size] (some size)
  | start {k : Kind} {p : DraftId} {ps : List DraftId} {root : Option DraftId} :
    Acts size (p :: ps) root (.start k) [.create k, .append p size] (size :: p :: ps) root
  | token {t : Token} {inImage : Bool} {p : DraftId} {ps : List DraftId} {root : Option DraftId} :
    Acts size (p :: ps) root (.token t inImage)
      (.extend p t.span :: if inImage then [.pushImage p t.text] else []) (p :: ps) root
  | finish {p : DraftId} {ps : List DraftId} {root : Option DraftId} :
    Acts size (p :: ps) root .finish [.close p] ps root

theorem create_eq_ok {b b' : Builder σ} {k : Kind} {id : DraftId} :
    b.create k = .ok (id, b') ↔ b.perform (.create k) = .ok b' ∧ id = b.draft.nodes.size := by
  simp only [Builder.perform, Builder.create, Draft.create]
  split
  · constructor
    · intro h
      cases h
      exact ⟨rfl, rfl⟩
    · rintro ⟨h, rfl⟩
      cases h
      rfl
  · constructor
    · intro h
      cases h
    · rintro ⟨h, _⟩
      cases h

theorem acts_of_step (h : r.step e = .ok r') : ∃ ops,
    Acts r.builder.draft.nodes.size r.opened r.root e ops r'.opened r'.root ∧
      r.builder.performAll ops = .ok r'.builder := by
  obtain ⟨b, opened, root⟩ := r
  cases e with
  | start k =>
    obtain ⟨⟨id, b₁⟩, hcreate, h⟩ := Draft.bind_eq_ok.mp h
    obtain ⟨hb₁, rfl⟩ := create_eq_ok.mp hcreate
    cases opened with
    | nil =>
      cases root with
      | none =>
        cases h
        exact ⟨_, .root, performAll_single.mpr hb₁⟩
      | some x => cases h
    | cons p ps =>
      obtain ⟨b₂, hb₂, h⟩ := Draft.bind_eq_ok.mp h
      cases h
      exact ⟨_, .start, Builder.performAll_cons.mpr ⟨b₁, hb₁, performAll_single.mpr hb₂⟩⟩
  | token t inImage =>
    cases opened with
    | nil => cases h
    | cons p ps =>
      obtain ⟨b₁, hb₁, h⟩ := Draft.bind_eq_ok.mp h
      cases inImage with
      | false =>
        cases h
        exact ⟨_, .token, Builder.performAll_cons.mpr ⟨_, hb₁, rfl⟩⟩
      | true =>
        obtain ⟨b₂, hb₂, h⟩ := Draft.bind_eq_ok.mp h
        cases h
        exact ⟨_, .token, Builder.performAll_cons.mpr ⟨b₁, hb₁, performAll_single.mpr hb₂⟩⟩
  | finish =>
    cases opened with
    | nil => cases h
    | cons p ps =>
      obtain ⟨b₁, hb₁, h⟩ := Draft.bind_eq_ok.mp h
      cases h
      exact ⟨_, .finish, performAll_single.mpr hb₁⟩

theorem step_of_acts {ops : List Operation}
    (hacts : Acts r.builder.draft.nodes.size r.opened r.root e ops r'.opened r'.root)
    (h : r.builder.performAll ops = .ok r'.builder) : r.step e = .ok r' := by
  obtain ⟨b, opened, root⟩ := r
  obtain ⟨b', opened', root'⟩ := r'
  cases hacts with
  | root =>
    exact Draft.bind_eq_ok.mpr ⟨_, create_eq_ok.mpr ⟨performAll_single.mp h, rfl⟩, rfl⟩
  | start =>
    obtain ⟨b₁, hb₁, h⟩ := Builder.performAll_cons.mp h
    refine Draft.bind_eq_ok.mpr ⟨_, create_eq_ok.mpr ⟨hb₁, rfl⟩, ?_⟩
    exact Draft.bind_eq_ok.mpr ⟨_, performAll_single.mp h, rfl⟩
  | @token t inImage p ps _ =>
    obtain ⟨b₁, hb₁, h⟩ := Builder.performAll_cons.mp h
    refine Draft.bind_eq_ok.mpr ⟨b₁, hb₁, ?_⟩
    cases inImage with
    | false =>
      cases h
      rfl
    | true => exact Draft.bind_eq_ok.mpr ⟨b', performAll_single.mp h, rfl⟩
  | finish => exact Draft.bind_eq_ok.mpr ⟨b', performAll_single.mp h, rfl⟩

/-- One step of a replay performs the operations of its event. -/
theorem step_eq_ok : r.step e = .ok r' ↔ ∃ ops,
    Acts r.builder.draft.nodes.size r.opened r.root e ops r'.opened r'.root ∧
      r.builder.performAll ops = .ok r'.builder :=
  ⟨acts_of_step, fun ⟨_, hacts, h⟩ => step_of_acts hacts h⟩

end Replay

namespace Draft

variable {d d' : Draft} {x : DraftId} {xs ys out more : List DraftId}

/-- Nothing differs at other nodes than `x` but parents and spans. -/
def Alike (x : DraftId) (d d' : Draft) : Prop :=
  ∀ j ≠ x, ∀ n : DraftNode, d.nodes[j]? = some n →
    ∃ parent span, d'.nodes[j]? = some { n with parent, span }

/-- The nodes `xs` and all below them are closed, and `out` are these nodes in postorder. -/
inductive Posts (d : Draft) : (xs out : List DraftId) → Prop
  | nil : Posts d [] []
  | cons {x : DraftId} {n : DraftNode} {xs below rest : List DraftId} (found : d.nodes[x]? = some n)
    (closed : n.phase = .closed) (children : Posts d n.children below) (others : Posts d xs rest) :
    Posts d (x :: xs) (below ++ x :: rest)

theorem Posts.append (h : Posts d xs out) (h' : Posts d ys more) : Posts d (xs ++ ys) (out ++ more) := by
  induction h with
  | nil => exact h'
  | cons found closed children _ _ ih =>
    rw [List.append_assoc]
    exact .cons found closed children ih

theorem Posts.alike (h : Posts d xs out) (hx : d.phaseOf x ≠ some .closed) (ha : Alike x d d') :
    Posts d' xs out := by
  induction h with
  | nil => exact .nil
  | @cons y n xs below rest found closed _ _ ih ih' =>
    have hne : y ≠ x := by
      rintro rfl
      exact hx (by rw [phaseOf_of_nodes found, closed])
    obtain ⟨parent, span, hy⟩ := ha y hne n found
    exact .cons hy closed ih ih'

/-- The forest of closed nodes that hangs at the nodes `opened`, innermost first, each the last child of the
next. `last` is what the innermost one has open below it, and `out` is the forest in postorder. -/
inductive Unwinds (d : Draft) (root : Option DraftId) : (opened last out : List DraftId) → Prop
  | outside {kids last out : List DraftId} (all : root.toList = kids ++ last) (closed : Posts d kids out) :
    Unwinds d root [] last out
  | inside {x : DraftId} {n : DraftNode} {xs kids last out more : List DraftId}
    (found : d.nodes[x]? = some n) (isOpen : n.phase = .opened) (all : n.children = kids ++ last)
    (closed : Posts d kids more) (rest : Unwinds d root xs [x] out) :
    Unwinds d root (x :: xs) last (out ++ more)

variable {root : Option DraftId} {opened last : List DraftId}

theorem Unwinds.alike (h : Unwinds d root opened last out) (hx : d.phaseOf x ≠ some .closed)
    (hopened : x ∉ opened) (ha : Alike x d d') : Unwinds d' root opened last out := by
  induction h with
  | outside all closed => exact .outside all (closed.alike hx ha)
  | @inside y n xs kids last out more found isOpen all closed _ ih =>
    rw [List.mem_cons, not_or] at hopened
    obtain ⟨hne, hopened⟩ := hopened
    obtain ⟨parent, span, hy⟩ := ha y (Ne.symm hne) n found
    exact .inside hy isOpen all (closed.alike hx ha) (ih hopened)

/-- The last child is closed too. -/
theorem Unwinds.absorb (h : Unwinds d root opened [x] out) (hx : Posts d [x] more) :
    Unwinds d root opened [] (out ++ more) := by
  cases h with
  | outside all closed =>
    exact .outside (by rw [all, List.append_nil]) (closed.append hx)
  | inside found isOpen all closed rest =>
    rw [List.append_assoc]
    exact .inside found isOpen (by rw [all, List.append_nil]) (closed.append hx) rest

/-- The outermost open node is the root. -/
theorem Unwinds.root_opened {y : DraftId} {ys : List DraftId} (h : Unwinds d root (y :: ys) last out) :
    ∃ r, root = some r ∧ d.phaseOf r = some .opened := by
  induction ys generalizing y last out with
  | nil =>
    obtain _ | ⟨found, isOpen, _, _, rest⟩ := h
    cases rest with
    | outside all _ =>
      refine ⟨y, ?_, by rw [phaseOf_of_nodes found, isOpen]⟩
      have hlast := congrArg List.getLast? all
      rw [List.getLast?_concat] at hlast
      cases root with
      | none => cases hlast
      | some r => exact hlast
  | cons z zs ih =>
    obtain _ | ⟨_, _, _, _, rest⟩ := h
    exact ih rest

theorem Unwinds.lt_size (h : Unwinds d root opened last out) : ∀ y ∈ opened, y < d.nodes.size := by
  induction h with
  | outside => exact fun y hy => absurd hy List.not_mem_nil
  | inside found _ _ _ _ ih => exact List.forall_mem_cons.mpr ⟨lt_size_of_nodes found, ih⟩

/-- What a call found is what is there. -/
def Confirms (d : Draft) (call : Call) : Prop :=
  ∃ n : DraftNode, d.nodes[call.id]? = some n ∧ n.phase = .closed ∧ n.kind = call.node.kind ∧
    n.image = call.node.image ∧ n.children = call.node.children

theorem Confirms.alike {call : Call} (h : d.Confirms call) (hx : d.phaseOf x ≠ some .closed)
    (ha : Alike x d d') : d'.Confirms call := by
  obtain ⟨n, hn, hclosed, hsame⟩ := h
  have hne : call.id ≠ x := by
    rintro rfl
    exact hx (by rw [phaseOf_of_nodes hn, hclosed])
  obtain ⟨parent, span, hn'⟩ := ha call.id hne n hn
  exact ⟨_, hn', hclosed, hsame⟩

variable {calls : List Call} {p : DraftId} {ps : List DraftId} {n : DraftNode}

/-- Where a replay stands that notes the calls of its finalizer. -/
structure Unwound (d : Draft) (opened : List DraftId) (root : Option DraftId) (calls : List Call) :
    Prop where
  nodup : opened.Nodup
  order : Unwinds d root opened [] (calls.map Call.id)
  confirmed : ∀ call ∈ calls, d.Confirms call

/-- The innermost open node, and what stays when only that node changes. -/
theorem Unwound.top (h : d.Unwound (p :: ps) root calls) : ∃ (n : DraftNode) (out below : List DraftId),
    d.nodes[p]? = some n ∧ n.phase = .opened ∧ calls.map Call.id = out ++ below ∧
      ∀ d', Alike p d d' → d'.Posts n.children below ∧ d'.Unwinds root ps [p] out ∧
        ∀ call ∈ calls, d'.Confirms call := by
  obtain ⟨hnodup, order, confirmed⟩ := h
  generalize calls.map Call.id = ids at order
  obtain _ | ⟨found, isOpen, all, closed, rest⟩ := order
  rw [List.append_nil] at all
  have hopen : d.phaseOf p ≠ some .closed := by
    rw [phaseOf_of_nodes found, isOpen]
    exact nofun
  have hnot := (List.nodup_cons.mp hnodup).1
  exact ⟨_, _, _, found, isOpen, rfl, fun d' ha => ⟨(all ▸ closed).alike hopen ha,
    rest.alike hopen hnot ha, fun call hcall => (confirmed call hcall).alike hopen ha⟩⟩

theorem unwound_empty : empty.Unwound [] none [] :=
  ⟨List.nodup_nil, .outside rfl .nil, fun _ hc => absurd hc List.not_mem_nil⟩

theorem nodes_create_old {k : Kind} {j : DraftId} {n : DraftNode} (h : d.nodes[j]? = some n) :
    (d.create k).2.nodes[j]? = some n := by
  rw [nodes_create, if_neg (Nat.ne_of_lt (lt_size_of_nodes h)), h]

/-- A new node becomes the last child of an open one. -/
theorem nodes_create_append {k : Kind} {p : DraftId} {n : DraftNode} (hp : d.nodes[p]? = some n)
    (h : (d.create k).2.append p d.nodes.size = .ok d') : Alike p d d' ∧
      d'.nodes[p]? = some { n with children := n.children ++ [d.nodes.size] } ∧
      d'.nodes[d.nodes.size]? = some ⟨k, .opened, some p, [], none, none⟩ := by
  obtain ⟨_, _, h⟩ := bind_eq_ok.mp h
  obtain ⟨hne, _, _, rfl⟩ := attach_eq_ok h
  refine ⟨fun j hj m hm => ?_, ?_, ?_⟩
  · have hnew : d.nodes.size ≠ j := Ne.symm (Nat.ne_of_lt (lt_size_of_nodes hm))
    rw [nodes_update_ne _ (Ne.symm hj), nodes_update_ne _ hnew, nodes_create_old hm]
    exact ⟨m.parent, m.span, rfl⟩
  · rw [nodes_update, if_pos rfl, nodes_update_ne _ (Ne.symm hne), nodes_create_old hp]
    rfl
  · rw [nodes_update_ne _ hne, nodes_update, if_pos rfl, nodes_create, if_pos rfl]
    rfl

theorem nodes_extend {span : Span} (hp : d.nodes[p]? = some n) (h : d.extend p span = .ok d') :
    Alike p d d' ∧ ∃ span image, d'.nodes[p]? = some { n with span, image } := by
  have hspans := (respanned_extend h).nodes
  refine ⟨fun j _ m hm => ?_, ?_⟩
  · obtain ⟨span, hm', _⟩ := hspans j m hm
    exact ⟨m.parent, span, hm'⟩
  · obtain ⟨span, hp', _⟩ := hspans p n hp
    exact ⟨span, n.image, hp'⟩

theorem nodes_pushImage {text : String} (hp : d.nodes[p]? = some n)
    (h : d.pushImage p text = .ok d') :
    Alike p d d' ∧ ∃ span image, d'.nodes[p]? = some { n with span, image } := by
  obtain ⟨_, _, h⟩ := bind_eq_ok.mp h
  cases h
  refine ⟨fun j hj m hm => ?_, ?_⟩
  · rw [nodes_update_ne _ (Ne.symm hj), hm]
    exact ⟨m.parent, m.span, rfl⟩
  · rw [nodes_update, if_pos rfl, hp]
    exact ⟨n.span, _, rfl⟩

/-- Closing a node when the finalizer does nothing. -/
theorem nodes_close (hp : d.nodes[p]? = some n) (h : d.startClosing p n = .ok d') :
    Alike p d (d'.endClosing p) ∧
      ∃ span, (d'.endClosing p).nodes[p]? = some { n with phase := .closed, span } := by
  obtain ⟨e, he, hnodes, _⟩ := startClosing_eq_ok h
  refine ⟨fun j hj m hm => ?_, ?_⟩
  · obtain ⟨span, hm', _⟩ := he.nodes j m ((nodes_update_ne _ (Ne.symm hj)).trans hm)
    rw [endClosing, nodes_update_ne _ (Ne.symm hj), ← hnodes, hm']
    exact ⟨m.parent, span, rfl⟩
  · have hstarted : (d.update p fun n => { n with phase := .finalizing }).nodes[p]? =
        some { n with phase := .finalizing } := by
      rw [nodes_update, if_pos rfl, hp]
      rfl
    obtain ⟨span, hp', _⟩ := he.nodes p _ hstarted
    rw [endClosing, nodes_update, if_pos rfl, ← hnodes, hp']
    exact ⟨span, rfl⟩

theorem Unwound.create (h : d.Unwound [] none calls) (k : Kind) :
    (d.create k).2.Unwound [d.nodes.size] (some d.nodes.size) calls := by
  have order := h.order
  generalize hids : calls.map Call.id = ids at order
  obtain ⟨all, closed⟩ | _ := order
  obtain rfl := (List.append_eq_nil_iff.mp all.symm).1
  cases closed
  obtain rfl := List.map_eq_nil_iff.mp hids
  have hnew := (nodes_create d k d.nodes.size).trans (if_pos rfl)
  exact ⟨List.nodup_singleton _, .inside hnew rfl rfl .nil (.outside rfl .nil),
    fun _ hc => absurd hc List.not_mem_nil⟩

theorem Unwound.append {k : Kind} (h : d.Unwound (p :: ps) root calls)
    (happend : (d.create k).2.append p d.nodes.size = .ok d') :
    d'.Unwound (d.nodes.size :: p :: ps) root calls := by
  obtain ⟨n, out, below, hp, hopen, hids, hframe⟩ := h.top
  obtain ⟨ha, hp', hnew⟩ := nodes_create_append hp happend
  obtain ⟨hbelow, hrest, hconfirmed⟩ := hframe d' ha
  refine ⟨List.nodup_cons.mpr ⟨fun hm => ?_, h.nodup⟩, ?_, hconfirmed⟩
  · exact Nat.lt_irrefl _ (h.order.lt_size _ hm)
  · rw [hids, ← List.append_nil (out ++ below)]
    exact .inside hnew rfl rfl .nil (.inside hp' hopen rfl hbelow hrest)

/-- The innermost open node gets another span or image. -/
theorem Unwound.change (h : d.Unwound (p :: ps) root calls)
    (hchange : ∀ n, d.nodes[p]? = some n →
      Alike p d d' ∧ ∃ span image, d'.nodes[p]? = some { n with span, image }) :
    d'.Unwound (p :: ps) root calls := by
  obtain ⟨n, out, below, hp, hopen, hids, hframe⟩ := h.top
  obtain ⟨ha, span, image, hp'⟩ := hchange n hp
  obtain ⟨hbelow, hrest, hconfirmed⟩ := hframe d' ha
  refine ⟨h.nodup, ?_, hconfirmed⟩
  rw [hids]
  exact .inside hp' hopen (List.append_nil _).symm hbelow hrest

/-- The innermost open node is closed, and its call is noted. -/
theorem Unwound.close {call : Call} {span : Option Span} (h : d.Unwound (p :: ps) root calls)
    (hp : d.nodes[p]? = some n) (hstart : d.startClosing p n = .ok d') (named : call.id = p)
    (hnode : call.node = { n with phase := .finalizing, span }) :
    (d'.endClosing p).Unwound ps root (calls ++ [call]) := by
  subst named
  obtain ⟨m, out, below, hm, hopen, hids, hframe⟩ := h.top
  cases hp.symm.trans hm
  obtain ⟨ha, span', hp'⟩ := nodes_close hp hstart
  obtain ⟨hbelow, hrest, hconfirmed⟩ := hframe _ ha
  refine ⟨(List.nodup_cons.mp h.nodup).2, ?_, fun c hc => ?_⟩
  · rw [List.map_append, hids, List.map_singleton, List.append_assoc]
    exact hrest.absorb (.cons hp' rfl hbelow .nil)
  · rcases List.mem_append.mp hc with hc | hc
    · exact hconfirmed c hc
    · obtain rfl := List.mem_singleton.mp hc
      exact ⟨_, hp', rfl, by rw [hnode]; exact ⟨rfl, rfl, rfl⟩⟩

end Draft

namespace Replay

open Builder Draft

variable {text : String} {d d' : Draft} {opened opened' : List DraftId} {root root' : Option DraftId}
  {e : Event} {ops : List Operation} {calls more : List Call}

/-- An event leaves the calls in order. -/
theorem Acts.unwound (hacts : Acts d.nodes.size opened root e ops opened' root')
    (hops : performAll ⟨text, Finalizer.inert, d, ()⟩ ops = .ok ⟨text, .inert, d', ()⟩)
    (hcalls : Calls ⟨text, Finalizer.inert, d, ()⟩ ops more) (hu : d.Unwound opened root calls) :
    d'.Unwound opened' root' (calls ++ more) := by
  cases hacts with
  | @root k =>
    obtain rfl := hcalls.eq_nil (by simp)
    have hd' := draft_create (performAll_single.mp hops)
    dsimp only at hd'
    rw [List.append_nil, hd']
    exact hu.create k
  | start =>
    obtain rfl := hcalls.eq_nil (by simp)
    obtain ⟨b₁, hb₁, hops⟩ := performAll_cons.mp hops
    have happend := draft_append (performAll_single.mp hops)
    rw [draft_create hb₁] at happend
    rw [List.append_nil]
    exact hu.append happend
  | @token t inImage p ps _ =>
    obtain rfl := hcalls.eq_nil (by cases inImage <;> simp)
    obtain ⟨b₁, hb₁, hops⟩ := performAll_cons.mp hops
    have hu₁ := hu.change fun n hn => nodes_extend hn (draft_extend hb₁)
    rw [List.append_nil]
    cases inImage with
    | false =>
      cases hops
      exact hu₁
    | true =>
      have hpush := draft_pushImage (performAll_single.mp hops)
      exact hu₁.change fun n hn => nodes_pushImage hn hpush
  | @finish p ps _ =>
    obtain ⟨n, _, _, hp, hopen, _⟩ := hu.top
    obtain ⟨n', hp', ⟨hshut, _⟩ | ⟨_, started, d₂, memory, hstart, hrun, heq⟩⟩ :=
      close_eq_ok.mp (performAll_single.mp hops)
    · cases hp.symm.trans hp'
      exact absurd hopen hshut
    cases hp.symm.trans hp'
    cases hrun
    cases heq
    cases hcalls with
    | silent idle =>
      refine absurd ?_ (idle p rfl)
      rw [phaseOf_of_nodes hp, hopen]
    | called now performed later =>
      cases later
      obtain ⟨m, span, hm, _, hnode⟩ := now.node
      cases hp.symm.trans hm
      exact hu.close hp hstart now.named hnode

/-- A whole replay, with and without the list of calls. -/
theorem run_unwound {es : List Event} {r : Replay Unit} (hd : d.Coherent)
    (hu : d.Unwound opened root calls)
    (h : es.foldlM step ⟨⟨text, .inert, d, ()⟩, opened, root⟩ = .ok r) : ∃ d' calls',
      r.builder = ⟨text, .inert, d', ()⟩ ∧
      es.foldlM step ⟨⟨text, .recorder, d, calls⟩, opened, root⟩ =
        .ok ⟨⟨text, .recorder, d', calls'⟩, r.opened, r.root⟩ ∧
      d'.Coherent ∧ d'.Unwound r.opened r.root calls' := by
  induction es generalizing d opened root calls with
  | nil =>
    cases h
    exact ⟨d, calls, rfl, rfl, hd, hu⟩
  | cons e es ih =>
    rw [List.foldlM_cons] at h
    obtain ⟨⟨b₁, opened₁, root₁⟩, hstep, h⟩ := bind_eq_ok.mp h
    obtain ⟨ops, hacts, hops⟩ := step_eq_ok.mp hstep
    have hd₁ := performAll_coherent hd hops
    obtain ⟨d₁, m₁, more, rfl, hrecorded, hnoted, hcalls⟩ :=
      performAll_recorded (m := calls) Finalizer.recorder_records hd hops
    have hm : m₁ = calls ++ more := hnoted
    subst hm
    obtain ⟨d', calls', hr, hrun, hfinal⟩ := ih hd₁ (hacts.unwound hops hcalls hu) h
    refine ⟨d', calls', hr, ?_, hfinal⟩
    rw [List.foldlM_cons]
    exact bind_eq_ok.mpr ⟨_, step_eq_ok.mpr ⟨ops, hacts, hrecorded⟩, hrun⟩

end Replay

namespace Tree

variable {t : Tree}

/-- The nodes of a subtree, each after its children. -/
def postorder (t : Tree) (n : NodeId) : List NodeId :=
  ((t.children n).attach.flatMap fun c =>
    have := lt_of_mem_children c.2
    t.postorder c.1) ++ [n]
termination_by t.size - n

theorem postorder_eq (t : Tree) (n : NodeId) :
    t.postorder n = (t.children n).flatMap t.postorder ++ [n] := by
  rw [postorder, List.flatMap_subtype fun _ _ => rfl, List.unattach_attach]

theorem postorder_perm (t : Tree) (n : Nat) : (t.postorder n).Perm (t.preorder n) := by
  rw [postorder_eq, preorder_eq]
  refine (List.perm_append_singleton _ _).trans (List.Perm.cons n ?_)
  refine List.Perm.flatMap_left _ fun c hc => ?_
  have := lt_of_mem_children hc
  exact postorder_perm t c
termination_by t.size - n

/-- Each node comes once. -/
theorem postorder_root_perm (t : Tree) : (t.postorder 0).Perm (List.range t.size) := by
  rw [List.range_eq_range', t.size_eq, ← t.rooted_root.preorder_eq]
  exact t.postorder_perm 0

/-- The calls are those for the nodes of the tree in postorder, with what these are in the end. -/
structure RecordedIn (t : Tree) (calls : List Call) : Prop where
  each_once : (t.postorder 0).Perm (List.range t.size)
  calls_eq : ∃ draftId : NodeId → DraftId,
    (∀ m < t.size, ∀ n < t.size, draftId m = draftId n → m = n) ∧
    calls.map (fun c => (c.id, c.node.kind, c.node.image, c.node.children)) =
      (t.postorder 0).map fun n => (draftId n, t.kind n, t.image n, (t.children n).map draftId)

end Tree

namespace Draft

variable {d : Draft} {root : DraftId} {order xs out : List DraftId} {t : Tree}

/-- The draft node of a node of the tree. -/
def draftId (order : List DraftId) (n : NodeId) : DraftId := order[n]?.getD 0

theorem map_draftId {ns : List NodeId} (h : ns.map (order[·]?) = xs.map some) :
    ns.map (draftId order) = xs := by
  have := congrArg (List.map (Option.getD · 0)) h
  rw [List.map_map, List.map_map] at this
  exact this.trans (List.map_id xs)

/-- What a call finds of a node. -/
def found (d : Draft) (id : DraftId) : Option (DraftId × Kind × Option String × List DraftId) :=
  d.nodes[id]?.map fun n => (id, n.kind, n.image, n.children)

/-- The closed nodes below a root are the nodes of its tree, and in the same order. -/
theorem Posts.postorder (h : d.Posts xs out) (ht : d.Mirrored root order t) {ns : List NodeId}
    (hns : ns.map (order[·]?) = xs.map some) :
    (ns.flatMap t.postorder).map (order[·]?) = out.map some := by
  induction h generalizing ns with
  | nil =>
    obtain rfl := List.map_eq_nil_iff.mp hns
    rfl
  | @cons x m xs below rest found closed _ _ ih ih' =>
    cases ns with
    | nil => cases hns
    | cons n ns =>
      obtain ⟨hn, hns⟩ := List.cons.inj hns
      obtain ⟨m', hm', _, _, _, hchildren⟩ := ht.node n x hn
      cases found.symm.trans hm'
      rw [List.flatMap_cons, Tree.postorder_eq, List.map_append, List.map_append, ih hchildren,
        ih' hns, List.append_assoc, List.map_append]
      exact congrArg (below.map some ++ · :: rest.map some) hn

/-- A tree that is finished when all is unwound was gone over in postorder. -/
theorem Unwound.recordedIn {opened : List DraftId} {calls : List Call}
    (hu : d.Unwound opened (some root) calls) (ht : d.Mirrored root order t) : t.RecordedIn calls := by
  have hfirst := ht.first
  obtain ⟨m, hm, hclosed, _⟩ := ht.node 0 root hfirst
  -- nothing is open any more, as the root is closed
  have hopened : opened = [] := by
    cases opened with
    | nil => rfl
    | cons y ys =>
      obtain ⟨r, hr, hopen⟩ := hu.order.root_opened
      cases hr
      rw [phaseOf_of_nodes hm, hclosed] at hopen
      cases hopen
  subst hopened
  have hids : d.Posts [root] (calls.map Call.id) := by
    have horder := hu.order
    generalize calls.map Call.id = ids at horder
    obtain ⟨all, closed⟩ | _ := horder
    rw [List.append_nil] at all
    exact Eq.subst (motive := (Posts d · ids)) all.symm closed
  have hpost : ([0].flatMap t.postorder).map (order[·]?) = (calls.map Call.id).map some :=
    hids.postorder ht (by rw [List.map_singleton, hfirst]; rfl)
  rw [List.flatMap_singleton] at hpost
  refine ⟨t.postorder_root_perm, draftId order, fun m hm n hn heq => ?_, ?_⟩
  · rw [ht.size] at hm hn
    rw [draftId, draftId, List.getElem?_eq_getElem hm, List.getElem?_eq_getElem hn] at heq
    exact (ht.nodup.getElem_inj_iff).mp heq
  · have hcalls : calls.map Call.id = (t.postorder 0).map (draftId order) := (map_draftId hpost).symm
    have hfound : ∀ call ∈ calls,
        some (call.id, call.node.kind, call.node.image, call.node.children) = d.found call.id := by
      intro call hcall
      obtain ⟨n, hn, _, hkind, himage, hchildren⟩ := hu.confirmed call hcall
      rw [found, hn, Option.map_some, hkind, himage, hchildren]
    have htree : ∀ n ∈ t.postorder 0, d.found (draftId order n) =
        some (draftId order n, t.kind n, t.image n, (t.children n).map (draftId order)) := by
      intro n hn
      rw [t.postorder_root_perm.mem_iff, List.mem_range, ht.size] at hn
      have hid : order[n]? = some (draftId order n) := by
        rw [draftId, List.getElem?_eq_getElem hn, Option.getD_some]
      obtain ⟨m, hm, _, hkind, himage, hchildren⟩ := ht.node n _ hid
      rw [found, hm, Option.map_some, hkind, himage, map_draftId hchildren]
    refine List.map_injective_iff.mpr (fun _ _ => Option.some.inj) ?_
    calc (calls.map _).map some = (calls.map Call.id).map d.found := by
          rw [List.map_map, List.map_map]
          exact List.map_congr_left hfound
      _ = ((t.postorder 0).map (draftId order)).map d.found := by rw [hcalls]
      _ = ((t.postorder 0).map _).map some := by
          rw [List.map_map, List.map_map]
          exact List.map_congr_left htree

end Draft

/-- A tree that is built without a finalizer is built with its calls noted as well. -/
theorem buildTree_recorded {text : String} {es : List Event} {t : Tree}
    (h : buildTree text .inert () es = .ok (t, ())) :
    ∃ calls, buildTree text .recorder [] es = .ok (t, calls) ∧ t.RecordedIn calls := by
  obtain ⟨r, hrun, h⟩ := Draft.bind_eq_ok.mp h
  obtain ⟨t', hfinish, h⟩ := Draft.bind_eq_ok.mp h
  cases h
  obtain ⟨d, calls, hr, hrecorded, hd, hu⟩ := Replay.run_unwound Draft.coherent_empty Draft.unwound_empty hrun
  obtain ⟨b, opened, root⟩ := r
  cases hr
  cases root with
  | none => cases hfinish
  | some root =>
    obtain ⟨order, ht⟩ := Builder.exists_mirrored (b := ⟨text, .inert, d, ()⟩) hd hfinish
    obtain ⟨n, branch, hn, hparent, hbranch, heq⟩ := Builder.exists_of_finish hfinish
    refine ⟨calls, Draft.bind_eq_ok.mpr ⟨_, hrecorded, Draft.bind_eq_ok.mpr ⟨_, ?_, rfl⟩⟩,
      hu.recordedIn ht⟩
    exact heq ▸ Builder.finish_eq text calls hn hparent hbranch

theorem parseWith_recorded (text : String) : ∃ p calls, parseWith text .inert () = .ok (p, ()) ∧
    parseWith text .recorder [] = .ok (p, calls) ∧ p.tree.RecordedIn calls := by
  obtain ⟨p, hparse⟩ : ∃ p, parseWith text .inert () = .ok (p, ()) := ⟨_, parseWith_inert text⟩
  obtain ⟨⟨t, ⟨⟩⟩, hbuild, h⟩ := Draft.bind_eq_ok.mp hparse
  cases h
  obtain ⟨calls, hcalls, hrecorded⟩ := buildTree_recorded hbuild
  exact ⟨_, calls, hparse, Draft.bind_eq_ok.mpr ⟨(t, calls), hcalls, rfl⟩, hrecorded⟩

/-- Whatever the operations and the finalizer, it is called once for each node that was closed while it was
open, after the children of that node, and for no other node. A parse that only notes the calls makes the same
tree as one that does nothing, and its calls go over the tree in postorder. -/
theorem finalized_once :
    (∀ {σ : Type} (text : String) (f : Finalizer σ) (memory : σ) (ops : List Builder.Operation)
      (b : Builder σ), (Builder.start text f memory).performAll ops = .ok b → ∃ calls,
        (Builder.start text f.recorded (memory, [])).performAll ops =
          .ok ⟨text, f.recorded, b.draft, (b.memory, calls)⟩ ∧
        (Builder.start text f memory).CalledOnce ops b calls) ∧
    ∀ text : String, ∃ p calls, parseWith text .inert () = .ok (p, ()) ∧
      parseWith text .recorder [] = .ok (p, calls) ∧ p.tree.RecordedIn calls := by
  refine ⟨fun text f memory ops b h => ?_, parseWith_recorded⟩
  obtain ⟨d, m, calls, rfl, hrun, hnoted, hcalls⟩ :=
    Builder.performAll_recorded (m := (memory, [])) f.recorded_records Draft.coherent_empty h
  rw [List.nil_append] at hnoted
  exact ⟨m.2, hrun, hnoted ▸ hcalls.calledOnce rfl h⟩

/-- `A.this`, with nodes that are closed again and again. -/
def outerThis : List Builder.Operation :=
  [.create .thisExpression, .create .ambiguousName, .append 0 1, .extend 1 ⟨0, 1, by decide⟩,
    .pushImage 1 "A", .close 1, .close 1, .extend 0 ⟨1, 6, by decide⟩, .close 0, .close 1, .close 0]

/-- While the outer node is closed, three nodes are made, which are never finalized. -/
theorem finalized_once_outer_this : ∃ (b : Builder Unit) (calls : List Call),
    (Builder.start "A.this" Finalizer.disambiguate ()).performAll outerThis = .ok b ∧
      (Builder.start "A.this" Finalizer.disambiguate ()).CalledOnce outerThis b calls ∧
      b.draft.nodes.size = 5 ∧ calls.map Call.id = [1, 0] := by
  have hrun : ((Builder.start "A.this" Finalizer.disambiguate ()).performAll outerThis).toOption.map
      (·.draft.nodes.size) = some 5 := by decide +kernel
  have hnoted : ((Builder.start "A.this" Finalizer.disambiguate.recorded ((), [])).performAll
      outerThis).toOption.map (·.memory.2.map Call.id) = some [1, 0] := by decide +kernel
  obtain ⟨b, hb, hsize⟩ := Option.map_eq_some_iff.mp hrun
  have hb := Builder.ok_of_toOption hb
  obtain ⟨calls, hrecorded, honce⟩ := finalized_once.1 _ _ _ _ b hb
  obtain ⟨b', hb', hids⟩ := Option.map_eq_some_iff.mp hnoted
  obtain rfl := Except.ok.inj ((Builder.ok_of_toOption hb').symm.trans hrecorded)
  exact ⟨b, calls, hb, honce, hsize, hids⟩

end JavaSyntax
