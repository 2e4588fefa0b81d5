import JavaSyntax.Proofs.Tree.Traversal
import JavaSyntax.Tree.Visitor

namespace JavaSyntax

namespace Preorder

variable {t : Tree} {stop : Kind → Bool} {p q r : Preorder} {es es' : List WalkEvent}

/-- The calls of a walk from `p` on give some events and lead to `q`. -/
inductive Emits (t : Tree) (stop : Kind → Bool) : Preorder → List WalkEvent → Preorder → Prop
  | done (p : Preorder) : Emits t stop p [] p
  | event {p q r : Preorder} {e : WalkEvent} {es : List WalkEvent}
    (first : p.nextSkipping t stop = some (e, q)) (rest : Emits t stop q es r) :
    Emits t stop p (e :: es) r

theorem Emits.append (h : Emits t stop p es q) (h' : Emits t stop q es' r) :
    Emits t stop p (es ++ es') r := by
  induction h with
  | done p => exact h'
  | event first _ ih => exact .event first (ih h')

theorem emits_single {e : WalkEvent} (h : p.nextSkipping t stop = some (e, q)) :
    Emits t stop p [e] q :=
  .event h (.done q)

/-- There is a subtree to skip after each node that is entered. -/
theorem exists_skipSubtree {n : NodeId} (h : p.next t = some (.enter n, q)) :
    ∃ q', q.skipSubtree = .ok q' := by
  obtain ⟨opened, start⟩ := p
  unfold next at h
  split at h
  · split at h
    · cases h
    · cases h
      exact ⟨_, rfl⟩
  · cases h
  · cases h
    exact ⟨_, rfl⟩

theorem nextSkipping_enter {n c : NodeId} {cs : List NodeId} {opened : List (NodeId × List NodeId)} :
    nextSkipping t stop ⟨(n, c :: cs) :: opened, none⟩ =
      some (.enter c, ⟨if stop (t.kind c) then (n, cs) :: opened
        else (c, t.children c) :: (n, cs) :: opened, none⟩) := by
  simp only [nextSkipping, next]
  split <;> rfl

/-- Each child in turn is entered and left, and then the node itself is left. -/
theorem emits_below {n : Nat} (cs : List NodeId) (h : ∀ c ∈ cs, c ∈ t.children n)
    (opened : List (NodeId × List NodeId)) : Emits t stop ⟨(n, cs) :: opened, none⟩
      (cs.flatMap (t.brackets stop) ++ [.leave n]) ⟨opened, none⟩ := by
  induction cs with
  | nil => exact emits_single rfl
  | cons c cs ih =>
    rw [List.flatMap_cons, Tree.brackets_eq, List.append_assoc]
    have hc := Tree.lt_of_mem_children (h c List.mem_cons_self)
    have hmore := ih fun d hd => h d (List.mem_cons_of_mem c hd)
    refine .event nextSkipping_enter ?_
    split
    · exact hmore
    · exact (emits_below (t.children c) (fun _ hd => hd) ((n, cs) :: opened)).append hmore
termination_by t.size - n

theorem emits_ofNode (t : Tree) (stop : Kind → Bool) (n : NodeId) :
    Emits t stop (.ofNode n) (t.brackets stop n) ⟨[], none⟩ := by
  have hfirst : nextSkipping t stop (.ofNode n) = some (.enter n,
      ⟨if stop (t.kind n) then [] else [(n, t.children n)], none⟩) := by
    simp only [nextSkipping, next, ofNode]
    split <;> rfl
  rw [Tree.brackets_eq]
  refine .event hfirst ?_
  split
  · exact .done _
  · exact emits_below (t.children n) (fun _ hc => hc) []

/-- The answer to a call, and the walk after it. A walk that has ended stays as it is. -/
def call (t : Tree) (stop : Kind → Bool) (p : Preorder) : Option WalkEvent × Preorder :=
  match p.nextSkipping t stop with
  | none => (none, p)
  | some (e, q) => (some e, q)

/-- The answer to a call that comes after some others. -/
def answer (t : Tree) (stop : Kind → Bool) : Nat → Preorder → Option WalkEvent
  | 0, p => (p.call t stop).1
  | k + 1, p => answer t stop k (p.call t stop).2

theorem answer_ended (h : p.nextSkipping t stop = none) (k : Nat) : p.answer t stop k = none := by
  induction k with
  | zero => rw [answer, call, h]
  | succ k ih => rw [answer, call, h]; exact ih

/-- Once all events are there, the answers are over for good. -/
theorem Emits.answer_eq (h : Emits t stop p es q) (hq : q.nextSkipping t stop = none) (k : Nat) :
    p.answer t stop k = es[k]? := by
  induction h generalizing k with
  | done p => rw [answer_ended hq, List.getElem?_nil]
  | event first _ ih =>
    cases k with
    | zero => rw [answer, call, first]; rfl
    | succ k => rw [answer, call, first, List.getElem?_cons_succ]; exact ih hq k

theorem Emits.eventsWithin_eq (h : Emits t stop p es q) (hq : q.nextSkipping t stop = none)
    {fuel : Nat} (hfuel : es.length ≤ fuel) : p.eventsWithin t stop fuel = es := by
  induction h generalizing fuel with
  | done p =>
    cases fuel with
    | zero => rfl
    | succ fuel => rw [eventsWithin, hq]
  | event first _ ih =>
    cases fuel with
    | zero => cases hfuel
    | succ fuel =>
      rw [eventsWithin, first]
      exact congrArg _ (ih hq (Nat.le_of_succ_le_succ hfuel))

end Preorder

namespace Tree

variable {t : Tree} {stop : Kind → Bool} {n m : Nat}

/-- Each node is entered and left once at most. -/
theorem length_brackets_le (t : Tree) (stop : Kind → Bool) (n : Nat) :
    (t.brackets stop n).length ≤ 2 * (t.preorder n).length := by
  have hbelow : ∀ cs : List Nat, (∀ c ∈ cs, c ∈ t.children n) →
      (cs.flatMap (t.brackets stop)).length ≤ 2 * (cs.flatMap t.preorder).length := by
    intro cs hcs
    induction cs with
    | nil => exact Nat.le_refl 0
    | cons c cs ih =>
      have hlt := lt_of_mem_children (hcs c List.mem_cons_self)
      have hc := length_brackets_le t stop c
      have hmore := ih fun d hd => hcs d (List.mem_cons_of_mem c hd)
      rw [List.flatMap_cons, List.flatMap_cons, List.length_append, List.length_append]
      omega
  have hchildren := hbelow (t.children n) fun _ hc => hc
  rw [brackets_eq, preorder_eq]
  split <;> simp only [List.length_cons, List.length_append, List.length_nil] <;> omega
termination_by t.size - n

theorem events_ofNode_eq (h : n < t.size) :
    (Preorder.ofNode n).events t stop = t.brackets stop n := by
  refine (Preorder.emits_ofNode t stop n).eventsWithin_eq rfl ?_
  have hsub : t.preorder n ⊆ List.range t.size := fun m hm =>
    List.mem_range.mpr (lt_size_of_mem_preorder h hm)
  have hlength := (nodup_preorder h).length_le_of_subset hsub
  rw [List.length_range] at hlength
  have := length_brackets_le t stop n
  omega

end Tree

/-- Each handler of the visitor, where it is used, records its node, and it walks on to the children unless
the node is of a kind to stop at. -/
structure Visitor.StopsAt {δ : Type} (v : Visitor δ) (t : Tree) (stop : Kind → Bool)
    (record : NodeId → δ → δ) : Prop where
  ofKind : ∀ n handler, Category.hasView (t.kind n) = true → v.ofKind (t.kind n) = some handler →
    ∀ walk data, handler n walk data =
      if stop (t.kind n) then record n data else walk (record n data)
  node : ∀ n, Category.hasView (t.kind n) = false ∨ v.ofKind (t.kind n) = none →
    ∀ walk data, v.node n walk data =
      if stop (t.kind n) then record n data else walk (record n data)

/-- The same of handlers that act. -/
structure ActingVisitor.StopsAt {μ : Type → Type} [Monad μ] (v : ActingVisitor μ) (t : Tree)
    (stop : Kind → Bool) (record : NodeId → μ Unit) : Prop where
  ofKind : ∀ n handler, Category.hasView (t.kind n) = true → v.ofKind (t.kind n) = some handler →
    ∀ walk, handler n walk = if stop (t.kind n) then record n else (do record n; walk)
  node : ∀ n, Category.hasView (t.kind n) = false ∨ v.ofKind (t.kind n) = none →
    ∀ walk, v.node n walk = if stop (t.kind n) then record n else (do record n; walk)

section Visitors

variable {δ : Type} {μ : Type → Type} {t : Tree} {stop : Kind → Bool}

/-- Whichever handler a node goes to, it does the same. -/
theorem Visitor.StopsAt.handler {v : Visitor δ} {record : NodeId → δ → δ}
    (h : v.StopsAt t stop record) (n : NodeId) (walk : δ → δ) (data : δ) :
    v.handler (t.kind n) n walk data =
      if stop (t.kind n) then record n data else walk (record n data) := by
  rw [Visitor.handler]
  split
  · next hview =>
    cases hown : v.ofKind (t.kind n) with
    | none => exact h.node n (.inr hown) walk data
    | some handler => exact h.ofKind n handler hview hown walk data
  · next hview => exact h.node n (.inl (by simpa using hview)) walk data

theorem ActingVisitor.StopsAt.handler [Monad μ] {v : ActingVisitor μ} {record : NodeId → μ Unit}
    (h : v.StopsAt t stop record) (n : NodeId) (walk : μ Unit) :
    v.handler (t.kind n) n walk = if stop (t.kind n) then record n else (do record n; walk) := by
  rw [ActingVisitor.handler]
  split
  · next hview =>
    cases hown : v.ofKind (t.kind n) with
    | none => exact h.node n (.inr hown) walk
    | some handler => exact h.ofKind n handler hview hown walk
  · next hview => exact h.node n (.inl (by simpa using hview)) walk

namespace Tree

/-- A visitor that stops records the nodes that are reached. -/
theorem accept_eq {v : Visitor δ} {record : NodeId → δ → δ} (h : v.StopsAt t stop record) (n : Nat)
    (data : δ) : t.accept v n data = (t.reached stop n).foldl (fun data m => record m data) data := by
  rw [accept, h.handler, reached_eq, List.foldl_cons]
  split
  · rfl
  · rw [List.foldl_subtype (g := fun data c => t.accept v c data) fun _ _ _ => rfl,
      List.unattach_attach, List.foldl_flatMap]
    refine List.foldl_ext _ _ _ fun data c hc => ?_
    have := lt_of_mem_children hc
    exact accept_eq h c data
termination_by t.size - n

theorem acceptM_eq [Monad μ] [LawfulMonad μ] {v : ActingVisitor μ} {record : NodeId → μ Unit}
    (h : v.StopsAt t stop record) (n : Nat) : t.acceptM v n = (t.reached stop n).forM record := by
  have hbelow : ∀ cs : List {c // c ∈ t.children n},
      cs.forM (fun c => t.acceptM v c.1) = (cs.unattach.flatMap (t.reached stop)).forM record := by
    intro cs
    induction cs with
    | nil => rfl
    | cons c cs ih =>
      have hlt := lt_of_mem_children c.2
      have hc := acceptM_eq h c.1
      simp only [List.forM_eq_forM] at ih hc ⊢
      rw [List.forM_cons, List.unattach_cons, List.flatMap_cons, List.forM_append, hc, ih]
  rw [acceptM, h.handler, hbelow, List.unattach_attach, reached_eq]
  simp only [List.forM_eq_forM]
  split
  · rw [List.forM_cons, List.forM_nil]
    simp
  · rw [List.forM_cons]
termination_by t.size - n

end Tree

end Visitors

namespace Tree

variable {t : Tree} {stop : Kind → Bool} {n m : Nat}

theorem node_mem_descendants {e : WalkEvent} (hm : m < t.size)
    (he : e ∈ (t.children m).flatMap (t.brackets stop)) : e.node ∈ t.descendants m := by
  obtain ⟨c, hc, he⟩ := List.mem_flatMap.mp he
  rw [descendants_eq hm, preorder_eq]
  exact List.mem_flatMap.mpr ⟨c, hc, node_mem_of_mem_brackets he⟩

/-- Between the two events of a node there is what happens below it, and nothing else. -/
theorem brackets_nested (h : n < t.size) (hm : m ∈ t.reached stop n) (hstop : stop (t.kind m) = false) :
    ∃ before inside after,
      t.brackets stop n = before ++ .enter m :: (inside ++ .leave m :: after) ∧
      (∀ e ∈ inside, e.node ∈ t.descendants m) ∧
      ∀ e ∈ before ++ after, e.node ∉ t.descendantsOrSelf m := by
  have hlt := lt_size_of_mem_preorder h (mem_preorder_of_mem_reached hm)
  obtain ⟨before, after, hsplit, hout⟩ := brackets_split hm
  refine ⟨before, (t.children m).flatMap (t.brackets stop), after, ?_,
    fun e he => node_mem_descendants hlt he, ?_⟩
  · rw [hsplit, brackets_eq t stop m, hstop]
    simp
  · rwa [descendantsOrSelf_eq hlt]

/-- A node is left once if the way went on below it, and never otherwise. -/
theorem count_leave (h : n < t.size) : (t.brackets stop n).count (.leave m) =
    if m ∈ t.reached stop n ∧ stop (t.kind m) = false then 1 else 0 := by
  split
  · next hm =>
    have hlt := lt_size_of_mem_preorder h (mem_preorder_of_mem_reached hm.1)
    obtain ⟨before, inside, after, hsplit, hinside, hout⟩ := brackets_nested h hm.1 hm.2
    have hself : m ∈ t.descendantsOrSelf m := by
      rw [descendantsOrSelf_eq hlt]
      exact mem_preorder_self t m
    have hbefore : before.count (.leave m) = 0 :=
      List.count_eq_zero.mpr fun he => hout _ (List.mem_append_left _ he) hself
    have hafter : after.count (.leave m) = 0 :=
      List.count_eq_zero.mpr fun he => hout _ (List.mem_append_right _ he) hself
    have hbelow : inside.count (.leave m) = 0 := by
      refine List.count_eq_zero.mpr fun he => ?_
      exact absurd ((mem_descendants_iff hlt).mp (hinside _ he)) fun hm =>
        Nat.lt_irrefl m (lt_of_mem_ancestors hm)
    rw [hsplit]
    simp [hbefore, hafter, hbelow]
  · next hm => exact List.count_eq_zero.mpr fun he => hm (mem_reached_of_leave he)

/-- The four ways over the subtree of `n` that stop at nodes of some kinds. -/
structure TraversesAt (t : Tree) (stop : Kind → Bool) (n : NodeId) : Prop where
  nodup : (t.exposed stop n).Nodup
  /-- A preorder walk enters the nodes that no node of these kinds hides. -/
  entered : ((Preorder.ofNode n).events t stop).filterMap WalkEvent.entered? = t.exposed stop n
  /-- Visitors record them, those that hand on a value and those that act. -/
  accepted : ∀ {δ : Type} (v : Visitor δ) (record : NodeId → δ → δ), v.StopsAt t stop record →
    ∀ data, t.accept v n data = (t.exposed stop n).foldl (fun data m => record m data) data
  acted : ∀ {μ : Type → Type} [Monad μ] [LawfulMonad μ] (v : ActingVisitor μ)
    (record : NodeId → μ Unit), v.StopsAt t stop record →
    t.acceptM v n = (t.exposed stop n).forM record
  /-- Whatever was entered last can be skipped. -/
  skips : ∀ p q m, Preorder.next t p = some (.enter m, q) → ∃ q', q.skipSubtree = .ok q'
  /-- Each call answers with the next event, and all calls after the last event with none. -/
  answered : ∀ k, (Preorder.ofNode n).answer t stop k = ((Preorder.ofNode n).events t stop)[k]?
  left : ∀ m, ((Preorder.ofNode n).events t stop).count (.leave m) =
    if m ∈ t.exposed stop n ∧ stop (t.kind m) = false then 1 else 0
  nested : ∀ m ∈ t.exposed stop n, stop (t.kind m) = false → ∃ before inside after,
    (Preorder.ofNode n).events t stop = before ++ .enter m :: (inside ++ .leave m :: after) ∧
    (∀ e ∈ inside, e.node ∈ t.descendants m) ∧
    ∀ e ∈ before ++ after, e.node ∉ t.descendantsOrSelf m

theorem traversesAt (t : Tree) (stop : Kind → Bool) (n : Nat) (h : n < t.size) :
    t.TraversesAt stop n := by
  have hevents : (Preorder.ofNode n).events t stop = t.brackets stop n := events_ofNode_eq h
  have hexposed : t.exposed stop n = t.reached stop n := exposed_eq h
  refine ⟨nodup_exposed h, ?_, fun v record hv data => ?_, fun v record hv => ?_,
    fun p q m => Preorder.exists_skipSubtree, fun k => ?_, fun m => ?_, fun m hm hstop => ?_⟩
  · rw [hevents, entered_brackets, hexposed]
  · rw [accept_eq hv, hexposed]
  · rw [acceptM_eq hv, hexposed]
  · rw [hevents]
    exact (Preorder.emits_ofNode t stop n).answer_eq rfl k
  · rw [hevents, hexposed]
    exact count_leave h
  · rw [hevents]
    exact brackets_nested h (hexposed ▸ hm) hstop

/-- `f(a).b` without what is below the arguments: the list of arguments is entered and not left. -/
theorem traversesAt_call :
    let arguments : Branch := ⟨.argumentList, none, ⟨1, 4, by decide⟩,
      [⟨.ambiguousName, some "a", ⟨2, 3, by decide⟩, []⟩]⟩
    let call : Branch := ⟨.methodCall, some "f", ⟨0, 4, by decide⟩, [arguments]⟩
    let t := Tree.ofBranch "f(a).b" ⟨.fieldAccess, some "b", ⟨0, 6, by decide⟩, [call]⟩
    let stop := fun k : Kind => k == .argumentList
    0 < t.size ∧ (Preorder.ofNode 0).events t stop =
      [.enter 0, .enter 1, .enter 2, .leave 1, .leave 0] ∧ t.TraversesAt stop 0 :=
  ⟨by decide, by decide, traversesAt _ _ 0 (by decide)⟩

end Tree

end JavaSyntax
