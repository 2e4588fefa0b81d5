import JavaSyntax.Tree.Pipeline
import Mathlib.Order.Bounds.Defs

namespace JavaSyntax

namespace NodeStream

variable {s s' : NodeStream} {r : Option NodeId × NodeStream} {c c' o ns : List NodeId} {n m : NodeId}
  {f : NodeId → Option NodeId} {g : NodeId → List NodeId}

/-- Some `take` has let through all it may, if these are the nodes that the source gives. -/
def Sated (ns : List NodeId) : NodeStream → Prop
  | source _ _ => False
  | pick _ s => s.Sated ns
  | flatten _ _ s => s.Sated ns
  | take count s => s.Sated ns ∨ count ≤ (s.itemsOn ns).length

theorem next_pick (f : NodeId → Option NodeId) (s : NodeStream) : (pick f s).next =
    match s.next with
    | (none, s') => (none, pick f s')
    | (some n, s') =>
      match f n with
      | some m => (some m, pick f s')
      | none => (pick f s').next := by
  rw [next, next, nextLeft]
  split
  · next h => rw [h]
  · next h =>
    rw [h]
    split
    · next hm => simp only [hm]
    · next hm => simp only [hm]; rfl

theorem next_refill (g : NodeId → List NodeId) (s : NodeStream) : (flatten g [] s).next =
    match s.next with
    | (none, s') => (none, flatten g [] s')
    | (some n, s') => (flatten g (g n) s').next := by
  rw [next, next, nextLeft]
  split
  · next h => rw [h]
  · next h => rw [h]; rfl

theorem next_held (g : NodeId → List NodeId) (m : NodeId) (held : List NodeId) (s : NodeStream) :
    (flatten g (m :: held) s).next = (some m, flatten g held s) := by
  rw [next, nextLeft]

theorem next_take_zero (s : NodeStream) : (take 0 s).next = (none, take 0 s) := by
  rw [next, nextLeft]

theorem next_take_succ (count : Nat) (s : NodeStream) :
    (take (count + 1) s).next = (s.next.1, take count s.next.2) := by
  rw [next, nextLeft, next]

/-- Between `s` and `s'` the source gives the nodes `c`, and nothing comes before the last of them. -/
structure Reads (s : NodeStream) (c : List NodeId) (s' : NodeStream) : Prop where
  unread : s.unread = c ++ s'.unread
  pulled : s'.pulled = s.pulled + c.length
  idle : ∀ j < c.length, s.itemsOn (c.take j) = []
  unsated : ∀ j < c.length, ¬ s.Sated (c.take j)

/-- What comes of the nodes `c` is `o`, and what comes after them is the same from `s` as from `s'`. -/
structure Advances (s : NodeStream) (o c : List NodeId) (s' : NodeStream) : Prop
    extends Reads s c s' where
  itemsOn : ∀ ns, s.itemsOn (c ++ ns) = o ++ s'.itemsOn ns
  sated : ∀ ns, s.Sated (c ++ ns) ↔ s'.Sated ns

/-- Nothing comes any more, as the source is at its end or some `take` has let through all it may. -/
structure Exhausts (s : NodeStream) (c : List NodeId) (s' : NodeStream) : Prop
    extends Reads s c s' where
  items : s.items = []
  ended : s'.unread = [] ∨ s.Sated c

/-- The answer to a call of `next` that takes the nodes `c` from the source. -/
def Gives (s : NodeStream) (c : List NodeId) : Option NodeId × NodeStream → Prop
  | (none, s') => s.Exhausts c s'
  | (some n, s') => s.Advances [n] c s'

/-- Parts of an append that are not all of it. -/
theorem forall_take_append (P : List NodeId → Prop) (h : ∀ j < c.length, P (c.take j))
    (h' : ∀ j < c'.length, P (c ++ c'.take j)) : ∀ j < (c ++ c').length, P ((c ++ c').take j) := by
  intro j hj
  rw [List.length_append] at hj
  rcases Nat.lt_or_ge j c.length with hlt | hge
  · rw [List.take_append_of_le_length (Nat.le_of_lt hlt)]
    exact h j hlt
  · rw [List.take_append, List.take_of_length_le hge]
    exact h' _ (by omega)

theorem reads_nothing (hunread : s.unread = s'.unread) (hpulled : s'.pulled = s.pulled) :
    s.Reads [] s' :=
  ⟨hunread, hpulled, nofun, nofun⟩

theorem Reads.pick (h : s.Reads c s') : (pick f s).Reads c (pick f s') :=
  ⟨h.unread, h.pulled, fun j hj => by simp [NodeStream.itemsOn, h.idle j hj], h.unsated⟩

theorem Reads.refill (h : s.Reads c s') (held : List NodeId) :
    (flatten g [] s).Reads c (flatten g held s') :=
  ⟨h.unread, h.pulled, fun j hj => by simp [NodeStream.itemsOn, h.idle j hj], h.unsated⟩

theorem Reads.take (h : s.Reads c s') (count : Nat) :
    (take (count + 1) s).Reads c (take count s') := by
  refine ⟨h.unread, h.pulled, fun j hj => ?_, fun j hj => ?_⟩
  · simp [NodeStream.itemsOn, h.idle j hj]
  · rintro (hsated | hfull)
    · exact h.unsated j hj hsated
    · rw [h.idle j hj] at hfull
      cases hfull

theorem Advances.pick (h : s.Advances o c s') :
    (pick f s).Advances (o.filterMap f) c (pick f s') :=
  ⟨h.toReads.pick, fun ns => by simp [NodeStream.itemsOn, h.itemsOn ns], h.sated⟩

theorem Advances.refill (h : s.Advances [n] c s') :
    (flatten g [] s).Advances [] c (flatten g (g n) s') :=
  ⟨h.toReads.refill (g n), fun ns => by simp [NodeStream.itemsOn, h.itemsOn ns], h.sated⟩

theorem Advances.take (h : s.Advances [n] c s') (count : Nat) :
    (take (count + 1) s).Advances [n] c (take count s') := by
  refine ⟨h.toReads.take count, fun ns => ?_, fun ns => ?_⟩
  · simp [NodeStream.itemsOn, h.itemsOn ns]
  · simp [Sated, h.itemsOn ns, h.sated ns]

theorem Exhausts.pick (h : s.Exhausts c s') : (pick f s).Exhausts c (pick f s') :=
  ⟨h.toReads.pick, by rw [items_pick, h.items, List.filterMap_nil], h.ended⟩

theorem Exhausts.refill (h : s.Exhausts c s') :
    (flatten g [] s).Exhausts c (flatten g [] s') :=
  ⟨h.toReads.refill [], by rw [items_flatten, h.items]; rfl, h.ended⟩

theorem Exhausts.take (h : s.Exhausts c s') (count : Nat) :
    (take (count + 1) s).Exhausts c (take count s') :=
  ⟨h.toReads.take count, by rw [items_take, h.items, List.take_nil], h.ended.imp id .inl⟩

theorem exhausts_take_zero (s : NodeStream) : (take 0 s).Exhausts [] (take 0 s) :=
  ⟨reads_nothing rfl rfl, rfl, .inr (.inr (Nat.zero_le _))⟩

theorem Advances.items (h : s.Advances o c s') : s.items = o ++ s'.items := by
  rw [NodeStream.items, h.unread, h.itemsOn]
  rfl

/-- Nodes of which nothing comes, and more nodes after them. -/
theorem Advances.trans {s'' : NodeStream} (h : s.Advances [] c s') (h' : s'.Reads c' s'') :
    s.Reads (c ++ c') s'' := by
  refine ⟨?_, ?_, forall_take_append (s.itemsOn · = []) h.idle fun j hj => ?_,
    forall_take_append (¬ s.Sated ·) h.unsated fun j hj => ?_⟩
  · rw [h.unread, h'.unread, List.append_assoc]
  · rw [h'.pulled, h.pulled, List.length_append, Nat.add_assoc]
  · rw [h.itemsOn, h'.idle j hj, List.nil_append]
  · rw [h.sated]
    exact h'.unsated j hj

theorem Advances.gives (h : s.Advances [] c s') (h' : s'.Gives c' r) : s.Gives (c ++ c') r := by
  obtain ⟨_ | n, s''⟩ := r
  · refine ⟨h.trans h'.toReads, ?_, h'.ended.imp id (h.sated c').mpr⟩
    rw [h.items, h'.items]
    rfl
  · refine ⟨h.trans h'.toReads, fun ns => ?_, fun ns => ?_⟩
    · rw [List.append_assoc, h.itemsOn, h'.itemsOn, List.nil_append]
    · rw [List.append_assoc, h.sated, h'.sated]

/-- Each call of `next` takes what it needs from the source and no more. -/
theorem exists_gives (s : NodeStream) : ∃ c, s.Gives c s.next := by
  match s with
  | source [] pulled =>
    rw [next, nextLeft]
    exact ⟨[], reads_nothing rfl rfl, rfl, .inl rfl⟩
  | source (n :: unread) pulled =>
    rw [next, nextLeft]
    refine ⟨[n], ⟨rfl, rfl, fun j hj => ?_, fun j hj => id⟩, fun ns => rfl, fun ns => Iff.rfl⟩
    obtain rfl := Nat.lt_one_iff.mp hj
    rfl
  | pick f s =>
    have hgives := exists_gives s
    rw [next_pick]
    rcases hnext : s.next with ⟨_ | n, s'⟩ <;> rw [hnext] at hgives <;>
      obtain ⟨c, hc⟩ := hgives
    · exact ⟨c, Exhausts.pick hc⟩
    · have hleft : s.Left (some n, s') := hnext ▸ s.next_left
      have hpick := Advances.pick (f := f) hc
      cases hf : f n with
      | some m =>
        rw [List.filterMap_cons_some hf, List.filterMap_nil] at hpick
        simp only [hf]
        exact ⟨c, hpick⟩
      | none =>
        rw [List.filterMap_cons_none hf, List.filterMap_nil] at hpick
        simp only [hf]
        obtain ⟨c', hc'⟩ := exists_gives (pick f s')
        exact ⟨c ++ c', hpick.gives hc'⟩
  | flatten g (m :: held) s =>
    rw [next_held]
    exact ⟨[], reads_nothing rfl rfl, fun ns => rfl, fun ns => Iff.rfl⟩
  | flatten g [] s =>
    have hgives := exists_gives s
    rw [next_refill]
    rcases hnext : s.next with ⟨_ | n, s'⟩ <;> rw [hnext] at hgives <;>
      obtain ⟨c, hc⟩ := hgives
    · exact ⟨c, Exhausts.refill hc⟩
    · have hleft : s.Left (some n, s') := hnext ▸ s.next_left
      obtain ⟨c', hc'⟩ := exists_gives (flatten g (g n) s')
      exact ⟨c ++ c', (Advances.refill hc).gives hc'⟩
  | take 0 s =>
    rw [next_take_zero]
    exact ⟨[], exhausts_take_zero s⟩
  | take (count + 1) s =>
    have hgives := exists_gives s
    rw [next_take_succ]
    rcases hnext : s.next with ⟨_ | n, s'⟩ <;> rw [hnext] at hgives <;>
      obtain ⟨c, hc⟩ := hgives
    · exact ⟨c, Exhausts.take hc count⟩
    · exact ⟨c, Advances.take hc count⟩
termination_by (s.depth, s.supply)
decreasing_by
  all_goals simp only [Prod.lex_def, depth, supply]
  · exact .inl (Nat.lt_succ_self _)
  · exact .inr ⟨congrArg (· + 1) hleft.depth, by rw [hleft.items n rfl]; exact Nat.lt_succ_self _⟩
  · exact .inl (Nat.lt_succ_self _)
  · exact .inr ⟨congrArg (· + 1) hleft.depth, by rw [hleft.items n rfl]; exact Nat.lt_succ_self _⟩
  · exact .inl (Nat.lt_succ_self _)

/-- Some `take` has let through all it may, or a wanted node has come out. -/
def Settled (wanted : NodeId → Bool) (s : NodeStream) (ns : List NodeId) : Prop :=
  s.Sated ns ∨ ∃ n ∈ s.itemsOn ns, wanted n = true

/-- A run of calls gives `out` and takes the nodes `c` from the source, which first settle the matter. -/
structure Draws (wanted : NodeId → Bool) (s : NodeStream) (c out : List NodeId) (s' : NodeStream) :
    Prop where
  unread : s.unread = c ++ s'.unread
  pulled : s'.pulled = s.pulled + c.length
  unsettled : ∀ j < c.length, ¬ s.Settled wanted (c.take j)
  ended : s'.unread = [] ∨ s.Settled wanted c
  /-- The nodes that come out go up to the first wanted one. -/
  upTo : ∃ more, s.items = out ++ more ∧ (more = [] ∨ ∃ n ∈ out, wanted n = true)

variable {wanted : NodeId → Bool} {out : List NodeId}

theorem Reads.unsettled (h : s.Reads c s') : ∀ j < c.length, ¬ s.Settled wanted (c.take j) := by
  rintro j hj (hsated | ⟨n, hn, -⟩)
  · exact h.unsated j hj hsated
  · rw [h.idle j hj] at hn
    cases hn

theorem Exhausts.draws (h : s.Exhausts c s') (wanted : NodeId → Bool) : s.Draws wanted c [] s' :=
  ⟨h.unread, h.pulled, h.toReads.unsettled, h.ended.imp id .inl, [], h.items, .inl rfl⟩

theorem Advances.draws_found (h : s.Advances [n] c s') (hn : wanted n = true) :
    s.Draws wanted c [n] s' := by
  have hout := h.itemsOn []
  rw [List.append_nil] at hout
  refine ⟨h.unread, h.pulled, h.toReads.unsettled, .inr (.inr ⟨n, ?_, hn⟩), s'.items, h.items,
    .inr ⟨n, List.mem_singleton_self n, hn⟩⟩
  rw [hout]
  exact List.mem_append_left _ (List.mem_singleton_self n)

theorem Advances.settled_iff (h : s.Advances [n] c s') (hn : wanted n = false) (ns : List NodeId) :
    s.Settled wanted (c ++ ns) ↔ s'.Settled wanted ns := by
  simp [Settled, h.sated, h.itemsOn, hn]

theorem Advances.draws {s'' : NodeStream} (h : s.Advances [n] c s') (hn : wanted n = false)
    (h' : s'.Draws wanted c' out s'') : s.Draws wanted (c ++ c') (n :: out) s'' := by
  refine ⟨?_, ?_,
    forall_take_append (¬ s.Settled wanted ·) h.toReads.unsettled fun j hj => ?_,
    h'.ended.imp id (h.settled_iff hn c').mpr, ?_⟩
  · rw [h.unread, h'.unread, List.append_assoc]
  · rw [h'.pulled, h.pulled, List.length_append, Nat.add_assoc]
  · rw [h.settled_iff hn]
    exact h'.unsettled j hj
  · obtain ⟨more, hmore, hend⟩ := h'.upTo
    refine ⟨more, ?_, hend.imp id fun ⟨m, hm, hwanted⟩ => ⟨m, List.mem_cons_of_mem n hm, hwanted⟩⟩
    rw [h.items, hmore]
    rfl

theorem exists_draws (wanted : NodeId → Bool) (s : NodeStream) :
    ∃ c, s.Draws wanted c (s.draw wanted).1 (s.draw wanted).2 := by
  obtain ⟨c, hc⟩ := s.exists_gives
  have hleft := s.next_left
  rw [draw]
  split
  · next s' heq =>
    rw [heq] at hc
    exact ⟨c, Exhausts.draws hc wanted⟩
  · next n s' heq =>
    rw [heq] at hc hleft
    split
    · next hn => exact ⟨c, Advances.draws_found hc hn⟩
    · next hn =>
      have hless : s'.items.length < s.items.length := by
        rw [hleft.items n rfl]
        exact Nat.lt_succ_self _
      obtain ⟨c', hc'⟩ := exists_draws wanted s'
      exact ⟨c ++ c', Advances.draws hc (eq_false_of_ne_true hn) hc'⟩
termination_by s.items.length

/-- The first wanted node is found among those that come out. -/
theorem Draws.find?_eq (h : s.Draws wanted c out s') : out.find? wanted = s.items.find? wanted := by
  obtain ⟨more, hmore, hend⟩ := h.upTo
  rw [hmore, List.find?_append]
  rcases hend with rfl | ⟨n, hn, hwanted⟩
  · rw [List.find?_nil, Option.or_none]
  · have hfound : (out.find? wanted).isSome = true := List.find?_isSome.mpr ⟨n, hn, hwanted⟩
    rw [Option.or_of_isSome hfound]

theorem Draws.items_eq (h : s.Draws (fun _ => false) c out s') : out = s.items := by
  obtain ⟨more, hmore, rfl | ⟨n, -, hn⟩⟩ := h.upTo
  · rw [hmore, List.append_nil]
  · cases hn

end NodeStream

namespace Stage

/-- What a step makes of a whole list. -/
def eval (t : Tree) (ns : List NodeId) : Stage → List NodeId
  | .ofKind k => ns.filter (t.kind · = k)
  | .ofKinds ks => ns.filter fun n => ks.contains (t.kind n)
  | .castable c => ns.filter fun n => c.contains (t.kind n)
  | .children => ns.flatMap t.children
  | .childrenOfKind k => (ns.flatMap t.children).filter (t.kind · = k)
  | .descendants => ns.flatMap t.descendants
  | .parents => ns.filterMap t.parent
  | .take count => ns.take count

/-- What some steps make of a whole list, one after the other. -/
def evalAll (t : Tree) (stages : List Stage) (ns : List NodeId) : List NodeId :=
  stages.foldl (eval t) ns

variable {t : Tree}

theorem itemsOn_onto (t : Tree) (s : NodeStream) (stage : Stage) (ns : List NodeId) :
    (stage.onto t s).itemsOn ns = stage.eval t (s.itemsOn ns) := by
  cases stage <;>
    simp [onto, eval, NodeStream.filter, NodeStream.itemsOn, List.filterMap_eq_filter]

theorem unread_onto (t : Tree) (s : NodeStream) (stage : Stage) :
    (stage.onto t s).unread = s.unread := by
  cases stage <;> rfl

theorem pulled_onto (t : Tree) (s : NodeStream) (stage : Stage) :
    (stage.onto t s).pulled = s.pulled := by
  cases stage <;> rfl

theorem sated_onto (t : Tree) (s : NodeStream) (stage : Stage) (ns : List NodeId) :
    (stage.onto t s).Sated ns ↔
      s.Sated ns ∨ ∃ count, stage = .take count ∧ (stage.eval t (s.itemsOn ns)).length = count := by
  have hfull : ∀ count, (List.take count (s.itemsOn ns)).length = count ↔
      count ≤ (s.itemsOn ns).length := by
    intro count
    rw [List.length_take]
    omega
  cases stage with
  | take count =>
    rw [onto, eval, NodeStream.Sated, ← hfull]
    simp only [Stage.take.injEq, exists_eq_left']
  | ofKind | ofKinds | castable | children | childrenOfKind | descendants | parents =>
    simp [onto, NodeStream.filter, NodeStream.Sated]

end Stage

namespace Tree

open Stage (evalAll)

variable {t : Tree} {stages : List Stage} {ns : List NodeId}

theorem itemsOn_stream (t : Tree) (source : List NodeId) (stages : List Stage) (ns : List NodeId) :
    (t.stream source stages).itemsOn ns = evalAll t stages ns := by
  have hfrom : ∀ s : NodeStream, (stages.foldl (Stage.onto t) s).itemsOn ns =
      evalAll t stages (s.itemsOn ns) := by
    induction stages with
    | nil => exact fun s => rfl
    | cons stage stages ih =>
      intro s
      rw [List.foldl_cons, ih, Stage.itemsOn_onto]
      rfl
  exact hfrom _

theorem unread_stream (t : Tree) (source : List NodeId) (stages : List Stage) :
    (t.stream source stages).unread = source :=
  List.foldlRecOn stages (Stage.onto t) (motive := fun s => s.unread = source) rfl
    fun s h stage _ => (Stage.unread_onto t s stage).trans h

theorem pulled_stream (t : Tree) (source : List NodeId) (stages : List Stage) :
    (t.stream source stages).pulled = 0 :=
  List.foldlRecOn stages (Stage.onto t) (motive := fun s => s.pulled = 0) rfl
    fun s h stage _ => (Stage.pulled_onto t s stage).trans h

/-- Some `take` lets through as many nodes as it may of those that these come to. -/
def TakesAll (t : Tree) (stages : List Stage) (ns : List NodeId) : Prop :=
  ∃ before count after, stages = before ++ .take count :: after ∧
    (evalAll t (before ++ [.take count]) ns).length = count

theorem takesAll_cons (t : Tree) (stage : Stage) (stages : List Stage) (ns : List NodeId) :
    t.TakesAll (stage :: stages) ns ↔
      (∃ count, stage = .take count ∧ (stage.eval t ns).length = count) ∨
        t.TakesAll stages (stage.eval t ns) := by
  constructor
  · rintro ⟨_ | ⟨first, before⟩, count, after, heq, hlength⟩
    · cases heq
      exact .inl ⟨count, rfl, hlength⟩
    · cases heq
      exact .inr ⟨before, count, after, rfl, hlength⟩
  · rintro (⟨count, rfl, hlength⟩ | ⟨before, count, after, rfl, hlength⟩)
    · exact ⟨[], count, stages, rfl, hlength⟩
    · exact ⟨stage :: before, count, after, rfl, hlength⟩

theorem sated_stream (t : Tree) (source : List NodeId) (stages : List Stage) (ns : List NodeId) :
    (t.stream source stages).Sated ns ↔ t.TakesAll stages ns := by
  have hfrom : ∀ s : NodeStream, (stages.foldl (Stage.onto t) s).Sated ns ↔
      s.Sated ns ∨ t.TakesAll stages (s.itemsOn ns) := by
    induction stages with
    | nil =>
      intro s
      refine ⟨.inl, Or.rec id ?_⟩
      rintro ⟨before, count, after, heq, -⟩
      cases before <;> cases heq
    | cons stage stages ih =>
      intro s
      rw [List.foldl_cons, ih, Stage.sated_onto, Stage.itemsOn_onto, takesAll_cons, or_assoc]
  rw [stream, hfrom]
  exact or_iff_right id

end Tree

namespace Demand

/-- The nodes that are searched for. -/
def wanted (t : Tree) : Demand → NodeId → Bool
  | .first c, n => c.contains (t.kind n)
  | .firstOfKind k, n => t.kind n = k
  | _, _ => false

/-- The answer of a whole list of nodes. -/
def answer (t : Tree) (ns : List NodeId) : Demand → Yield
  | .list => .nodes ns
  | .count => .count ns.length
  | .nothing => .nothing
  | .first c => .found (ns.find? fun n => c.contains (t.kind n))
  | .firstOfKind k => .found (ns.find? (t.kind · = k))

end Demand

namespace Tree

open Stage (evalAll)

variable {t : Tree} {stages : List Stage} {ns : List NodeId}

/-- These nodes of a source settle the answer: some `take` has let through all it may, or the node that is
searched for has come out. -/
def Settles (t : Tree) (stages : List Stage) (demand : Demand) (ns : List NodeId) : Prop :=
  t.TakesAll stages ns ∨ ∃ n ∈ evalAll t stages ns, demand.wanted t n = true

theorem settled_stream (t : Tree) (source : List NodeId) (stages : List Stage) (demand : Demand)
    (ns : List NodeId) : (t.stream source stages).Settled (demand.wanted t) ns ↔
      t.Settles stages demand ns := by
  rw [NodeStream.Settled, Settles, sated_stream, itemsOn_stream]

/-- A query of the nodes `ns` of a source. -/
structure QueriesLazily (t : Tree) (ns : List NodeId) (stages : List Stage) (demand : Demand) :
    Prop where
  answer : (t.query ns stages demand).1 = demand.answer t (evalAll t stages ns)
  /-- It takes as few nodes from the source as settle the answer. -/
  least : demand ≠ .nothing → (∃ k, t.Settles stages demand (ns.take k)) →
    IsLeast {k | t.Settles stages demand (ns.take k)} (t.query ns stages demand).2
  whole : demand ≠ .nothing → (∀ k, ¬ t.Settles stages demand (ns.take k)) →
    (t.query ns stages demand).2 = ns.length
  dropped : demand = .nothing → (t.query ns stages demand).2 = 0

theorem query_pulled {demand : Demand} (h : demand ≠ .nothing) : (t.query ns stages demand).2 =
    ((t.stream ns stages).draw (demand.wanted t)).2.pulled := by
  cases demand with
  | nothing => exact absurd rfl h
  | list | count | first c | firstOfKind k => rfl

theorem query_answer (t : Tree) (ns : List NodeId) (stages : List Stage) (demand : Demand) :
    (t.query ns stages demand).1 = demand.answer t (evalAll t stages ns) := by
  have hitems : (t.stream ns stages).items = evalAll t stages ns := by
    rw [NodeStream.items, unread_stream, itemsOn_stream]
  obtain ⟨c, hall⟩ := (t.stream ns stages).exists_draws fun _ => false
  have hall := hall.items_eq.trans hitems
  have hfound : ∀ wanted, ((t.stream ns stages).draw wanted).1.find? wanted =
      (evalAll t stages ns).find? wanted := by
    intro wanted
    obtain ⟨c, hdraws⟩ := (t.stream ns stages).exists_draws wanted
    rw [hdraws.find?_eq, hitems]
  cases demand with
  | list => exact congrArg Yield.nodes hall
  | count => exact congrArg (Yield.count ·.length) hall
  | nothing => rfl
  | first c => exact congrArg Yield.found (hfound _)
  | firstOfKind k => exact congrArg Yield.found (hfound _)

theorem queriesLazily (t : Tree) (n : NodeId) (source : Source) (stages : List Stage)
    (demand : Demand) : t.QueriesLazily (source.nodes t n) stages demand := by
  generalize source.nodes t n = ns
  obtain ⟨c, h⟩ := (t.stream ns stages).exists_draws (demand.wanted t)
  have hread := h.unread
  have hpulled := h.pulled
  rw [unread_stream] at hread
  rw [pulled_stream, Nat.zero_add] at hpulled
  have hbefore : ∀ k < c.length, ¬ t.Settles stages demand (ns.take k) := by
    intro k hk
    rw [hread, List.take_append_of_le_length (Nat.le_of_lt hk), ← settled_stream t ns]
    exact h.unsettled k hk
  have hended : ((t.stream ns stages).draw (demand.wanted t)).2.unread = [] ∨
      t.Settles stages demand c := h.ended.imp id (settled_stream ..).mp
  refine ⟨query_answer t ns stages demand, fun hdemand ⟨k, hk⟩ => ?_, fun hdemand hnever => ?_,
    fun hdemand => ?_⟩
  · rw [query_pulled hdemand, hpulled]
    have hge : c.length ≤ k := Nat.le_of_not_lt fun hlt => hbefore k hlt hk
    refine ⟨?_, fun k hk => Nat.le_of_not_lt fun hlt => hbefore k hlt hk⟩
    rcases hended with hend | hsettled
    · rw [hend, List.append_nil] at hread
      rw [hread, List.take_of_length_le hge] at hk
      show t.Settles stages demand (ns.take c.length)
      rw [hread, List.take_length]
      exact hk
    · show t.Settles stages demand (ns.take c.length)
      rw [hread, List.take_left]
      exact hsettled
  · rw [query_pulled hdemand, hpulled]
    rcases hended with hend | hsettled
    · rw [hread, hend, List.append_nil]
    · refine absurd ?_ (hnever c.length)
      rw [hread, List.take_left]
      exact hsettled
  · rw [hdemand]
    exact pulled_stream t ns stages

end Tree

end JavaSyntax
