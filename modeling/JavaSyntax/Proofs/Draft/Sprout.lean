import JavaSyntax.Draft

namespace JavaSyntax

/-- A node under construction. It has no span as long as nothing told where it stands. -/
structure Sprout where
  kind : Kind
  image : Option String
  span : Option Span
  children : List Sprout

namespace Sprout

mutual

/-- Puts the sprout at an offset if it waits for a span, and what waits below it too. -/
def settle (offset : Nat) : Sprout → Sprout
  | ⟨kind, image, some span, children⟩ => ⟨kind, image, some span, children⟩
  | ⟨kind, image, none, children⟩ =>
    ⟨kind, image, some (.empty offset), settleAll offset children⟩

def settleAll (offset : Nat) : List Sprout → List Sprout
  | [] => []
  | s :: ss => s.settle offset :: settleAll offset ss

end

mutual

/-- Puts every node that waits for a span at an offset, wherever it stands. -/
def fill (offset : Nat) : Sprout → Sprout
  | ⟨kind, image, span, children⟩ =>
    ⟨kind, image, some (span.getD (.empty offset)), fillAll offset children⟩

def fillAll (offset : Nat) : List Sprout → List Sprout
  | [] => []
  | s :: ss => s.fill offset :: fillAll offset ss

end

mutual

/-- The finished form. -/
def toBranch : Sprout → Branch
  | ⟨kind, image, span, children⟩ => ⟨kind, image, span.getD default, toBranches children⟩

def toBranches : List Sprout → List Branch
  | [] => []
  | s :: ss => s.toBranch :: toBranches ss

end

theorem toBranches_eq_map (ss : List Sprout) : toBranches ss = ss.map toBranch := by
  induction ss with
  | nil => rfl
  | cons s ss ih => rw [toBranches, ih, List.map_cons]

theorem settleAll_append (o : Nat) (ss us : List Sprout) :
    settleAll o (ss ++ us) = settleAll o ss ++ settleAll o us := by
  induction ss with
  | nil => rfl
  | cons s ss ih => simp only [List.cons_append, settleAll, ih]

theorem fillAll_append (o : Nat) (ss us : List Sprout) :
    fillAll o (ss ++ us) = fillAll o ss ++ fillAll o us := by
  induction ss with
  | nil => rfl
  | cons s ss ih => simp only [List.cons_append, fillAll, ih]

end Sprout

namespace Draft

/-- A node apart from its place under its parent. -/
def look (d : Draft) (id : DraftId) : Option DraftNode :=
  d.nodes[id]?.map fun n => { n with parent := none }

theorem nodes_update (d : Draft) (id j : DraftId) (f : DraftNode → DraftNode) :
    (d.update id f).nodes[j]? = if id = j then d.nodes[j]?.map f else d.nodes[j]? := by
  simp [update, Array.getElem?_modify]

theorem nodes_update_ne {d : Draft} {id j : DraftId} (f : DraftNode → DraftNode) (h : id ≠ j) :
    (d.update id f).nodes[j]? = d.nodes[j]? := by
  rw [nodes_update, if_neg h]

@[simp] theorem size_update (d : Draft) (id : DraftId) (f : DraftNode → DraftNode) :
    (d.update id f).nodes.size = d.nodes.size := by
  simp [update]

theorem look_update_ne {d : Draft} {id j : DraftId} (f : DraftNode → DraftNode) (h : id ≠ j) :
    (d.update id f).look j = d.look j := by
  rw [look, look, nodes_update_ne f h]

theorem look_eq_some {d : Draft} {id : DraftId} {m : DraftNode} (h : d.look id = some m) :
    ∃ parent, d.nodes[id]? = some { m with parent } ∧ m.parent = none := by
  obtain ⟨n, hn, rfl⟩ := Option.map_eq_some_iff.mp h
  exact ⟨n.parent, hn, rfl⟩

theorem look_of_nodes {d : Draft} {id : DraftId} {n : DraftNode} (h : d.nodes[id]? = some n) :
    d.look id = some { n with parent := none } := by
  simp [look, h]

theorem lt_size_of_look {d : Draft} {id : DraftId} {m : DraftNode} (h : d.look id = some m) :
    id < d.nodes.size := by
  obtain ⟨p, hn, _⟩ := look_eq_some h
  exact (Array.getElem?_eq_some_iff.mp hn).1

theorem length_le_size {d : Draft} {ids : List DraftId} (hnodup : ids.Nodup)
    (hlt : ∀ j ∈ ids, j < d.nodes.size) : ids.length ≤ d.nodes.size := by
  have hsub : ids.length ≤ (List.range d.nodes.size).length :=
    hnodup.length_le_of_subset fun j hj => List.mem_range.mpr (hlt j hj)
  rwa [List.length_range] at hsub

mutual

/-- Node `x` of the draft and what is below it are closed and make up a sprout. The nodes are `ids`
in document order. -/
def GrownAt (d : Draft) : Sprout → DraftId → List DraftId → Prop
  | ⟨kind, image, span, children⟩, x, ids =>
    ∃ kids below, d.look x = some ⟨kind, .closed, none, kids, span, image⟩ ∧
      AllGrownAt d children kids below ∧ ids = x :: below

def AllGrownAt (d : Draft) : List Sprout → List DraftId → List DraftId → Prop
  | [], kids, ids => kids = [] ∧ ids = []
  | s :: ss, kids, ids =>
    ∃ x xs own others, kids = x :: xs ∧ ids = own ++ others ∧ GrownAt d s x own ∧
      AllGrownAt d ss xs others

end

variable {d d' : Draft}

mutual

/-- Whoever leaves the nodes of a sprout alone leaves the sprout alone. -/
theorem GrownAt.frame : ∀ {s : Sprout} {x : DraftId} {ids : List DraftId}, GrownAt d s x ids →
    (∀ j ∈ ids, d'.look j = d.look j) → GrownAt d' s x ids
  | ⟨_, _, _, _⟩, _, _, ⟨kids, below, hx, hb, rfl⟩, same =>
    ⟨kids, below, (same _ List.mem_cons_self).trans hx,
      hb.frame fun j hj => same j (List.mem_cons_of_mem _ hj), rfl⟩

theorem AllGrownAt.frame : ∀ {ss : List Sprout} {xs ids : List DraftId}, AllGrownAt d ss xs ids →
    (∀ j ∈ ids, d'.look j = d.look j) → AllGrownAt d' ss xs ids
  | [], _, _, h, _ => h
  | _ :: _, _, _, ⟨x, xs, own, others, hk, rfl, hs, hss⟩, same =>
    ⟨x, xs, own, others, hk, rfl,
      hs.frame fun j hj => same j (List.mem_append_left _ hj),
      hss.frame fun j hj => same j (List.mem_append_right _ hj)⟩

end

theorem GrownAt.root {s : Sprout} {x : DraftId} {ids : List DraftId} (h : GrownAt d s x ids) :
    ∃ kids below, d.look x = some ⟨s.kind, .closed, none, kids, s.span, s.image⟩ ∧
      AllGrownAt d s.children kids below ∧ ids = x :: below := by
  cases s
  exact h

theorem GrownAt.root_mem {s : Sprout} {x : DraftId} {ids : List DraftId} (h : GrownAt d s x ids) :
    x ∈ ids := by
  obtain ⟨_, _, _, _, rfl⟩ := h.root
  exact List.mem_cons_self

mutual

theorem GrownAt.closed : ∀ {s : Sprout} {x : DraftId} {ids : List DraftId}, GrownAt d s x ids →
    ∀ j ∈ ids, ∃ n, d.look j = some n ∧ n.phase = .closed
  | ⟨_, _, _, _⟩, x, _, ⟨kids, below, hx, hb, rfl⟩, j, hj => by
    rcases List.mem_cons.mp hj with rfl | hj
    · exact ⟨_, hx, rfl⟩
    · exact hb.closed j hj

theorem AllGrownAt.closed : ∀ {ss : List Sprout} {xs ids : List DraftId}, AllGrownAt d ss xs ids →
    ∀ j ∈ ids, ∃ n, d.look j = some n ∧ n.phase = .closed
  | [], _, _, ⟨_, rfl⟩, j, hj => by cases hj
  | _ :: _, _, _, ⟨x, xs, own, others, _, rfl, hs, hss⟩, j, hj => by
    rcases List.mem_append.mp hj with hj | hj
    · exact hs.closed j hj
    · exact hss.closed j hj

end

theorem AllGrownAt.append {ss us : List Sprout} {xs ys ids more : List DraftId}
    (hs : AllGrownAt d ss xs ids) (hu : AllGrownAt d us ys more) :
    AllGrownAt d (ss ++ us) (xs ++ ys) (ids ++ more) := by
  induction ss generalizing xs ids with
  | nil =>
    obtain ⟨rfl, rfl⟩ := hs
    exact hu
  | cons s ss ih =>
    obtain ⟨x, xs, own, others, rfl, rfl, hs, hss⟩ := hs
    exact ⟨x, xs ++ ys, own, others ++ more, rfl, by rw [List.append_assoc], hs, ih hss⟩

theorem allGrownAt_single {s : Sprout} {x : DraftId} {ids : List DraftId} (h : GrownAt d s x ids) :
    AllGrownAt d [s] [x] ids :=
  ⟨x, [], ids, [], rfl, by rw [List.append_nil], h, rfl, rfl⟩

/-- The children of a sprout are the first of the nodes below them. -/
theorem AllGrownAt.kids_subset {ss : List Sprout} {xs ids : List DraftId}
    (h : AllGrownAt d ss xs ids) : ∀ c ∈ xs, c ∈ ids := by
  induction ss generalizing xs ids with
  | nil =>
    obtain ⟨rfl, rfl⟩ := h
    intro c hc
    cases hc
  | cons s ss ih =>
    obtain ⟨x, xs, own, others, rfl, rfl, hs, hss⟩ := h
    intro c hc
    rcases List.mem_cons.mp hc with rfl | hc
    · exact List.mem_append_left _ hs.root_mem
    · exact List.mem_append_right _ (ih hss c hc)

end Draft

end JavaSyntax
