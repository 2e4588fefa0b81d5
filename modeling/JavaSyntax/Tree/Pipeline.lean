import JavaSyntax.KindSet
import JavaSyntax.View

namespace JavaSyntax

inductive Source where
  | children
  | descendants
  | descendantsOrSelf
  | ancestors
  | ancestorsOrSelf
  | following
  | preceding
  deriving DecidableEq

def Source.nodes (t : Tree) (n : NodeId) : Source → List NodeId
  | .children => t.children n
  | .descendants => t.descendants n
  | .descendantsOrSelf => t.descendantsOrSelf n
  | .ancestors => t.ancestors n
  | .ancestorsOrSelf => t.ancestorsOrSelf n
  | .following => t.following n
  | .preceding => t.preceding n

/-- A stream as it stands. A flattening step holds the rest of what it made of the last node it got, and a
`take` how many nodes it still lets through. -/
inductive NodeStream where
  | source (unread : List NodeId) (pulled : Nat)
  | pick (f : NodeId → Option NodeId) (inner : NodeStream)
  | flatten (f : NodeId → List NodeId) (held : List NodeId) (inner : NodeStream)
  | take (count : Nat) (inner : NodeStream)

namespace NodeStream

/-- How many nodes the source has given. -/
def pulled : NodeStream → Nat
  | source _ pulled => pulled
  | pick _ s => s.pulled
  | flatten _ _ s => s.pulled
  | take _ s => s.pulled

/-- The nodes the source has not given yet. -/
def unread : NodeStream → List NodeId
  | source unread _ => unread
  | pick _ s => s.unread
  | flatten _ _ s => s.unread
  | take _ s => s.unread

/-- The nodes that come if these are the ones the source has left. -/
def itemsOn (ns : List NodeId) : NodeStream → List NodeId
  | source _ _ => ns
  | pick f s => (s.itemsOn ns).filterMap f
  | flatten f held s => held ++ (s.itemsOn ns).flatMap f
  | take count s => (s.itemsOn ns).take count

/-- The nodes that are still to come. -/
def items (s : NodeStream) : List NodeId := s.itemsOn s.unread

@[simp] theorem items_source (unread : List NodeId) (pulled : Nat) :
    (source unread pulled).items = unread := rfl

@[simp] theorem items_pick (f : NodeId → Option NodeId) (s : NodeStream) :
    (pick f s).items = s.items.filterMap f := rfl

@[simp] theorem items_flatten (f : NodeId → List NodeId) (held : List NodeId) (s : NodeStream) :
    (flatten f held s).items = held ++ s.items.flatMap f := rfl

@[simp] theorem items_take (count : Nat) (s : NodeStream) :
    (take count s).items = s.items.take count := rfl

/-- The number of steps. -/
def depth : NodeStream → Nat
  | source _ _ => 0
  | pick _ s => s.depth + 1
  | flatten _ _ s => s.depth + 1
  | take _ s => s.depth + 1

/-- How many nodes the last step can get from the one before it. -/
def supply : NodeStream → Nat
  | source _ _ => 0
  | pick _ s => s.items.length
  | flatten _ _ s => s.items.length
  | take _ s => s.items.length

/-- A stream `r.2` that is left after an answer `r.1`: the same steps, and one node less if one came. -/
structure Left (s : NodeStream) (r : Option NodeId × NodeStream) : Prop where
  depth : r.2.depth = s.depth
  items : ∀ n, r.1 = some n → s.items = n :: r.2.items

/-- The next node, if there is one, and the stream after it. -/
def nextLeft (s : NodeStream) : {r : Option NodeId × NodeStream // s.Left r} :=
  match s with
  | source [] pulled => ⟨(none, source [] pulled), rfl, nofun⟩
  | source (n :: unread) pulled =>
    ⟨(some n, source unread (pulled + 1)), rfl, fun _ h => by cases h; rfl⟩
  | pick f s =>
    match s.nextLeft with
    | ⟨(none, s'), h⟩ => ⟨(none, pick f s'), congrArg (· + 1) h.depth, nofun⟩
    | ⟨(some n, s'), h⟩ =>
      have hitems := h.items n rfl
      match hf : f n with
      | some m => ⟨(some m, pick f s'), congrArg (· + 1) h.depth, fun _ hm => by
          cases hm
          simp [hitems, hf]⟩
      | none =>
        let r := (pick f s').nextLeft
        ⟨r.1, r.2.depth.trans (congrArg (· + 1) h.depth), fun m hm => by
          rw [items_pick, hitems, List.filterMap_cons_none hf]
          exact r.2.items m hm⟩
  | flatten f (m :: held) s => ⟨(some m, flatten f held s), rfl, fun _ h => by cases h; rfl⟩
  | flatten f [] s =>
    match s.nextLeft with
    | ⟨(none, s'), h⟩ => ⟨(none, flatten f [] s'), congrArg (· + 1) h.depth, nofun⟩
    | ⟨(some n, s'), h⟩ =>
      have hitems := h.items n rfl
      let r := (flatten f (f n) s').nextLeft
      ⟨r.1, r.2.depth.trans (congrArg (· + 1) h.depth), fun m hm => by
        rw [items_flatten, hitems, List.flatMap_cons, List.nil_append]
        exact r.2.items m hm⟩
  | take 0 s => ⟨(none, take 0 s), rfl, nofun⟩
  | take (count + 1) s =>
    match s.nextLeft with
    | ⟨(n?, s'), h⟩ => ⟨(n?, take count s'), congrArg (· + 1) h.depth, fun m hm => by
        rw [items_take, h.items m hm]
        rfl⟩
termination_by (s.depth, s.supply)
decreasing_by
  all_goals simp only [Prod.lex_def, depth, supply]
  · exact .inl (Nat.lt_succ_self _)
  · exact .inr ⟨congrArg (· + 1) h.depth, by rw [hitems]; exact Nat.lt_succ_self _⟩
  · exact .inl (Nat.lt_succ_self _)
  · exact .inr ⟨congrArg (· + 1) h.depth, by rw [hitems]; exact Nat.lt_succ_self _⟩
  · exact .inl (Nat.lt_succ_self _)

def next (s : NodeStream) : Option NodeId × NodeStream := s.nextLeft

theorem next_left (s : NodeStream) : s.Left s.next := s.nextLeft.2

/-- Asks for nodes up to the first one that is wanted. -/
def draw (wanted : NodeId → Bool) (s : NodeStream) : List NodeId × NodeStream :=
  match _h : s.next with
  | (none, s') => ([], s')
  | (some n, s') =>
    if wanted n then ([n], s')
    else
      let (ns, s'') := s'.draw wanted
      (n :: ns, s'')
termination_by s.items.length
decreasing_by
  have hleft := s.next_left
  rw [_h] at hleft
  rw [hleft.items n rfl]
  exact Nat.lt_succ_self _

end NodeStream

/-- One step of a pipeline. -/
inductive Stage where
  | ofKind (kind : Kind)
  | ofKinds (kinds : KindSet)
  | castable (category : Category)
  | children
  | childrenOfKind (kind : Kind)
  | descendants
  | parents
  | take (count : Nat)

/-- The nodes of a stream that pass a test. -/
def NodeStream.filter (p : NodeId → Bool) (s : NodeStream) : NodeStream :=
  .pick (Option.guard p) s

/-- A stream with one more step. -/
def Stage.onto (t : Tree) (s : NodeStream) : Stage → NodeStream
  | .ofKind k => s.filter (t.kind · = k)
  | .ofKinds ks => s.filter fun n => ks.contains (t.kind n)
  | .castable c => s.filter fun n => c.contains (t.kind n)
  | .children => .flatten t.children [] s
  | .childrenOfKind k => (NodeStream.flatten t.children [] s).filter (t.kind · = k)
  | .descendants => .flatten t.descendants [] s
  | .parents => .pick t.parent s
  | .take count => .take count s

/-- A stream that nothing was asked of yet. -/
def Tree.stream (t : Tree) (source : List NodeId) (stages : List Stage) : NodeStream :=
  stages.foldl (Stage.onto t) (.source source 0)

/-- What is asked of a stream. One that is asked nothing draws nothing. -/
inductive Demand where
  | list
  | count
  | nothing
  | first (category : Category)
  | firstOfKind (kind : Kind)

inductive Yield where
  | nodes (nodes : List NodeId)
  | count (count : Nat)
  | nothing
  | found (node : Option NodeId)

/-- The answer to a demand, and how many nodes were drawn from the source for it. -/
def Tree.query (t : Tree) (source : List NodeId) (stages : List Stage) : Demand → Yield × Nat
  | .list => let (ns, s) := (t.stream source stages).draw fun _ => false; (.nodes ns, s.pulled)
  | .count =>
    let (ns, s) := (t.stream source stages).draw fun _ => false
    (.count ns.length, s.pulled)
  | .nothing => (.nothing, (t.stream source stages).pulled)
  | .first c => search fun n => c.contains (t.kind n)
  | .firstOfKind k => search (t.kind · = k)
where
  search (wanted : NodeId → Bool) : Yield × Nat :=
    let (ns, s) := (t.stream source stages).draw wanted
    (.found (ns.find? wanted), s.pulled)

end JavaSyntax
