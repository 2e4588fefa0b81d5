import JavaSyntax.Tree

namespace JavaSyntax

/-- The nodes from `next` up to, but not including, `stop`. -/
structure Descendants where
  next : NodeId
  stop : NodeId
  deriving DecidableEq

namespace Descendants

/-- The nodes of the subtree of `n`, with `n`. -/
def orSelf (t : Tree) (n : NodeId) : Descendants := ⟨n, t.last n + 1⟩

/-- The nodes of the subtree of `n`, without `n`. -/
def below (t : Tree) (n : NodeId) : Descendants := ⟨n + 1, t.last n + 1⟩

/-- How many nodes are still to come. -/
def length (d : Descendants) : Nat := d.stop - d.next

def step (d : Descendants) : Option (NodeId × Descendants) :=
  if d.next < d.stop then some (d.next, ⟨d.next + 1, d.stop⟩) else none

/-- What is left after some steps. At the end a step changes nothing. -/
def skip : Nat → Descendants → Descendants
  | 0, d => d
  | k + 1, d =>
    match d.step with
    | none => d
    | some (_, d) => skip k d

def toList (d : Descendants) : List NodeId := List.range' d.next d.length

end Descendants

inductive WalkEvent where
  | enter (node : NodeId)
  | leave (node : NodeId)
  deriving DecidableEq

/-- A preorder walk: the nodes that were entered and not yet left, innermost first, each with its
children still to come, and the node the walk starts with, until it is entered. -/
structure Preorder where
  opened : List (NodeId × List NodeId)
  start : Option NodeId
  deriving DecidableEq

namespace Preorder

def ofNode (n : NodeId) : Preorder := ⟨[], some n⟩

/-- The walk has entered nothing that could be skipped. -/
inductive SkipError where
  | nothingEntered
  deriving DecidableEq

def SkipError.message : SkipError → String
  | .nothingEntered => "must have a subtree to skip"

/-- Leaves out the rest of the innermost subtree, with the event on the way out of it. -/
def skipSubtree (p : Preorder) : Except SkipError Preorder :=
  match p.opened with
  | [] => .error .nothingEntered
  | _ :: opened => .ok { p with opened }

def next (t : Tree) (p : Preorder) : Option (WalkEvent × Preorder) :=
  match p.opened with
  | [] =>
    match p.start with
    | none => none
    | some n => some (.enter n, ⟨[(n, t.children n)], none⟩)
  | (n, []) :: opened => some (.leave n, { p with opened })
  | (n, c :: cs) :: opened =>
    some (.enter c, { p with opened := (c, t.children c) :: (n, cs) :: opened })

/-- Takes a step. Right after entering a node of some kinds its subtree is skipped. -/
def nextSkipping (t : Tree) (kinds : Kind → Bool) (p : Preorder) : Option (WalkEvent × Preorder) :=
  match p.next t with
  | some (.enter n, q) =>
    if kinds (t.kind n) then some (.enter n, (q.skipSubtree).toOption.getD q)
    else some (.enter n, q)
  | step => step

/-- The events of a walk up to its end. `fuel` bounds their number. -/
def eventsWithin (t : Tree) (kinds : Kind → Bool) : (fuel : Nat) → Preorder → List WalkEvent
  | 0, _ => []
  | fuel + 1, p =>
    match p.nextSkipping t kinds with
    | none => []
    | some (e, p) => e :: eventsWithin t kinds fuel p

/-- The events of a walk up to its end. Every node is entered once at most, and left once. -/
def events (t : Tree) (kinds : Kind → Bool) (p : Preorder) : List WalkEvent :=
  eventsWithin t kinds (2 * t.size) p

end Preorder

end JavaSyntax
