import JavaSyntax.Draft.Misuse
import JavaSyntax.Tree.Branch

namespace JavaSyntax

/-- A node under construction: its place in the order of creation. -/
abbrev DraftId := Nat

inductive Phase where
  | opened
  | finalizing
  | closed
  deriving DecidableEq

structure DraftNode where
  kind : Kind
  phase : Phase
  parent : Option DraftId
  children : List DraftId
  span : Option Span
  image : Option String

/-- A tree under construction. Nodes are created open, get what they hold while they are open, and are
closed once. -/
structure Draft where
  nodes : Array DraftNode
  /-- The end of the last token seen. -/
  lastEnd : Nat
  /-- Closed nodes that wait for a span. -/
  pending : List DraftId

namespace Draft

def empty : Draft := ⟨#[], 0, []⟩

def node (d : Draft) (id : DraftId) : Except Misuse DraftNode :=
  match d.nodes[id]? with
  | none => .error (.outOfRange ⟨d.nodes.size, id⟩)
  | some n => .ok n

def openNode (d : Draft) (id : DraftId) : Except Misuse DraftNode := do
  let n ← d.node id
  if n.phase = .opened then pure n else throw (.alreadyClosed n.kind)

def update (d : Draft) (id : DraftId) (f : DraftNode → DraftNode) : Draft :=
  { d with nodes := d.nodes.modify id f }

/-- A new open node. -/
def create (d : Draft) (kind : Kind) : DraftId × Draft :=
  (d.nodes.size, { d with nodes := d.nodes.push ⟨kind, .opened, none, [], none, none⟩ })

/-- Makes `child` the last child of `parent`. -/
def attach (d : Draft) (parent child : DraftId) : Except Misuse Draft := do
  if parent = child then throw .ownChild
  let c ← d.node child
  if c.parent.isSome then throw (.alreadyAttached c.kind)
  let _ ← d.node parent
  let d := d.update child fun n => { n with parent := some parent }
  pure (d.update parent fun n => { n with children := n.children ++ [child] })

def append (d : Draft) (parent child : DraftId) : Except Misuse Draft := do
  let _ ← d.openNode parent
  d.attach parent child

def setImage (d : Draft) (id : DraftId) (image : String) : Except Misuse Draft := do
  let _ ← d.openNode id
  pure (d.update id fun n => { n with image := some image })

/-- Adds to the payload of an open node. -/
def pushImage (d : Draft) (id : DraftId) (text : String) : Except Misuse Draft := do
  let _ ← d.openNode id
  pure (d.update id fun n => { n with image := some (n.image.getD "" ++ text) })

/-- Puts `child` at a position among the children of `parent` and detaches the old child. -/
def replaceChild (d : Draft) (parent : DraftId) (position : Nat) (child : DraftId) :
    Except Misuse (DraftId × Draft) := do
  let p ← d.node parent
  match p.children[position]? with
  | none => throw (.childOutOfRange position p.children.length)
  | some old =>
    let c ← d.node child
    if c.parent.isSome then throw .attachedReplacement
    let d := d.update parent fun n => { n with children := n.children.set position child }
    let d := d.update old fun n => { n with parent := none }
    pure (old, d.update child fun n => { n with parent := some parent })

/-- Gives `id` and the nodes below it that wait for a span an empty one. Below a node that has its
span nothing waits. `fuel` bounds the depth. -/
def placeBelow (offset : Nat) : (fuel : Nat) → DraftId → Draft → Draft
  | 0, _, d => d
  | fuel + 1, id, d =>
    match d.nodes[id]? with
    | none => d
    | some n =>
      if n.span.isSome then d
      else
        let d := d.update id fun n => { n with span := some (.empty offset) }
        n.children.foldl (fun d c => placeBelow offset fuel c d) d

def place (d : Draft) (offset : Nat) (id : DraftId) : Draft :=
  placeBelow offset d.nodes.size id d

def placePending (d : Draft) (offset : Nat) : Draft :=
  d.pending.foldl (fun d id => d.place offset id) { d with pending := [] }

/-- Widens the span of `id` and of its ancestors up to the first that is not open. `fuel` bounds
the number of ancestors. -/
def widen (span : Span) : (fuel : Nat) → DraftId → Draft → Draft
  | 0, _, d => d
  | fuel + 1, id, d =>
    match d.nodes[id]? with
    | none => d
    | some n =>
      if n.phase = .opened then
        let d := d.update id fun n => { n with span := some (n.span.elim span (·.cover span)) }
        match n.parent with
        | none => d
        | some p => widen span fuel p d
      else d

/-- Records a token in an open node. Nodes that waited for a span sit at its start. -/
def extend (d : Draft) (id : DraftId) (span : Span) : Except Misuse Draft := do
  let _ ← d.node id
  let d := { d with lastEnd := max d.lastEnd span.stop }
  let d := d.placePending span.start
  pure (widen span d.nodes.size id d)

/-- The smallest span around all of them. -/
def hull : List Span → Option Span
  | [] => none
  | s :: ss => some (ss.foldl Span.cover s)

/-- Starts to close the open node `id`: its children must be closed, and what they cover it covers
too. -/
def startClosing (d : Draft) (id : DraftId) (n : DraftNode) : Except Misuse Draft := do
  let d := d.update id fun n => { n with phase := .finalizing }
  let children := n.children.filterMap fun c => d.nodes[c]?
  match children.find? fun c => c.phase ≠ .closed with
  | some c => throw (.openChild n.kind c.kind)
  | none =>
    match n.span.or (hull (children.filterMap DraftNode.span)) with
    | none => pure { d with pending := d.pending ++ [id] }
    | some span =>
      let d := d.update id fun n => { n with span := some span }
      pure (n.children.foldl (fun d c => d.place span.stop c) d)

def endClosing (d : Draft) (id : DraftId) : Draft :=
  d.update id fun n => { n with phase := .closed }

/-- A node that is closed from the start, around detached children. -/
def synthesize (d : Draft) (kind : Kind) (image : Option String) (span : Span)
    (children : List DraftId) : Except Misuse (DraftId × Draft) := do
  let (id, d) := d.create kind
  let d ← children.foldlM (fun d c => d.attach id c) d
  pure (id, d.update id fun n => { n with image, span := some span, phase := .closed })

def closedNode (d : Draft) (id : DraftId) : Except Misuse DraftNode := do
  let n ← d.node id
  if n.phase = .closed then pure n else throw (.neverClosed n.kind)

/-- The finished form of `id`, if everything below it is closed. `fuel` bounds the depth. -/
def branchBelow (d : Draft) : (fuel : Nat) → DraftId → Except Misuse Branch
  | 0, id => do
    let n ← d.closedNode id
    pure ⟨n.kind, n.image, n.span.getD default, []⟩
  | fuel + 1, id => do
    let n ← d.closedNode id
    let children ← n.children.mapM (d.branchBelow fuel)
    pure ⟨n.kind, n.image, n.span.getD default, children⟩

def branch (d : Draft) (root : DraftId) : Except Misuse Branch := d.branchBelow d.nodes.size root

end Draft

end JavaSyntax
