import JavaSyntax.Tree
import JavaSyntax.View.Category

namespace JavaSyntax

/-- A visitor that hands a value from node to node. A handler gets the walk over the children. -/
structure Visitor (δ : Type) where
  node : NodeId → (walk : δ → δ) → δ → δ := fun _ walk => walk
  ofKind : Kind → Option (NodeId → (walk : δ → δ) → δ → δ) := fun _ => none

namespace Visitor

variable {δ : Type}

/-- The handler for nodes of a kind. -/
def handler (v : Visitor δ) (k : Kind) : NodeId → (δ → δ) → δ → δ :=
  if Category.hasView k then (v.ofKind k).getD v.node else v.node

end Visitor

/-- Visits `n` and whatever its handler chooses to visit below. -/
def Tree.accept {δ : Type} (t : Tree) (v : Visitor δ) (n : NodeId) (data : δ) : δ :=
  let walk (data : δ) : δ :=
    (t.children n).attach.foldl (fun data c =>
      have := Tree.lt_of_mem_children c.2
      t.accept v c.1 data) data
  v.handler (t.kind n) n walk data
termination_by t.size - n

/-- A visitor whose handlers act in a monad. -/
structure ActingVisitor (m : Type → Type) where
  node : NodeId → (walk : m Unit) → m Unit := fun _ walk => walk
  ofKind : Kind → Option (NodeId → (walk : m Unit) → m Unit) := fun _ => none

namespace ActingVisitor

variable {m : Type → Type}

def handler (v : ActingVisitor m) (k : Kind) : NodeId → m Unit → m Unit :=
  if Category.hasView k then (v.ofKind k).getD v.node else v.node

end ActingVisitor

def Tree.acceptM {m : Type → Type} [Monad m] (t : Tree) (v : ActingVisitor m) (n : NodeId) :
    m Unit :=
  let walk : m Unit :=
    (t.children n).attach.forM fun c =>
      have := Tree.lt_of_mem_children c.2
      t.acceptM v c.1
  v.handler (t.kind n) n walk
termination_by t.size - n

end JavaSyntax
