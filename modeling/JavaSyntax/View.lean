import JavaSyntax.Text.Split
import JavaSyntax.Tree
import JavaSyntax.View.Category

namespace JavaSyntax

/-- A node of a tree, known to belong to a category. -/
structure View (t : Tree) (c : Category) where
  node : NodeId
  contains_kind : c.contains (t.kind node)

namespace View

variable {t : Tree} {c : Category}

def of? (t : Tree) (c : Category) (n : NodeId) : Option (View t c) :=
  if h : c.contains (t.kind n) then some ⟨n, h⟩ else none

def image (v : View t c) : Option String := t.image v.node

def span (v : View t c) : Span := t.span v.node

/-- The first child of `n` that belongs to a category. -/
def firstUnder (t : Tree) (n : NodeId) (d : Category) : Option (View t d) :=
  (t.children n).findSome? (of? t d)

/-- All children of `n` that belong to a category. -/
def allUnder (t : Tree) (n : NodeId) (d : Category) : List (View t d) :=
  (t.children n).filterMap (of? t d)

def child (v : View t c) (d : Category) : Option (View t d) := firstUnder t v.node d

def children (v : View t c) (d : Category) : List (View t d) := allUnder t v.node d

/-- The child at a position, if it belongs to a category. -/
def childAt (v : View t c) (position : Nat) (d : Category) : Option (View t d) :=
  (t.child? v.node position).bind (of? t d)

def count (v : View t c) : Nat := (t.children v.node).length

theorem node_eq_of_of? {n : NodeId} {v : View t c} (h : of? t c n = some v) : v.node = n := by
  unfold of? at h
  split at h
  · simp only [Option.some.injEq] at h
    exact h ▸ rfl
  · simp at h

theorem mem_of_firstUnder {n : NodeId} {d : Category} {w : View t d}
    (h : firstUnder t n d = some w) : w.node ∈ t.children n := by
  obtain ⟨m, hm, hw⟩ := List.exists_of_findSome?_eq_some h
  exact node_eq_of_of? hw ▸ hm

theorem mem_of_allUnder {n : NodeId} {d : Category} {w : View t d}
    (h : w ∈ allUnder t n d) : w.node ∈ t.children n := by
  obtain ⟨m, hm, hw⟩ := List.mem_filterMap.1 h
  exact node_eq_of_of? hw ▸ hm

end View

/-- What a node lacks that every complete node of its kind has. -/
inductive Absence where
  | child (node : NodeId)
  | childOfType (child : NodeId)
  | variableId (node : NodeId)
  | qualifier (node : NodeId)
  deriving DecidableEq

def Absence.message (t : Tree) : Absence → String
  | .child n => t.label n ++ " must have at least one child"
  | .childOfType c => "unexpected child " ++ t.label c
  | .variableId n => t.label n ++ " has no variable id"
  | .qualifier n => t.label n ++ " has no qualifier"

namespace View

variable {t : Tree} {c : Category}

def firstNode (v : View t c) : Except Absence NodeId :=
  match t.firstChild v.node with
  | none => .error (.child v.node)
  | some n => .ok n

def lastNode (v : View t c) : Except Absence NodeId :=
  match t.lastChild v.node with
  | none => .error (.child v.node)
  | some n => .ok n

/-- A child that should belong to a category. -/
def expected (d : Category) (n : NodeId) : Except Absence (View t d) :=
  match of? t d n with
  | none => .error (.childOfType n)
  | some w => .ok w

def firstAs (v : View t c) (d : Category) : Except Absence (View t d) := do
  expected d (← v.firstNode)

def lastAs (v : View t c) (d : Category) : Except Absence (View t d) := do
  expected d (← v.lastNode)

end View

/-- The parts of a dotted name. -/
def segments (name : String) : List String := Text.splitText '.' name

def lastSegment (name : String) : String := (segments name).getLastD ""

abbrev Expr (t : Tree) := View t .expr

abbrev WrittenType (t : Tree) := View t .type

abbrev Statement (t : Tree) := View t .statement

abbrev Member (t : Tree) := View t .member

end JavaSyntax
