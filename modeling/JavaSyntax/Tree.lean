import JavaSyntax.OutOfRange
import JavaSyntax.Text.Bytes
import JavaSyntax.Tree.Row

namespace JavaSyntax

/-- A node of a finished tree: its place in document order, the root being 0. -/
abbrev NodeId := Nat

/-- A finished tree. The table of its nodes answers every question about neighbours at once. -/
structure Tree where
  text : String
  root : Branch
  rows : Array Row
  rows_eq : rows = root.rows.toArray

namespace Tree

def ofBranch (text : String) (root : Branch) : Tree := ⟨text, root, root.rows.toArray, rfl⟩

def size (t : Tree) : Nat := t.rows.size

def row (t : Tree) (n : NodeId) : Row := t.rows[n]?.getD default

def kind (t : Tree) (n : NodeId) : Kind := (t.row n).kind

/-- The payload of a node: a name, an operator, a literal. -/
def image (t : Tree) (n : NodeId) : Option String := (t.row n).image

def span (t : Tree) (n : NodeId) : Span := (t.row n).span

def parent (t : Tree) (n : NodeId) : Option NodeId := (t.row n).parent

def position (t : Tree) (n : NodeId) : Nat := (t.row n).position

def children (t : Tree) (n : NodeId) : List NodeId := (t.row n).children

/-- The last node of the subtree of `n`, which is `n` and everything up to there. -/
def last (t : Tree) (n : NodeId) : NodeId := (t.row n).last

def child? (t : Tree) (n : NodeId) (i : Nat) : Option NodeId := (t.children n)[i]?

/-- The child at a position that should exist. -/
def childAt (t : Tree) (n : NodeId) (i : Nat) : Except OutOfRange NodeId := entryAt (t.children n) i

def firstChild (t : Tree) (n : NodeId) : Option NodeId := (t.children n).head?

def lastChild (t : Tree) (n : NodeId) : Option NodeId := (t.children n).getLast?

/-- The part of the text a node covers, unless its span cuts a character. -/
def slice (t : Tree) (n : NodeId) : Option String := Text.slice? t.text (t.span n)

def label (t : Tree) (n : NodeId) : String := Branch.label (t.kind n) (t.span n)

theorem size_eq (t : Tree) : t.size = t.root.size := by
  simp [size, t.rows_eq, Branch.rows, Branch.length_rowsFrom]

theorem row_eq_or (t : Tree) (n : NodeId) :
    t.root.rows[n]? = some (t.row n) ∨ t.row n = default := by
  have : t.rows[n]? = t.root.rows[n]? := by simp [t.rows_eq]
  simp only [row, this]
  cases t.root.rows[n]? <;> simp

theorem lt_of_mem_children {t : Tree} {n c : Nat} (h : c ∈ t.children n) :
    n < c ∧ c < t.size := by
  rw [size_eq]
  rcases t.row_eq_or n with hr | hr
  · exact Branch.lt_children_of_rows hr h
  · simp [children, hr, default, instInhabitedRow.default] at h

theorem parent_lt {t : Tree} {n p : Nat} (h : t.parent n = some p) : p < n := by
  rcases t.row_eq_or n with hr | hr
  · exact Branch.parent_lt_of_rows hr h
  · simp [parent, hr, default, instInhabitedRow.default] at h

/-- The ancestors of a node, nearest first. -/
def ancestors (t : Tree) (n : NodeId) : List NodeId :=
  match _h : t.parent n with
  | none => []
  | some p => p :: t.ancestors p
termination_by n
decreasing_by exact parent_lt _h

def ancestorsOrSelf (t : Tree) (n : NodeId) : List NodeId := n :: t.ancestors n

/-- The nodes of the subtree of `n` without `n`, in document order. -/
def descendants (t : Tree) (n : NodeId) : List NodeId := List.range' (n + 1) (t.last n - n)

def descendantsOrSelf (t : Tree) (n : NodeId) : List NodeId := List.range' n (t.last n + 1 - n)

def siblings (t : Tree) (n : NodeId) : List NodeId :=
  match t.parent n with
  | none => []
  | some p => t.children p

/-- The siblings after a node, nearest first. -/
def following (t : Tree) (n : NodeId) : List NodeId := (t.siblings n).drop (t.position n + 1)

/-- The siblings before a node, nearest first. -/
def preceding (t : Tree) (n : NodeId) : List NodeId := ((t.siblings n).take (t.position n)).reverse

def dump (t : Tree) : String := t.root.dump

/-- The tree in one line, without its nodes. -/
def summary (t : Tree) : String :=
  "SyntaxTree \x7b text_len: " ++ toString t.text.utf8ByteSize ++ ", nodes: " ++
    toString t.size ++ ", .. \x7d"

end Tree

end JavaSyntax
