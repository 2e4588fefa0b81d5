import JavaSyntax.Tree.Branch

namespace JavaSyntax

structure Row where
  kind : Kind
  image : Option String
  span : Span
  parent : Option Nat
  /-- The position among the children of the parent, 0 for the root. -/
  position : Nat
  children : List Nat
  /-- The last node of the subtree. -/
  last : Nat
  deriving Inhabited

namespace Branch

/-- The numbers of sibling nodes, the first of which is `first`. -/
def siblingNumbers (first : Nat) : List Branch → List Nat
  | [] => []
  | b :: bs => first :: siblingNumbers (first + b.size) bs

mutual

def rowsFrom (first : Nat) (parent : Option Nat) (position : Nat) : Branch → List Row
  | ⟨kind, image, span, children⟩ =>
    { kind, image, span, parent, position
      children := siblingNumbers (first + 1) children
      last := first + sizeOfAll children } :: rowsOfAllFrom (first + 1) first 0 children

def rowsOfAllFrom (first parent position : Nat) : List Branch → List Row
  | [] => []
  | b :: bs =>
    b.rowsFrom first (some parent) position ++
      rowsOfAllFrom (first + b.size) parent (position + 1) bs

end

/-- The rows of a whole tree, in document order. -/
def rows (b : Branch) : List Row := b.rowsFrom 0 none 0

theorem mem_siblingNumbers {first c : Nat} {bs : List Branch} (h : c ∈ siblingNumbers first bs) :
    first ≤ c ∧ c < first + sizeOfAll bs := by
  induction bs generalizing first with
  | nil => simp [siblingNumbers] at h
  | cons b bs ih =>
    have hs : 0 < b.size := by cases b; simp [size]
    simp only [siblingNumbers, List.mem_cons] at h
    simp only [sizeOfAll]
    rcases h with rfl | h
    · omega
    · have := ih h
      omega

mutual

theorem length_rowsFrom (first : Nat) (parent : Option Nat) (position : Nat) :
    (b : Branch) → (b.rowsFrom first parent position).length = b.size
  | ⟨_, _, _, children⟩ => by
    simp [rowsFrom, size, length_rowsOfAllFrom (first + 1) first 0 children]

theorem length_rowsOfAllFrom (first parent position : Nat) :
    (bs : List Branch) → (rowsOfAllFrom first parent position bs).length = sizeOfAll bs
  | [] => rfl
  | b :: bs => by
    simp [rowsOfAllFrom, sizeOfAll, length_rowsFrom first (some parent) position b,
      length_rowsOfAllFrom (first + b.size) parent (position + 1) bs]

end

mutual

theorem lt_children_of_rowsFrom (first : Nat) (parent : Option Nat) (position : Nat) :
    (b : Branch) → ∀ i row, (b.rowsFrom first parent position)[i]? = some row →
      ∀ c ∈ row.children, first + i < c ∧ c < first + b.size
  | ⟨_, _, _, children⟩, i, row, h, c, hc => by
    simp only [rowsFrom] at h
    simp only [size]
    cases i with
    | zero =>
      simp only [List.getElem?_cons_zero, Option.some.injEq] at h
      subst h
      have := mem_siblingNumbers hc
      omega
    | succ i =>
      rw [List.getElem?_cons_succ] at h
      have := lt_children_of_rowsOfAllFrom (first + 1) first 0 children i row h c hc
      omega

theorem lt_children_of_rowsOfAllFrom (first parent position : Nat) :
    (bs : List Branch) → ∀ i row, (rowsOfAllFrom first parent position bs)[i]? = some row →
      ∀ c ∈ row.children, first + i < c ∧ c < first + sizeOfAll bs
  | [], i, row, h, c, hc => by simp [rowsOfAllFrom] at h
  | b :: bs, i, row, h, c, hc => by
    simp only [rowsOfAllFrom, List.getElem?_append, length_rowsFrom] at h
    simp only [sizeOfAll]
    split at h
    · have := lt_children_of_rowsFrom first (some parent) position b i row h c hc
      omega
    · have := lt_children_of_rowsOfAllFrom (first + b.size) parent (position + 1) bs _ row h c hc
      omega

end

mutual

theorem parent_of_rowsFrom (first : Nat) (parent : Option Nat) (position : Nat) :
    (b : Branch) → ∀ i row, (b.rowsFrom first parent position)[i]? = some row →
      ∀ p, row.parent = some p → parent = some p ∨ first ≤ p ∧ p < first + i
  | ⟨_, _, _, children⟩, i, row, h, p, hp => by
    simp only [rowsFrom] at h
    cases i with
    | zero =>
      simp only [List.getElem?_cons_zero, Option.some.injEq] at h
      subst h
      exact .inl hp
    | succ i =>
      have := parent_of_rowsOfAllFrom (first + 1) first 0 children i row (by simpa using h) p hp
      omega

theorem parent_of_rowsOfAllFrom (first parent position : Nat) :
    (bs : List Branch) → ∀ i row, (rowsOfAllFrom first parent position bs)[i]? = some row →
      ∀ p, row.parent = some p → parent = p ∨ first ≤ p ∧ p < first + i
  | [], i, row, h, p, hp => by simp [rowsOfAllFrom] at h
  | b :: bs, i, row, h, p, hp => by
    simp only [rowsOfAllFrom, List.getElem?_append, length_rowsFrom] at h
    split at h
    · have := parent_of_rowsFrom first (some parent) position b i row h p hp
      grind
    · have := parent_of_rowsOfAllFrom (first + b.size) parent (position + 1) bs _ row h p hp
      omega

end

theorem lt_children_of_rows {b : Branch} {n c : Nat} {row : Row} (h : b.rows[n]? = some row)
    (hc : c ∈ row.children) : n < c ∧ c < b.size := by
  simpa using lt_children_of_rowsFrom 0 none 0 b n row h c hc

theorem parent_lt_of_rows {b : Branch} {n p : Nat} {row : Row} (h : b.rows[n]? = some row)
    (hp : row.parent = some p) : p < n := by
  simpa using parent_of_rowsFrom 0 none 0 b n row h p hp

end Branch

end JavaSyntax
