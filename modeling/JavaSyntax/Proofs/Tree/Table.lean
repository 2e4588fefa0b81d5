import JavaSyntax.Tree

namespace JavaSyntax

namespace Branch

theorem size_pos (b : Branch) : 0 < b.size := by
  cases b
  simp [size]

theorem sizeOfAll_append (bs cs : List Branch) :
    sizeOfAll (bs ++ cs) = sizeOfAll bs + sizeOfAll cs := by
  induction bs with
  | nil => simp [sizeOfAll]
  | cons b bs ih =>
    simp only [List.cons_append, sizeOfAll, ih]
    omega

theorem siblingNumbers_append (first : Nat) (bs cs : List Branch) :
    siblingNumbers first (bs ++ cs) =
      siblingNumbers first bs ++ siblingNumbers (first + sizeOfAll bs) cs := by
  induction bs generalizing first with
  | nil => simp [siblingNumbers, sizeOfAll]
  | cons b bs ih => simp only [List.cons_append, siblingNumbers, sizeOfAll, ih, Nat.add_assoc]

theorem length_siblingNumbers (first : Nat) (bs : List Branch) :
    (siblingNumbers first bs).length = bs.length := by
  induction bs generalizing first with
  | nil => rfl
  | cons b bs ih => simp only [siblingNumbers, List.length_cons, ih]

theorem rowsOfAllFrom_append (first parent position : Nat) (bs cs : List Branch) :
    rowsOfAllFrom first parent position (bs ++ cs) =
      rowsOfAllFrom first parent position bs ++
        rowsOfAllFrom (first + sizeOfAll bs) parent (position + bs.length) cs := by
  induction bs generalizing first position with
  | nil => simp [rowsOfAllFrom, sizeOfAll]
  | cons b bs ih =>
    have hposition : position + 1 + bs.length = position + (b :: bs).length := by
      simp only [List.length_cons]
      omega
    simp only [List.cons_append, rowsOfAllFrom, sizeOfAll, ih, hposition, Nat.add_assoc,
      List.append_assoc]

/-- The sibling at a position comes after all that is below the siblings before it. -/
theorem getElem?_siblingNumbers {first i c : Nat} {bs : List Branch}
    (h : (siblingNumbers first bs)[i]? = some c) :
    ∃ before b after, bs = before ++ b :: after ∧ before.length = i ∧
      c = first + sizeOfAll before := by
  have hi : i < bs.length := by
    have := (List.getElem?_eq_some_iff.mp h).1
    rwa [length_siblingNumbers] at this
  have hsplit : bs = bs.take i ++ bs[i] :: bs.drop (i + 1) := by
    rw [List.getElem_cons_drop, List.take_append_drop]
  have hlength : (bs.take i).length = i := by
    rw [List.length_take]
    omega
  refine ⟨bs.take i, bs[i], bs.drop (i + 1), hsplit, hlength, ?_⟩
  have hnumbers : (siblingNumbers first (bs.take i)).length = i := by
    rw [length_siblingNumbers, hlength]
  rw [hsplit, siblingNumbers_append, List.getElem?_append_right (by omega), hnumbers,
    Nat.sub_self] at h
  simpa [siblingNumbers, eq_comm] using h

mutual

/-- Every row but the first is a child of an earlier one. -/
theorem exists_parent_of_rowsFrom (first : Nat) (parent : Option Nat) (position : Nat) :
    (b : Branch) → ∀ i, 0 < i → i < b.size → ∃ j row, j < i ∧
      (b.rowsFrom first parent position)[j]? = some row ∧ first + i ∈ row.children
  | ⟨_, _, _, children⟩, i, hpos, hi => by
    obtain ⟨i, rfl⟩ := Nat.exists_eq_succ_of_ne_zero (Nat.ne_of_gt hpos)
    simp only [rowsFrom]
    have hi' : i < sizeOfAll children := by
      simp only [size] at hi
      omega
    have hnumber : first + i.succ = first + 1 + i := by omega
    rw [hnumber]
    rcases exists_parent_of_rowsOfAllFrom (first + 1) first 0 children i hi' with h | ⟨j, row, h⟩
    · exact ⟨0, _, Nat.succ_pos i, rfl, h⟩
    · exact ⟨j + 1, row, by omega, h.2⟩

theorem exists_parent_of_rowsOfAllFrom (first parent position : Nat) :
    (bs : List Branch) → ∀ i < sizeOfAll bs, first + i ∈ siblingNumbers first bs ∨
      ∃ j row, j < i ∧ (rowsOfAllFrom first parent position bs)[j]? = some row ∧
        first + i ∈ row.children
  | [], i, hi => absurd hi (Nat.not_lt_zero i)
  | b :: bs, i, hi => by
    simp only [siblingNumbers, rowsOfAllFrom]
    have hlength := length_rowsFrom first (some parent) position b
    by_cases hb : i < b.size
    · by_cases hpos : 0 < i
      · obtain ⟨j, row, hj, hrow, hmem⟩ :=
          exists_parent_of_rowsFrom first (some parent) position b i hpos hb
        refine .inr ⟨j, row, hj, ?_, hmem⟩
        rwa [List.getElem?_append_left (by omega)]
      · obtain rfl : i = 0 := by omega
        exact .inl List.mem_cons_self
    · have hi' : i - b.size < sizeOfAll bs := by
        simp only [sizeOfAll] at hi
        omega
      have hnumber : first + i = first + b.size + (i - b.size) := by omega
      rw [hnumber]
      rcases exists_parent_of_rowsOfAllFrom (first + b.size) parent (position + 1) bs _ hi'
        with h | ⟨j, row, hj, hrow, hmem⟩
      · exact .inl (List.mem_cons_of_mem _ h)
      · refine .inr ⟨b.size + j, row, by omega, ?_, hmem⟩
        rw [List.getElem?_append_right (by omega), hlength, Nat.add_sub_cancel_left]
        exact hrow

end

end Branch

namespace Tree

variable {t : Tree} {n c i : Nat} {b : Branch}

/-- The table from node `n` on starts with the rows of `b`. -/
def Rooted (t : Tree) (n : Nat) (b : Branch) : Prop :=
  ∃ before after, before.length = n ∧
    t.root.rows = before ++ (b.rowsFrom n (t.parent n) (t.position n) ++ after)

theorem row_of_rows {row : Row} (h : t.root.rows[n]? = some row) : t.row n = row := by
  simp [Tree.row, t.rows_eq, h]

/-- The root has no parent. -/
theorem row_zero (t : Tree) : t.parent 0 = none ∧ t.position 0 = 0 := by
  have hrow : t.root.rows[0]? = some (t.row 0) := by
    have hlt : 0 < t.root.rows.length := by
      rw [Branch.rows, Branch.length_rowsFrom]
      exact t.root.size_pos
    rw [row_of_rows (List.getElem?_eq_getElem hlt)]
    exact List.getElem?_eq_getElem hlt
  rw [Branch.rows] at hrow
  cases hroot : t.root with
  | mk kind image span children =>
    rw [hroot, Branch.rowsFrom] at hrow
    simp only [List.getElem?_cons_zero, Option.some.injEq] at hrow
    simp only [parent, position, ← hrow, and_self]

theorem rooted_root (t : Tree) : t.Rooted 0 t.root := by
  refine ⟨[], [], rfl, ?_⟩
  rw [t.row_zero.1, t.row_zero.2]
  simp [Branch.rows]

/-- The row of a node says what stands at the root of its subtree. -/
theorem Rooted.row_eq (h : t.Rooted n b) :
    t.row n = ⟨b.kind, b.image, b.span, t.parent n, t.position n,
      Branch.siblingNumbers (n + 1) b.children, n + Branch.sizeOfAll b.children⟩ := by
  obtain ⟨before, after, hlength, hrows⟩ := h
  apply row_of_rows
  rw [hrows, List.getElem?_append_right (by omega), hlength, Nat.sub_self]
  cases b
  rfl

theorem Rooted.kind_eq (h : t.Rooted n b) : t.kind n = b.kind := by rw [kind, h.row_eq]

theorem Rooted.image_eq (h : t.Rooted n b) : t.image n = b.image := by rw [image, h.row_eq]

theorem Rooted.span_eq (h : t.Rooted n b) : t.span n = b.span := by rw [span, h.row_eq]

theorem Rooted.children_eq (h : t.Rooted n b) :
    t.children n = Branch.siblingNumbers (n + 1) b.children := by rw [children, h.row_eq]

/-- What stands below a node in front of its child at a position, the child, and where it stands. -/
theorem Rooted.child (h : t.Rooted n b) (hc : (t.children n)[i]? = some c) :
    ∃ before d after, b.children = before ++ d :: after ∧ before.length = i ∧
      c = n + 1 + Branch.sizeOfAll before ∧ t.Rooted c d ∧ t.parent c = some n ∧
      t.position c = i := by
  rw [h.children_eq] at hc
  obtain ⟨before, d, after, hsplit, rfl, rfl⟩ := Branch.getElem?_siblingNumbers hc
  obtain ⟨front, back, hlength, hrows⟩ := id h
  refine ⟨before, d, after, hsplit, rfl, rfl, ?_⟩
  obtain ⟨kind, image, span, children⟩ := b
  simp only at hsplit
  subst hsplit
  -- the rows of the child, cut out of those of the node
  let own := d.rowsFrom (n + 1 + Branch.sizeOfAll before) (some n) before.length
  obtain ⟨head, tail, hcut, hhead⟩ : ∃ head tail, t.root.rows = head ++ (own ++ tail) ∧
      head.length = n + 1 + Branch.sizeOfAll before := by
    rw [Branch.rowsFrom, Branch.rowsOfAllFrom_append] at hrows
    simp only [Branch.rowsOfAllFrom, Nat.zero_add, List.cons_append] at hrows
    refine ⟨front ++ t.row n :: Branch.rowsOfAllFrom (n + 1) n 0 before,
      Branch.rowsOfAllFrom (n + 1 + Branch.sizeOfAll before + d.size) n (before.length + 1) after ++
        back, ?_, ?_⟩
    · rw [hrows, h.row_eq]
      simp only [own, List.append_assoc, List.cons_append]
    · simp only [List.length_append, List.length_cons, Branch.length_rowsOfAllFrom]
      omega
  have hrow : t.row (n + 1 + Branch.sizeOfAll before) =
      ⟨d.kind, d.image, d.span, some n, before.length,
        Branch.siblingNumbers (n + 1 + Branch.sizeOfAll before + 1) d.children,
        n + 1 + Branch.sizeOfAll before + Branch.sizeOfAll d.children⟩ := by
    apply row_of_rows
    rw [hcut, List.getElem?_append_right (by omega), hhead, Nat.sub_self]
    cases d
    rfl
  have hparent : t.parent (n + 1 + Branch.sizeOfAll before) = some n := by rw [parent, hrow]
  have hposition : t.position (n + 1 + Branch.sizeOfAll before) = before.length := by
    rw [position, hrow]
  refine ⟨⟨head, tail, hhead, ?_⟩, hparent, hposition⟩
  rw [hparent, hposition]
  exact hcut

/-- Every node but the root is a child of an earlier one. -/
theorem exists_mem_children (h : n < t.size) (hn : n ≠ 0) : ∃ p < n, n ∈ t.children p := by
  rw [size_eq] at h
  obtain ⟨p, row, hp, hrow, hmem⟩ :=
    Branch.exists_parent_of_rowsFrom 0 none 0 t.root n (Nat.pos_of_ne_zero hn) h
  refine ⟨p, hp, ?_⟩
  rw [children, row_of_rows hrow]
  simpa using hmem

/-- What holds of the root and goes from nodes to their children holds of all nodes. -/
theorem forall_nodes {P : Nat → Prop} (root : P 0)
    (child : ∀ n i c : Nat, P n → (t.children n)[i]? = some c → P c) : ∀ n < t.size, P n := by
  intro n
  induction n using Nat.strongRecOn with
  | ind n ih =>
    intro hn
    by_cases h0 : n = 0
    · exact h0 ▸ root
    · obtain ⟨p, hp, hmem⟩ := exists_mem_children hn h0
      obtain ⟨i, hi, hget⟩ := List.getElem_of_mem hmem
      exact child p i n (ih p hp (Nat.lt_trans hp hn)) (hget ▸ List.getElem?_eq_getElem hi)

end Tree

end JavaSyntax
