import JavaSyntax.Proofs.Grammar.Placement
import JavaSyntax.Proofs.Parse.Shifted
import JavaSyntax.Proofs.Tree.Origin
import JavaSyntax.Proofs.View.Total
import JavaSyntax.Proofs.View.Variables

namespace JavaSyntax

open Piece Content Layout Computability

theorem eq_of_count_map_eq_one {α β : Type} [DecidableEq β] {f : α → β} {l : List α} {b : β}
    (h : (l.map f).count b = 1) {x y : α} (hx : x ∈ l) (hy : y ∈ l) (hfx : f x = b) (hfy : f y = b) :
    x = y := by
  rw [List.count, List.countP_map, List.countP_eq_length_filter, List.length_eq_one_iff] at h
  obtain ⟨z, hz⟩ := h
  have hsingle {w : α} (hw : w ∈ l) (hfw : f w = b) : w = z := by
    have hmem : w ∈ l.filter ((· == b) ∘ f) := List.mem_filter.mpr ⟨hw, beq_iff_eq.mpr hfw⟩
    rw [hz] at hmem
    exact List.mem_singleton.mp hmem
  rw [hsingle hx hfx, hsingle hy hfy]

namespace Piece

variable {ps qs : List Piece} {k : Kind}

/-- The number of variables that a declaration of one variable declares. -/
theorem count_heads_of_mem (h : symbols qs ∈ one .modifierList * typed false * one .variableDeclarator) :
    ((heads qs).map Head.kind).count .variableDeclarator = 1 := by
  have hkinds := shadow_of_mem h
  simp only [shadow_mul, shadow_one_only] at hkinds
  obtain ⟨_, ⟨_, hmodifiers, w, hw, rfl⟩, _, hdeclarator, hall⟩ := hkinds
  have hnone : Avoids .variableDeclarator (shadow (typed false)) := by
    rw [typed, due, shadow_add, shadow_isType]
    exact avoids_add (avoids_child rfl) (shadow_one ▸ avoids_nil)
  rw [← hall, mem_only.mp hmodifiers, mem_only.mp hdeclarator]
  change List.count _ ([.modifierList] ++ w ++ [.variableDeclarator]) = 1
  rw [List.count_append, List.count_append, List.count_eq_zero.mpr (hnone w hw)]
  rfl

end Piece

namespace Branch

/-- A loop has the declaration of one variable in front. -/
def LoopOfOne (b : Branch) : Prop :=
  b.kind = .foreachStatement → ∃ c ∈ b.children.head?, c.kind = .localVariableDeclaration ∧
    (c.heads.map Head.kind).count .variableDeclarator = 1

theorem LoopOfOne.disambiguated {b : Branch} (h : b.LoopOfOne) : b.disambiguated.LoopOfOne := by
  intro hk
  have hkind : b.kind = .foreachStatement := (congrArg Head.kind b.head_disambiguated).symm.trans hk
  obtain ⟨c, hc, hdeclaration, hcount⟩ := h hkind
  have hchildren : b.disambiguated.children = b.children.map Branch.disambiguated :=
    children_disambiguated (by rw [hkind]; rfl)
  have hheads : c.disambiguated.heads = c.heads := by
    rw [heads, heads, children_disambiguated (by rw [hdeclaration]; rfl), List.map_map]
    exact List.map_congr_left fun d _ => head_disambiguated d
  refine ⟨c.disambiguated, ?_, ?_, ?_⟩
  · rw [hchildren, List.head?_map, Option.mem_def.mp hc]
    rfl
  · exact (congrArg Head.kind c.head_disambiguated).trans hdeclaration
  · rw [hheads]
    exact hcount

end Branch

namespace Piece

variable {ps qs : List Piece} {k : Kind}

/-- The first node of some pieces is the first child they become. -/
theorem exists_head?_branches (gap : Nat) (h : ps.find? isNode = some (.node k qs)) :
    ∃ gap', (branches gap ps).head? = some (grown gap' k qs) := by
  induction ps with
  | nil => cases h
  | cons p ps ih =>
    cases p with
    | token t i => exact ih h
    | node j rs =>
      cases h
      exact ⟨_, rfl⟩

theorem loopOfOne_grown (h : k = .foreachStatement → DeclaresOne ps) (gap : Nat) :
    (grown gap k ps).LoopOfOne := by
  intro hk
  obtain ⟨qs, hfirst, hqs⟩ := h hk
  obtain ⟨gap', hhead⟩ := exists_head?_branches ((cover ps).elim gap Span.stop) hfirst
  refine ⟨_, hhead, rfl, ?_⟩
  rw [heads_grown]
  exact count_heads_of_mem hqs

end Piece

section

variable {text : String} {p : Parse}

/-- In every text, also in one with errors, a loop declares one variable in front of its colon. -/
theorem loopOfOne_of_parsed (hp : parse text = .ok p) : ∀ b ∈ p.tree.root.subtrees, b.LoopOfOne := by
  rw [parse_eq] at hp
  cases hp
  intro b hb
  cases Branch.origin_of_mem _ b hb with
  | name d _ _ hb =>
    rw [hb]
    intro hk
    cases hk
  | expression hb =>
    intro hk
    cases hb.symm.trans hk
  | node d hd hb =>
    have hbranch : d ∈ Branch.subtreesOfAll ((Piece.node .compilationUnit (fileParts text)).branch 0) :=
      List.mem_append_left _ hd
    obtain ⟨k, ps, gap, hbelow, rfl⟩ := exists_below_branch _ 0 d hbranch
    obtain ⟨_, _, _, hsound⟩ := hbelow.sound_file
    rw [hb]
    exact (loopOfOne_grown hsound.1.single gap).disambiguated

/-- The same of the table of the tree. -/
theorem count_declarators (hp : parse text = .ok p) (f : ForeachStatement p.tree) {o : NodeId}
    (ho : p.tree.child? f.node 0 = some o) :
    ((p.tree.children o).map p.tree.kind).count .variableDeclarator = 1 := by
  have hf : f.node < p.tree.size := Tree.lt_size_of_mem_children (List.mem_of_getElem? ho)
  obtain ⟨b, hb, hrooted⟩ := Tree.exists_rooted hf
  obtain ⟨c, hc, _, hcount⟩ := loopOfOne_of_parsed hp b hb (hrooted.kind_eq.symm.trans f.kind_node)
  obtain ⟨before, d, after, hsplit, hlength, _, hd, _⟩ := hrooted.child ho
  rw [hsplit, List.eq_nil_of_length_eq_zero hlength] at hc
  cases hc
  rw [← Tree.map_kind_heads, hd.heads_eq]
  exact hcount

end

namespace Tree.LaidOut

variable {t : Tree} (ht : t.LaidOut)

include ht

/-- A variable that is declared right under a loop is declared by a local variable declaration. -/
theorem exists_declarator {f : ForeachStatement t} {x : VariableDeclaratorId t} {o : NodeId}
    (hx : VariableDeclaratorId.owner x = some o) (ho : o ∈ t.children f.node) :
    t.kind o = .localVariableDeclaration ∧
      ∃ d : VariableDeclarator t, d.node ∈ t.children o ∧ x.node ∈ t.children d.node := by
  have hpart : ∀ k : Kind, Category.expr.contains k = true ∨ Category.statement.contains k = true →
      namesVariable k = false ∧ (declaresVariables k = true → k = .localVariableDeclaration) := by
    intro k
    cases k <;> decide
  obtain ⟨hnames, hdeclares⟩ : namesVariable (t.kind o) = false ∧
      (declaresVariables (t.kind o) = true → t.kind o = .localVariableDeclaration) :=
    hpart _ (contains_of_mem_foreachStatement (ht.children_mem rfl f) (List.mem_map_of_mem ho))
  have hlayout := ht o (lt_of_mem_children ho).2
  rcases VariableDeclaratorId.owner_eq_some_iff.mp hx with ⟨hchild, _⟩ | ⟨d, hd, hchild⟩
  · have hid : Kind.variableDeclaratorId ∈ (t.children o).map t.kind :=
      List.mem_map.mpr ⟨x.node, hchild, x.kind_node⟩
    exact absurd hid (avoids_layout (.inl ⟨rfl, hnames⟩) _ hlayout)
  · refine ⟨hdeclares ?_, d, hd, hchild⟩
    have hdeclarator : Kind.variableDeclarator ∈ (t.children o).map t.kind :=
      List.mem_map.mpr ⟨d.node, hd, d.kind_node⟩
    cases hk : declaresVariables (t.kind o) with
    | true => rfl
    | false => exact absurd hdeclarator (avoids_layout (.inr ⟨rfl, hk⟩) _ hlayout)

/-- A declaration under a loop stands in front of the colon or behind the head. -/
theorem place_of_declaration {f : ForeachStatement t} {o : NodeId} {i : Nat}
    (ho : t.child? f.node i = some o) (hk : t.kind o = .localVariableDeclaration) : i = 0 ∨ i = 2 := by
  have hkind : ((t.children f.node).map t.kind)[i]? = some .localVariableDeclaration := by
    rw [List.getElem?_map, show (t.children f.node)[i]? = some o from ho, Option.map_some, hk]
  obtain ⟨e, hexpr, hks⟩ := eq_of_mem_foreachStatement (ht.children_mem rfl f)
  match i with
  | 0 => exact .inl rfl
  | 1 =>
    have he : e = .localVariableDeclaration := by
      rcases hks with hks | ⟨s, _, hks⟩ <;> rw [hks] at hkind <;> exact Option.some.inj hkind
    rw [he] at hexpr
    cases hexpr
  | 2 => exact .inr rfl
  | i + 3 => rcases hks with hks | ⟨s, _, hks⟩ <;> rw [hks] at hkind <;> cases hkind

/-- A declaration with one declarator declares one variable. -/
theorem eq_of_count {x y : VariableDeclaratorId t} {o : NodeId} {d e : VariableDeclarator t}
    (hone : ((t.children o).map t.kind).count .variableDeclarator = 1) (hd : d.node ∈ t.children o)
    (hx : x.node ∈ t.children d.node) (he : e.node ∈ t.children o) (hy : y.node ∈ t.children e.node) :
    x = y := by
  have hde : d.node = e.node := eq_of_count_map_eq_one hone hd he d.kind_node e.kind_node
  rw [← hde] at hy
  have hid := count_of_mem_variableDeclarator (ht.children_mem rfl d)
  exact View.eq_of_node_eq (eq_of_count_map_eq_one hid hx hy x.kind_node y.kind_node)

end Tree.LaidOut

namespace VariableDeclaratorId

variable {t : Tree}

/-- The variable in front of the colon of a loop. -/
def IsLoopVariable (x : VariableDeclaratorId t) : Prop :=
  ∃ f : ForeachStatement t, ForeachStatement.variableId f = .ok x

/-- A variable whose declaration is the body of a loop. -/
def IsDeclaredByBody (x : VariableDeclaratorId t) : Prop :=
  ∃ (f : ForeachStatement t) (b : Statement t), ForeachStatement.body f = some b ∧
    owner x = some b.node

/-- The two places under a loop where a variable can be declared are not the same. -/
theorem not_isDeclaredByBody {x : VariableDeclaratorId t} (h : x.IsLoopVariable) :
    ¬ x.IsDeclaredByBody := by
  rintro ⟨g, b, hb, hx⟩
  obtain ⟨f, hf⟩ := h
  obtain ⟨o, ho, hfirst⟩ := ForeachStatement.owner_of_variableId hf
  have hbody := Tree.position_of_child? (View.childAt_eq_some_iff.mp hb)
  rw [Option.some.inj (hx.symm.trans ho), Tree.position_of_child? hfirst] at hbody
  cases hbody

end VariableDeclaratorId

section

variable {text : String} {p : Parse}

open VariableDeclaratorId

/-- In a text without errors the variables that are declared right under a loop are loop variables, or
the body of the loop declares them. -/
theorem isForeachVariable_iff_of_no_errors (hp : parse text = .ok p) (he : p.errors = [])
    (x : VariableDeclaratorId p.tree) :
    isForeachVariable x = true ↔ x.IsLoopVariable ∨ x.IsDeclaredByBody := by
  have ht := laidOut_tree (.inl hp) he
  rw [isForeachVariable_iff]
  constructor
  · rintro ⟨f, o, hx, ho⟩
    obtain ⟨hdeclaration, d, hd, hxd⟩ := ht.exists_declarator hx ho
    obtain ⟨i, hi⟩ := List.getElem?_of_mem ho
    rcases ht.place_of_declaration hi hdeclaration with rfl | rfl
    · -- The loop has a variable, and what stands in front of its colon declares only one.
      obtain ⟨y, hy⟩ := (keepsPromises_of_parsed (.inl hp)).exists_loopVariable f
      obtain ⟨o', hyo, ho'⟩ := ForeachStatement.owner_of_variableId hy
      cases hi.symm.trans ho'
      obtain ⟨_, d', hd', hyd⟩ := ht.exists_declarator hyo ho
      have hxy := ht.eq_of_count (count_declarators hp f hi) hd hxd hd' hyd
      exact .inl ⟨f, hxy ▸ hy⟩
    · have hstatement : Category.statement.contains (p.tree.kind o) = true := by rw [hdeclaration]; rfl
      exact .inr ⟨f, ⟨o, hstatement⟩, View.childAt_eq_some_iff.mpr hi, hx⟩
  · rintro (⟨f, hf⟩ | ⟨f, b, hb, hx⟩)
    · obtain ⟨o, ho, hfirst⟩ := ForeachStatement.owner_of_variableId hf
      exact ⟨f, o, ho, List.mem_of_getElem? hfirst⟩
    · exact ⟨f, b.node, hx, List.mem_of_getElem? (View.childAt_eq_some_iff.mp hb)⟩

/-- A declaration as the body of a loop has a variable that is none of the loop. -/
theorem exists_isDeclaredByBody (hp : parse text = .ok p) {f : ForeachStatement p.tree}
    {b : Statement p.tree} (hb : ForeachStatement.body f = some b)
    (hk : p.tree.kind b.node = .localVariableDeclaration) :
    ∃ x : VariableDeclaratorId p.tree, x.IsDeclaredByBody := by
  have ht := keepsPromises_of_parsed (.inl hp)
  let declaration : LocalVariableDeclaration p.tree := ⟨b.node, beq_iff_eq.mpr hk⟩
  obtain ⟨d, hd⟩ := View.exists_mem_allUnder (d := .only .variableDeclarator)
    (ht.promised declaration) (beq_self_eq_true _)
  obtain ⟨x, hx⟩ := View.exists_mem_allUnder (d := .only .variableDeclaratorId)
    (ht.promised d) (beq_self_eq_true _)
  have hids : x ∈ declaration.variableIds :=
    View.mem_variableIds.mpr ⟨d, View.mem_allUnder.mp hd, View.mem_allUnder.mp hx⟩
  exact ⟨x, f, b, hb, View.owner_of_mem_variableIds hids⟩

/-- In a text without errors a variable is taken for that of a loop when it stands in front of the colon,
and also when its declaration is the body of the loop, which makes it none. So the variables taken for
those of loops are those of loops just if no loop has a declaration for its body. -/
theorem parse_loopVariables (hp : parse text = .ok p) (he : p.errors = []) :
    (∀ x : VariableDeclaratorId p.tree,
      (isForeachVariable x = true ↔ x.IsLoopVariable ∨ x.IsDeclaredByBody) ∧
      (x.IsLoopVariable → ¬ x.IsDeclaredByBody)) ∧
    ((∀ x : VariableDeclaratorId p.tree, isForeachVariable x = true ↔ x.IsLoopVariable) ↔
      ∀ (f : ForeachStatement p.tree) (b : Statement p.tree), ForeachStatement.body f = some b →
        p.tree.kind b.node ≠ .localVariableDeclaration) := by
  have hiff := isForeachVariable_iff_of_no_errors hp he
  refine ⟨fun x => ⟨hiff x, not_isDeclaredByBody⟩, ?_, ?_⟩
  · intro hall f b hb hk
    obtain ⟨x, hx⟩ := exists_isDeclaredByBody hp hb hk
    exact not_isDeclaredByBody ((hall x).mp ((hiff x).mpr (.inr hx))) hx
  · intro hnone x
    rw [hiff x]
    refine ⟨fun h => h.resolve_right ?_, Or.inl⟩
    rintro ⟨f, b, hb, hx⟩
    have hchild := List.mem_of_getElem? (View.childAt_eq_some_iff.mp hb)
    exact hnone f b hb ((laidOut_tree (.inl hp) he).exists_declarator hx hchild).1

/-- Two loops, one in the other, and a declaration in the block of the inner one. -/
theorem parse_loopVariables_nested :
    let text := "class A \x7b void m() \x7b for (T a : b) for (int c : d) \x7b int e = c, f; \x7d \x7d \x7d"
    ∃ p, parse text = .ok p ∧ p.errors = [] ∧
      (∀ x : VariableDeclaratorId p.tree,
        (isForeachVariable x = true ↔ x.IsLoopVariable ∨ x.IsDeclaredByBody) ∧
        (x.IsLoopVariable → ¬ x.IsDeclaredByBody)) ∧
      ((∀ x : VariableDeclaratorId p.tree, isForeachVariable x = true ↔ x.IsLoopVariable) ↔
        ∀ (f : ForeachStatement p.tree) (b : Statement p.tree), ForeachStatement.body f = some b →
          p.tree.kind b.node ≠ .localVariableDeclaration) := by
  intro text
  have hp := parse_eq_of_no_problems text (by decide +kernel)
  exact ⟨_, hp, rfl, parse_loopVariables hp rfl⟩

/-- The variable that the body of a loop declares is taken for the variable of the loop. -/
theorem isForeachVariable_of_body :
    let text := "class A \x7b void m() \x7b for (T a : b) int x = 1; \x7d \x7d"
    ∃ p, parse text = .ok p ∧ p.errors = [] ∧
      ∃ x : VariableDeclaratorId p.tree, isForeachVariable x = true ∧ ¬ x.IsLoopVariable := by
  intro text
  have hp := parse_eq_of_no_problems text (by decide +kernel)
  let t : Tree := .ofBranch text (Piece.tree .compilationUnit (fileParts text)).disambiguated
  let x : VariableDeclaratorId t := ⟨20, by decide +kernel⟩
  have hforeach : isForeachVariable x = true := by decide +kernel
  have howner : owner x = some 16 := by decide +kernel
  have hposition : t.position 16 = 2 := by decide +kernel
  refine ⟨_, hp, rfl, x, hforeach, ?_⟩
  rintro ⟨f, hf⟩
  obtain ⟨o, ho, hfirst⟩ := ForeachStatement.owner_of_variableId hf
  cases howner.symm.trans ho
  cases hposition.symm.trans (Tree.position_of_child? hfirst)

end

end JavaSyntax
