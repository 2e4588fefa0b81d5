import JavaSyntax.Proofs.Expression.Operators
import JavaSyntax.Proofs.Parse.Made
import JavaSyntax.Proofs.View.Variables

namespace JavaSyntax

open Piece Content Computability

namespace Piece

variable {ps : List Piece} {l : Language Symbol}

/-- A branch of an `if`: a statement, or a `;` that leaves no node. -/
def IsBranch (p : Piece) : Prop :=
  (∃ k qs, p = .node k qs ∧ Category.statement.contains k = true) ∨
    ∃ t, p = .token t false ∧ t.kind = .semicolon

theorem of_mem_statement (h : symbols ps ∈ statement true * l) :
    ∃ p more, ps = p :: more ∧ p.IsBranch ∧ symbols more ∈ l := by
  obtain ⟨_, (⟨k, hk, rfl⟩ | rfl) | hnone, w, hw, hs⟩ := h
  · obtain ⟨qs, more, rfl, hmore⟩ := of_symbols_node hs.symm
    exact ⟨_, more, rfl, .inl ⟨k, qs, rfl, hk⟩, hmore ▸ hw⟩
  · obtain ⟨t, more, rfl, ht, hmore⟩ := of_symbols_token hs.symm
    exact ⟨_, more, rfl, .inr ⟨t, rfl, ht⟩, hmore ▸ hw⟩
  · cases hnone

theorem of_mem_singleBranch (h : symbols ps ∈ statement true) : ∃ p, ps = [p] ∧ p.IsBranch := by
  rw [← mul_one (statement true)] at h
  obtain ⟨p, more, rfl, hp, hmore⟩ := of_mem_statement h
  rw [of_symbols_nil ((Language.mem_one _).mp hmore)]
  exact ⟨p, rfl, hp⟩

theorem IsBranch.not_elseKw {p : Piece} (h : p.IsBranch) :
    ∀ t ∈ (direct [p]).map Prod.fst, t.kind = .semicolon := by
  intro t ht
  rcases h with ⟨k, qs, rfl, _⟩ | ⟨u, rfl, hu⟩
  · cases ht
  · rw [List.mem_singleton.mp ht]
    exact hu

/-- What stands in front of the branches: the condition is the only node, and there is no `;`. -/
structure IsCondition (ps : List Piece) : Prop where
  single : (heads ps).length = 1
  semicolon : ∀ t ∈ (direct ps).map Prod.fst, t.kind ≠ .semicolon
  elseKw : ∀ t ∈ (direct ps).map Prod.fst, t.kind ≠ .elseKw

theorem of_mem_ifStatement (h : symbols ps ∈ content true .ifStatement) :
    ∃ front a more, ps = front ++ a :: more ∧ IsCondition front ∧ a.IsBranch ∧
      symbols more ∈ 1 + mark .elseKw * statement true := by
  simp only [content, condition, value, due_true, junk_true, add_zero, mul_one, mul_assoc] at h
  obtain ⟨_, rfl, _, ⟨_, rfl, _, ⟨_, ⟨c, _, rfl⟩, _, ⟨_, rfl, w, hw, rfl⟩, rfl⟩, rfl⟩, hs⟩ := h
  obtain ⟨i, _, rfl, hi, h₁⟩ := of_symbols_token hs.symm
  obtain ⟨o, _, rfl, ho, h₂⟩ := of_symbols_token h₁
  obtain ⟨cs, _, rfl, h₃⟩ := of_symbols_node h₂
  obtain ⟨r, rest, rfl, hr, h₄⟩ := of_symbols_token h₃
  have hrest : symbols rest ∈ statement true * (1 + mark .elseKw * statement true) := by
    rw [h₄]
    exact hw
  obtain ⟨a, more, rfl, ha, hmore⟩ := of_mem_statement hrest
  refine ⟨[.token i false, .token o false, .node c cs, .token r false], a, more, rfl, ?_, ha, hmore⟩
  exact ⟨rfl, by simp [direct, hi, ho, hr], by simp [direct, hi, ho, hr]⟩

/-- What an `if` with an `else` consists of. -/
theorem of_mem_ifElse (h : symbols ps ∈ content true .ifStatement) {e : Token}
    (he : e ∈ (direct ps).map Prod.fst) (hk : e.kind = .elseKw) :
    ∃ front a b, ps = (front ++ [a]) ++ .token e false :: [b] ∧ IsCondition front ∧ a.IsBranch ∧
      b.IsBranch := by
  obtain ⟨front, a, more, rfl, hfront, ha, hmore⟩ := of_mem_ifStatement h
  rw [List.append_cons, direct_append, direct_append, List.map_append, List.map_append,
    List.mem_append, List.mem_append] at he
  have hlast : e ∈ (direct more).map Prod.fst := by
    refine he.resolve_left fun hmem => ?_
    rcases hmem with hmem | hmem
    · exact hfront.elseKw e hmem hk
    · cases hk.symm.trans (ha.not_elseKw e hmem)
  rcases hmore with hnone | ⟨_, rfl, w, hw, hs⟩
  · rw [of_symbols_nil ((Language.mem_one _).mp hnone)] at hlast
    cases hlast
  · obtain ⟨e', last, rfl, _, hbranch⟩ := of_symbols_token hs.symm
    have hbranch : symbols last = w := hbranch
    obtain ⟨b, rfl, hb⟩ := of_mem_singleBranch (hbranch ▸ hw)
    rw [direct, List.map_cons, List.mem_cons] at hlast
    obtain rfl : e = e' := by
      refine hlast.resolve_right fun hmem => ?_
      cases hk.symm.trans (hb.not_elseKw e hmem)
    exact ⟨front, a, b, List.append_cons _ _ _, hfront, ha, hb⟩

/-- A branch is one child at most. -/
theorem IsBranch.length_le {p : Piece} (h : p.IsBranch) {f : NodeId → Kind} {ms : List NodeId}
    (hms : ms.map f = (heads [p]).map Head.kind) : ms.length ≤ 1 := by
  have hlength := congrArg List.length hms
  rw [List.length_map, List.length_map] at hlength
  rw [hlength]
  rcases h with ⟨k, qs, rfl, _⟩ | ⟨t, rfl, _⟩
  · exact Nat.le_refl 1
  · exact Nat.zero_le 1

/-- Only an empty statement leaves no node. -/
theorem IsBranch.heads_eq_nil_iff {p : Piece} (h : p.IsBranch) :
    Piece.heads [p] = [] ↔ ∃ t ∈ (direct [p]).map Prod.fst, t.kind = .semicolon := by
  rcases h with ⟨k, qs, rfl, _⟩ | ⟨t, rfl, ht⟩
  · constructor
    · intro h
      cases h
    · rintro ⟨t, ht, _⟩
      cases ht
  · exact ⟨fun _ => ⟨t, List.mem_singleton.mpr rfl, ht⟩, fun _ => rfl⟩

end Piece

theorem eq_singleton_of_mem {α : Type} {x : α} {l : List α} (h : l.length ≤ 1) (hx : x ∈ l) : l = [x] := by
  cases l with
  | nil => cases hx
  | cons y ys =>
    rw [List.eq_nil_of_length_eq_zero (Nat.le_zero.mp (Nat.le_of_succ_le_succ h))] at hx ⊢
    rw [List.mem_singleton.mp hx]

namespace IfStatement

variable {t : Tree}

/-- The first branch stands in front of the `else` and the second one behind it. -/
structure DividedBy (v : IfStatement t) (e : Token) : Prop where
  before : ∀ b, thenBranch v = some b → b.span.stop ≤ e.start
  behind : ∀ s : Statement t, s.node ∈ t.children v.node → e.stop ≤ s.span.start →
    elseBranch v = some s ∧ thenBranch v ≠ some s

/-- In front of the `else` stands an empty statement, which is no node. -/
def LacksThen (text : String) (v : IfStatement t) (e : Token) : Prop :=
  ∃ u ∈ t.ownTokens text v.node, u.kind = .semicolon ∧ u.stop ≤ e.start

/-- Behind the `else` stands a statement that is a node. -/
def HasElse (v : IfStatement t) (e : Token) : Prop :=
  ∃ s : Statement t, s.node ∈ t.children v.node ∧ e.stop ≤ s.span.start

/-- In front of the `else` there is a `;` exactly where the first branch is one. -/
theorem lacksThen_iff {text : String} {v : IfStatement t} {e : Token} {ps front : List Piece}
    {a b : Piece} (hmade : t.Made true text v.node ps) (hk : e.kind = .elseKw)
    (hps : ps = (front ++ [a]) ++ .token e false :: [b]) (hfront : IsCondition front) :
    v.LacksThen text e ↔ ∃ u ∈ (direct [a]).map Prod.fst, u.kind = .semicolon := by
  obtain ⟨hlt, hbefore, hafter⟩ := hmade.split_tokens hps
  have hdirect (u : Token) : u ∈ t.ownTokens text v.node ↔ u ∈ (direct front).map Prod.fst ∨
      u ∈ (direct [a]).map Prod.fst ∨ u = e ∨ u ∈ (direct [b]).map Prod.fst := by
    rw [hmade.mem_ownTokens_iff, hps, direct_append, direct_append, direct]
    simp only [List.map_append, List.map_cons, List.mem_append, List.mem_cons, or_assoc]
  constructor
  · rintro ⟨u, hu, hsemicolon, hstop⟩
    rcases (hdirect u).mp hu with hmem | hmem | rfl | hmem
    · exact absurd hsemicolon (hfront.semicolon u hmem)
    · exact ⟨u, hmem, hsemicolon⟩
    · cases hsemicolon.symm.trans hk
    · have := hafter u (mem_tokensOfAll_iff.mpr (.inl hmem))
      omega
  · rintro ⟨u, hu, hsemicolon⟩
    refine ⟨u, (hdirect u).mpr (.inr (.inl hu)), hsemicolon, hbefore u ?_⟩
    rw [tokensOfAll_append, List.mem_append]
    exact .inr (mem_tokensOfAll_iff.mpr (.inl hu))

/-- The children of an `if` on either side of its `else`: a condition, and in front of the `else` and
behind it one statement each, or none where the branch is empty. -/
structure Sides (text : String) (v : IfStatement t) (e : Token) (c : NodeId) (cs ds : List NodeId) :
    Prop where
  children : t.children v.node = c :: cs ++ ds
  length_front : cs.length ≤ 1
  length_back : ds.length ≤ 1
  before : ∀ s ∈ c :: cs, (t.span s).stop ≤ e.start
  behind : ∀ s ∈ ds, e.stop ≤ (t.span s).start
  start_lt_stop : e.start < e.stop
  empty_iff : cs = [] ↔ LacksThen text v e

theorem exists_sides {text : String} {p : Parse}
    (hp : parse text = .ok p ∨ parseExpression text = .ok p) (he : p.errors = [])
    (v : IfStatement p.tree) {e : Token} (hown : e ∈ p.tree.ownTokens text v.node)
    (hk : e.kind = .elseKw) : ∃ c cs ds, Sides text v e c cs ds := by
  have hnode := v.kind_node
  obtain ⟨ps, hmade⟩ := exists_made hp (fun _ : true = true => he)
    (Tree.lt_size_of_isNode (by rw [hnode]; rfl)) (by rw [hnode]; rfl)
  have hformed := hmade.formed
  rw [hnode] at hformed
  obtain ⟨front, a, b, hps, hfront, ha, hb⟩ :=
    of_mem_ifElse hformed.1.1 (hmade.mem_ownTokens_iff.mp hown) hk
  obtain ⟨ms, ds, hchildren, hms, hds, hbefore, hbehind⟩ := hmade.split hps
  rw [heads_append, List.map_append] at hms
  obtain ⟨cs', cs, rfl, hcs', hcs⟩ := List.map_eq_append_iff.mp hms
  obtain ⟨c, rfl⟩ : ∃ c, cs' = [c] := by
    have hlength := congrArg List.length hcs'
    rw [List.length_map, List.length_map, hfront.single] at hlength
    exact List.length_eq_one_iff.mp hlength
  have hempty : cs = [] ↔ heads [a] = [] := by
    rw [← List.map_eq_nil_iff (f := p.tree.kind), hcs, List.map_eq_nil_iff]
  exact ⟨c, cs, ds, {
    children := hchildren
    length_front := ha.length_le hcs
    length_back := hb.length_le hds
    before := hbefore
    behind := hbehind
    start_lt_stop := (hmade.split_tokens hps).1
    empty_iff := hempty.trans (ha.heads_eq_nil_iff.trans (lacksThen_iff hmade hk hps hfront).symm) }⟩

namespace Sides

variable {text : String} {v : IfStatement t} {e : Token} {c : NodeId} {cs ds : List NodeId}

theorem thenBranch_eq_some_iff (h : Sides text v e c cs ds) {b : Statement t} :
    thenBranch v = some b ↔ (cs ++ ds)[0]? = some b.node := by
  rw [thenBranch, View.childAt_eq_some_iff, Tree.child?, h.children]
  rfl

theorem elseBranch_eq_some_iff (h : Sides text v e c cs ds) {b : Statement t} :
    elseBranch v = some b ↔ (cs ++ ds)[1]? = some b.node := by
  rw [elseBranch, View.childAt_eq_some_iff, Tree.child?, h.children]
  rfl

/-- No child stands on both sides. -/
theorem not_behind (h : Sides text v e c cs ds) {s : NodeId} (hs : s ∈ c :: cs) :
    ¬ e.stop ≤ (t.span s).start := by
  have := h.before s hs
  have := h.start_lt_stop
  have := (t.span s).start_le_stop
  omega

/-- What stands behind the `else` is one statement at most. -/
theorem back_eq (h : Sides text v e c cs ds) {s : Statement t} (hs : s.node ∈ t.children v.node)
    (hbehind : e.stop ≤ s.span.start) : ds = [s.node] := by
  rw [h.children] at hs
  have hmem : s.node ∈ ds :=
    (List.mem_append.mp hs).resolve_left fun hfront => h.not_behind hfront hbehind
  exact eq_singleton_of_mem h.length_back hmem

/-- Without a node in front of the `else` the one behind it is taken for the first branch. -/
theorem branches_of_empty (h : Sides text v e c [] ds) (helse : v.HasElse e) :
    ∃ s, thenBranch v = some s ∧ e.stop ≤ s.span.start ∧ elseBranch v = none := by
  obtain ⟨s, hs, hstart⟩ := helse
  obtain rfl := h.back_eq hs hstart
  refine ⟨s, h.thenBranch_eq_some_iff.mpr rfl, hstart, ?_⟩
  cases hbranch : elseBranch v with
  | none => rfl
  | some b => cases h.elseBranch_eq_some_iff.mp hbranch

theorem dividedBy_of_node {x : NodeId} (h : Sides text v e c (x :: cs) ds) : v.DividedBy e where
  before b hb := by
    cases h.thenBranch_eq_some_iff.mp hb
    exact h.before _ (.tail _ (.head _))
  behind s hs hstart := by
    obtain rfl := h.back_eq hs hstart
    obtain rfl : cs = [] := (List.cons.inj (eq_singleton_of_mem h.length_front (.head _))).2
    refine ⟨h.elseBranch_eq_some_iff.mpr rfl, fun hbranch => ?_⟩
    cases h.thenBranch_eq_some_iff.mp hbranch
    exact h.not_behind (.tail _ (.head _)) hstart

/-- Where no branch is a node there is nothing to confuse. -/
theorem dividedBy_of_not_hasElse (h : Sides text v e c [] ds) (hnone : ¬ v.HasElse e) :
    v.DividedBy e where
  before b hb := by
    have hmem : b.node ∈ ds := List.mem_of_getElem? (h.thenBranch_eq_some_iff.mp hb)
    have hchild : b.node ∈ t.children v.node := h.children ▸ List.mem_append_right _ hmem
    exact absurd ⟨b, hchild, h.behind _ hmem⟩ hnone
  behind s hs hstart := absurd ⟨s, hs, hstart⟩ hnone

end Sides

section

variable {text : String} {p : Parse}

/-- In a text without errors the branches of an `if` are what stands on either side of its `else`, unless
`;` stands in front of the `else` and something other than `;` behind it. Then the statement behind the
`else` is taken for the first branch, and there seems to be no second one. -/
theorem parse_branches (hp : parse text = .ok p ∨ parseExpression text = .ok p) (he : p.errors = [])
    (v : IfStatement p.tree) {e : Token} (hown : e ∈ p.tree.ownTokens text v.node)
    (hk : e.kind = .elseKw) :
    (v.DividedBy e ↔ ¬ (v.LacksThen text e ∧ v.HasElse e)) ∧
      (v.LacksThen text e → v.HasElse e →
        ∃ s, thenBranch v = some s ∧ e.stop ≤ s.span.start ∧ elseBranch v = none) := by
  obtain ⟨c, cs, ds, hsides⟩ := exists_sides hp he v hown hk
  rw [← hsides.empty_iff]
  cases cs with
  | nil =>
    -- A child behind the `else` is the second one, which is the place of the first branch.
    refine ⟨⟨fun hdivided h => ?_, fun hnot => ?_⟩, fun _ => hsides.branches_of_empty⟩
    · obtain ⟨s, hs, hstart, -⟩ := hsides.branches_of_empty h.2
      have := hdivided.before s hs
      have := s.span.start_le_stop
      have := hsides.start_lt_stop
      omega
    · exact hsides.dividedBy_of_not_hasElse fun h => hnot ⟨rfl, h⟩
  | cons x cs =>
    have hne : x :: cs ≠ [] := List.cons_ne_nil _ _
    exact ⟨iff_of_true hsides.dividedBy_of_node fun h => hne h.1, fun h => absurd h hne⟩

/-- The first `if` has two branches, the second one none that is a node. -/
theorem parse_branches_nested :
    let text := "class A \x7b void m() \x7b if (a) \x7b if (b) ; else ; \x7d else x(); \x7d \x7d"
    ∃ p, (parse text = .ok p ∨ parseExpression text = .ok p) ∧ p.errors = [] ∧
      ∃ (v : IfStatement p.tree) (e : Token), e ∈ p.tree.ownTokens text v.node ∧ e.kind = .elseKw ∧
        (v.DividedBy e ↔ ¬ (v.LacksThen text e ∧ v.HasElse e)) ∧
          (v.LacksThen text e → v.HasElse e →
            ∃ s, thenBranch v = some s ∧ e.stop ≤ s.span.start ∧ elseBranch v = none) := by
  intro text
  have hp := parse_eq_of_no_problems text (by decide +kernel)
  let t : Tree := .ofBranch text (Piece.tree .compilationUnit (fileParts text)).disambiguated
  let v : IfStatement t := ⟨9, by decide +kernel⟩
  have hown : (⟨.elseKw, "else", 48⟩ : Token) ∈ t.ownTokens text v.node := by decide +kernel
  exact ⟨_, .inl hp, rfl, v, _, hown, rfl,
    parse_branches (.inl hp) rfl v hown rfl⟩

/-- The only branch that is a node stands behind the `else`, and it is taken for the first one. -/
theorem thenBranch_behind_else :
    let text := "class A \x7b void m() \x7b if (a) ; else x(); \x7d \x7d"
    ∃ p, parse text = .ok p ∧ p.errors = [] ∧
      ∃ (v : IfStatement p.tree) (e : Token), e ∈ p.tree.ownTokens text v.node ∧ e.kind = .elseKw ∧
        ∃ s, thenBranch v = some s ∧ e.stop ≤ s.span.start ∧ elseBranch v = none := by
  intro text
  have hp := parse_eq_of_no_problems text (by decide +kernel)
  let t : Tree := .ofBranch text (Piece.tree .compilationUnit (fileParts text)).disambiguated
  let v : IfStatement t := ⟨9, by decide +kernel⟩
  let s : Statement t := ⟨11, by decide +kernel⟩
  have hown : (⟨.elseKw, "else", 30⟩ : Token) ∈ t.ownTokens text v.node := by decide +kernel
  have hchild : t.child? v.node 1 = some s.node := by decide +kernel
  have hthen : thenBranch v = some s := View.childAt_eq_some_iff.mpr hchild
  have hbehind : (⟨.elseKw, "else", 30⟩ : Token).stop ≤ s.span.start := by decide +kernel
  have hnone : t.child? v.node 2 = none := by decide +kernel
  have helse : elseBranch v = none := by
    rw [elseBranch, View.childAt, hnone]
    rfl
  exact ⟨_, hp, rfl, v, _, hown, rfl, s, hthen, hbehind, helse⟩

end

end IfStatement

end JavaSyntax
