import JavaSyntax.Proofs.Parse.Shifted
import JavaSyntax.Proofs.Parse.Tokens
import JavaSyntax.Proofs.Tree.Origin

namespace JavaSyntax

open Piece

/-- The kind of a node and its place in the text. -/
def Branch.outline (b : Branch) : Kind × Span := (b.kind, b.span)

def Tree.outline (t : Tree) (n : NodeId) : Kind × Span := (t.kind n, t.span n)

/-- Nodes of these kinds are in the settled tree as they were made, and so are their children. -/
def Kind.isPlain (k : Kind) : Bool := !isQualified k && k != .classType && k != .typeExpression

theorem Branch.outline_disambiguated {b : Branch} (h : isQualified b.kind = false) :
    b.disambiguated.span = b.span ∧
      b.disambiguated.children.map outline = b.children.map outline := by
  refine ⟨span_disambiguated b, ?_⟩
  rw [children_disambiguated h, List.map_map]
  refine List.map_congr_left fun c _ => ?_
  exact Prod.ext (congrArg Head.kind c.head_disambiguated) (span_disambiguated c)

namespace Tree

variable {t : Tree} {n : Nat} {b : Branch}

theorem Rooted.outline_eq (h : t.Rooted n b) : t.outline n = b.outline :=
  Prod.ext h.kind_eq h.span_eq

theorem Rooted.outlines_eq (h : t.Rooted n b) :
    (t.children n).map t.outline = b.children.map Branch.outline :=
  h.map_children fun _ _ hc => hc.outline_eq

theorem map_kind_of_outlines {ms : List NodeId} {bs : List Branch}
    (h : ms.map t.outline = bs.map Branch.outline) : ms.map t.kind = (bs.map Branch.head).map Head.kind := by
  have hkinds := congrArg (List.map Prod.fst) h
  rw [List.map_map, List.map_map] at hkinds
  rw [List.map_map]
  exact hkinds

theorem exists_span_of_outlines {ms : List NodeId} {bs : List Branch}
    (h : ms.map t.outline = bs.map Branch.outline) : ∀ m ∈ ms, ∃ b ∈ bs, b.span = t.span m := by
  intro m hm
  have hmem : t.outline m ∈ bs.map Branch.outline := h ▸ List.mem_map_of_mem hm
  obtain ⟨b, hb, hout⟩ := List.mem_map.mp hmem
  exact ⟨b, hb, congrArg Prod.snd hout⟩

end Tree

/-- A node of a tree, with the pieces it was made of. -/
structure Tree.Made (clean : Bool) (text : String) (t : Tree) (n : NodeId) (ps : List Piece) : Prop where
  formed : (Piece.node (t.kind n) ps).Formed clean
  tokens : tokensOfAll ps <:+: significantTokens text
  stands : ∃ gap, t.span n = (Piece.grown gap (t.kind n) ps).span ∧
    (t.children n).map t.outline = (Piece.grown gap (t.kind n) ps).children.map Branch.outline

/-- The nodes of the settled tree whose first children keep their meaning stand for pieces below the one
that the tree was made of. A class type can also be a name that was settled as one. -/
theorem exists_below_or_named {k : Kind} {parts : List Piece} {t : Tree}
    (ht : t.root = (Piece.tree k parts).disambiguated) {n : NodeId} (hn : n < t.size)
    (hq : isQualified (t.kind n) = false) (he : t.kind n ≠ .typeExpression) :
    (∃ ps gap, Below (.node (t.kind n) ps) (.node k parts) ∧ t.image n = payload none ps ∧
      t.span n = (Piece.grown gap (t.kind n) ps).span ∧
        (t.children n).map t.outline =
          (Piece.grown gap (t.kind n) ps).children.map Branch.outline) ∨
      t.kind n = .classType ∧ t.children n = [] ∧
        ∃ ps gap, Below (.node .ambiguousName ps) (.node k parts) ∧ t.image n = payload none ps ∧
          t.span n = (Piece.grown gap .ambiguousName ps).span := by
  obtain ⟨b, hb, hrooted⟩ := Tree.exists_rooted hn
  have hkind : t.kind n = b.kind := hrooted.kind_eq
  rw [hkind] at hq he ⊢
  rw [ht] at hb
  have hpiece {d : Branch} (hd : d ∈ (Piece.tree k parts).subtrees) :
      ∃ j ps gap, Below (.node j ps) (.node k parts) ∧ d = grown gap j ps := by
    have hd : d ∈ Branch.subtreesOfAll ((Piece.node k parts).branch 0) := List.mem_append_left _ hd
    exact exists_below_branch (.node k parts) 0 d hd
  cases Branch.origin_of_mem _ b hb with
  | expression hd => exact absurd hd he
  | name d hd hname hbd =>
    obtain ⟨j, ps, gap, hbelow, rfl⟩ := hpiece hd
    obtain rfl : j = .ambiguousName := hname
    refine .inr ⟨congrArg Branch.kind hbd, ?_, ps, gap, hbelow, ?_, ?_⟩
    · rw [hrooted.children_eq, hbd]
      rfl
    · rw [hrooted.image_eq, hbd]
      rfl
    · rw [hrooted.span_eq, hbd]
      rfl
  | node d hd hbd =>
    obtain ⟨j, ps, gap, hbelow, rfl⟩ := hpiece hd
    have hhead : b.head = (Piece.grown gap j ps).head := by rw [hbd, Branch.head_disambiguated]
    obtain rfl : b.kind = j := congrArg Head.kind hhead
    obtain ⟨hspan, houtlines⟩ := Branch.outline_disambiguated (b := Piece.grown gap b.kind ps) hq
    refine .inl ⟨ps, gap, hbelow, hrooted.image_eq.trans (congrArg Head.image hhead), ?_, ?_⟩
    · exact hrooted.span_eq.trans ((congrArg Branch.span hbd).trans hspan)
    · have hsettled := congrArg (fun c => c.children.map Branch.outline) hbd
      exact hrooted.outlines_eq.trans (hsettled.trans houtlines)

/-- Plain nodes of the settled tree stand for pieces below the one that the tree was made of. -/
theorem exists_below {k : Kind} {parts : List Piece} {t : Tree}
    (ht : t.root = (Piece.tree k parts).disambiguated) {n : NodeId} (hn : n < t.size)
    (hk : (t.kind n).isPlain = true) :
    ∃ ps gap, Below (.node (t.kind n) ps) (.node k parts) ∧ t.image n = payload none ps ∧
      t.span n = (Piece.grown gap (t.kind n) ps).span ∧
        (t.children n).map t.outline =
          (Piece.grown gap (t.kind n) ps).children.map Branch.outline := by
  simp only [Kind.isPlain, Bool.and_eq_true, Bool.not_eq_true', bne_iff_ne] at hk
  rcases exists_below_or_named ht hn hk.1.1 hk.2 with h | ⟨hclass, _⟩
  · exact h
  · exact absurd hclass hk.1.2

/-- The same with the pieces as the grammar has them. -/
theorem exists_made_or_named {clean : Bool} {text : String} {p : Parse}
    (hp : parse text = .ok p ∨ parseExpression text = .ok p) (he : clean = true → p.errors = [])
    {n : NodeId} (hn : n < p.tree.size) (hq : isQualified (p.tree.kind n) = false)
    (hx : p.tree.kind n ≠ .typeExpression) :
    (∃ ps, p.tree.Made clean text n ps ∧ p.tree.image n = payload none ps) ∨
      p.tree.kind n = .classType ∧ p.tree.children n = [] ∧
        ∃ ps, (Piece.node .ambiguousName ps).Formed clean ∧
          tokensOfAll ps <:+: significantTokens text ∧ p.tree.image n = payload none ps ∧
            tokensIn text (p.tree.span n) = tokensOfAll ps := by
  obtain ⟨k, parts, hholds, hformed, htree⟩ := exists_holds hp he
  have hroot : p.tree.root = (Piece.tree k parts).disambiguated := by rw [htree]; rfl
  have htokens {j : Kind} {ps : List Piece} (hbelow : Below (.node j ps) (.node k parts)) :
      tokensOfAll ps <:+: significantTokens text := by
    rw [← hholds.tokens]
    exact hbelow.tokens
  rcases exists_below_or_named hroot hn hq hx with
    ⟨ps, gap, hbelow, himage, hspan, houtlines⟩ |
    ⟨hclass, hchildren, ps, gap, hbelow, himage, hspan⟩
  · exact .inl ⟨ps, ⟨hbelow.formed hformed, htokens hbelow, gap, hspan, houtlines⟩, himage⟩
  · refine .inr ⟨hclass, hchildren, ps, hbelow.formed hformed, htokens hbelow, himage, ?_⟩
    rw [hspan, tokensIn_grown (htokens hbelow)]

/-- Plain nodes are made of pieces as the grammar has them, and so is their payload. -/
theorem exists_made_with_image {clean : Bool} {text : String} {p : Parse}
    (hp : parse text = .ok p ∨ parseExpression text = .ok p) (he : clean = true → p.errors = [])
    {n : NodeId} (hn : n < p.tree.size) (hk : (p.tree.kind n).isPlain = true) :
    ∃ ps, p.tree.Made clean text n ps ∧ p.tree.image n = payload none ps := by
  simp only [Kind.isPlain, Bool.and_eq_true, Bool.not_eq_true', bne_iff_ne] at hk
  rcases exists_made_or_named hp he hn hk.1.1 hk.2 with h | ⟨hclass, _⟩
  · exact h
  · exact absurd hclass hk.1.2

/-- Plain nodes are made of pieces as the grammar has them. -/
theorem exists_made {clean : Bool} {text : String} {p : Parse}
    (hp : parse text = .ok p ∨ parseExpression text = .ok p) (he : clean = true → p.errors = [])
    {n : NodeId} (hn : n < p.tree.size) (hk : (p.tree.kind n).isPlain = true) :
    ∃ ps, p.tree.Made clean text n ps := by
  obtain ⟨ps, hmade, _⟩ := exists_made_with_image hp he hn hk
  exact ⟨ps, hmade⟩

namespace Piece

variable {ps qs : List Piece} {t : Token}

theorem mem_tokensOfAll_iff : t ∈ tokensOfAll ps ↔
    t ∈ (direct ps).map Prod.fst ∨ t ∈ (childTokens ps).flatten := by
  induction ps with
  | nil => exact ⟨fun h => .inl h, fun h => h.elim id id⟩
  | cons p ps ih =>
    cases p with
    | token u i =>
      rw [tokensOfAll_token, direct, childTokens, List.mem_cons, ih, List.map_cons, List.mem_cons,
        or_assoc]
    | node k qs =>
      rw [tokensOfAll_node, direct, childTokens, List.mem_append, ih, List.flatten_cons,
        List.mem_append, or_left_comm]

/-- Without the tokens of its children a node has its own tokens left. -/
theorem filter_tokensOfAll (h : (tokensOfAll ps).Nodup) :
    (tokensOfAll ps).filter (fun u => !(childTokens ps).flatten.contains u) =
      (direct ps).map Prod.fst := by
  induction ps with
  | nil => rfl
  | cons p ps ih =>
    cases p with
    | token u i =>
      rw [tokensOfAll_token, List.nodup_cons] at h
      have hu : u ∉ (childTokens ps).flatten := fun hmem => h.1 (mem_tokensOfAll_iff.mpr (.inr hmem))
      rw [tokensOfAll_token, childTokens, List.filter_cons_of_pos (by simpa using hu), ih h.2]
      rfl
    | node k qs =>
      rw [tokensOfAll_node, List.nodup_append] at h
      have hown : (tokensOfAll qs).filter
          (fun u => !(childTokens (.node k qs :: ps)).flatten.contains u) = [] := by
        rw [List.filter_eq_nil_iff]
        intro u hu
        simp [childTokens, hu]
      have hrest : (tokensOfAll ps).filter
          (fun u => !(childTokens (.node k qs :: ps)).flatten.contains u) =
            (tokensOfAll ps).filter (fun u => !(childTokens ps).flatten.contains u) := by
        refine List.filter_congr fun u hu => ?_
        have hne : u ∉ tokensOfAll qs := fun hmem => h.2.2 u hmem u hu rfl
        simp [childTokens, hne]
      rw [tokensOfAll_node, List.filter_append, hown, hrest, ih h.2.1]
      rfl

/-- A token among the pieces of a node divides the branches that are made of them. -/
theorem exists_divided {text : String} {before after : List Piece} {u : Token} {i : Bool}
    (h : tokensOfAll (before ++ .token u i :: after) <:+: significantTokens text) (gap : Nat) (k : Kind) :
    ∃ bs cs, (grown gap k (before ++ .token u i :: after)).children = bs ++ cs ∧
      bs.map Branch.head = heads before ∧ cs.map Branch.head = heads after ∧
        (∀ b ∈ bs, b.span.stop ≤ u.start) ∧ ∀ c ∈ cs, u.stop ≤ c.span.start := by
  obtain ⟨front, back, hall⟩ := h
  have hin := inOrder_significantTokens text
  rw [← hall, List.append_assoc] at hin
  obtain ⟨start, _, hin⟩ := inOrder_append.mp hin
  obtain ⟨stop, hin, _⟩ := inOrder_append.mp hin
  have htokens : tokensOfAll (before ++ .token u i :: after) =
      tokensOfAll before ++ u :: tokensOfAll after := by
    rw [tokensOfAll_append, tokensOfAll_token]
  have hne : tokensOfAll (before ++ .token u i :: after) ≠ [] := by
    rw [htokens]
    exact List.append_ne_nil_of_right_ne_nil _ (List.cons_ne_nil _ _)
  obtain ⟨span, hcover, _, _, _, hin, _⟩ := cover_inOrder hin hne
  rw [htokens] at hin
  obtain ⟨mid, hbefore, hmid, _, hafter⟩ := inOrder_append.mp hin
  have hbefore : InOrder span.start u.start (tokensOfAll before ++ []) :=
    inOrder_append.mpr ⟨mid, hbefore, hmid⟩
  rw [List.append_nil] at hbefore
  refine ⟨branches u.start before, branches span.stop after, ?_, map_head_branches _ _,
    map_head_branches _ _, fun b hb => ((within_branches before hbefore).bounds b hb).2,
    fun c hc => ((within_branches after hafter).bounds c hc).1⟩
  rw [grown, hcover, branches_append, tokensOfAll_token]
  rfl

end Piece

/-- The tokens of a text that stand in a node itself, and in none of its children. -/
def Tree.ownTokens (text : String) (t : Tree) (n : NodeId) : List Token :=
  (tokensIn text (t.span n)).filter fun u => !(t.children n).any fun c => (t.span c).holds u

namespace Tree.Made

variable {clean : Bool} {text : String} {t : Tree} {n : NodeId} {ps : List Piece}

theorem tokensIn_eq (h : t.Made clean text n ps) : tokensIn text (t.span n) = tokensOfAll ps := by
  obtain ⟨gap, hspan, _⟩ := h.stands
  rw [hspan, tokensIn_grown h.tokens]

theorem kinds_eq (h : t.Made clean text n ps) :
    (t.children n).map t.kind = (Piece.heads ps).map Head.kind := by
  obtain ⟨gap, _, houtlines⟩ := h.stands
  rw [Tree.map_kind_of_outlines houtlines, ← heads_grown gap]
  rfl

theorem childTokens_eq (h : t.Made clean text n ps) :
    (t.children n).map (fun c => tokensIn text (t.span c)) = childTokens ps := by
  obtain ⟨gap, _, houtlines⟩ := h.stands
  have hspans := congrArg (List.map fun o => tokensIn text o.2) houtlines
  rw [List.map_map, List.map_map] at hspans
  exact hspans.trans (map_tokensIn_branches h.tokens _)

/-- The tokens that stand in a node itself are those that it was made of directly. -/
theorem ownTokens_eq (h : t.Made clean text n ps) :
    t.ownTokens text n = (direct ps).map Prod.fst := by
  have hnodup : (tokensOfAll ps).Nodup := (nodup_significantTokens text).sublist h.tokens.sublist
  rw [← filter_tokensOfAll hnodup, Tree.ownTokens, h.tokensIn_eq]
  refine List.filter_congr fun u hu => ?_
  have hin : u ∈ significantTokens text := h.tokens.subset hu
  rw [Bool.not_eq_eq_eq_not, Bool.not_not, ← h.childTokens_eq, Bool.eq_iff_iff, List.any_eq_true,
    List.contains_iff_mem, List.mem_flatten]
  constructor
  · rintro ⟨c, hc, hholds⟩
    exact ⟨_, List.mem_map_of_mem hc, List.mem_filter.mpr ⟨hin, hholds⟩⟩
  · rintro ⟨_, hmem, hchild⟩
    obtain ⟨c, hc, rfl⟩ := List.mem_map.mp hmem
    exact ⟨c, hc, (List.mem_filter.mp hchild).2⟩

theorem mem_ownTokens_iff (h : t.Made clean text n ps) {u : Token} :
    u ∈ t.ownTokens text n ↔ u ∈ (direct ps).map Prod.fst := by
  rw [h.ownTokens_eq]

theorem not_mem_childTokens (h : t.Made clean text n ps) {u : Token}
    (hu : u ∈ t.ownTokens text n) : u ∉ (childTokens ps).flatten := by
  have hnodup : (tokensOfAll ps).Nodup := (nodup_significantTokens text).sublist h.tokens.sublist
  rw [h.ownTokens_eq, ← filter_tokensOfAll hnodup] at hu
  simpa using (List.mem_filter.mp hu).2

/-- A token of its own divides the tokens of a node. -/
theorem split_tokens (h : t.Made clean text n ps) {before after : List Piece} {u : Token} {i : Bool}
    (hps : ps = before ++ .token u i :: after) :
    u.start < u.stop ∧ (∀ w ∈ tokensOfAll before, w.stop ≤ u.start) ∧
      ∀ w ∈ tokensOfAll after, u.stop ≤ w.start ∧ w.start < w.stop := by
  have hin := inOrder_significantTokens text
  have hbounds {w : Token} (hw : w ∈ tokensOfAll ps) : w.start < w.stop :=
    (hin.bounds w (h.tokens.subset hw)).2.1
  have hpairwise := hin.pairwise.sublist h.tokens.sublist
  have htokens : tokensOfAll ps = tokensOfAll before ++ u :: tokensOfAll after := by
    rw [hps, tokensOfAll_append, tokensOfAll_token]
  rw [htokens, List.pairwise_append] at hpairwise
  obtain ⟨_, hafter, hbefore⟩ := hpairwise
  rw [htokens] at hbounds
  refine ⟨hbounds (List.mem_append_right _ List.mem_cons_self),
    fun w hw => (hbefore w hw u List.mem_cons_self).2, fun w hw => ?_⟩
  exact ⟨((List.pairwise_cons.mp hafter).1 w hw).2,
    hbounds (List.mem_append_right _ (List.mem_cons_of_mem _ hw))⟩

/-- A token of its own divides the children of a node into those before and those behind it. -/
theorem split (h : t.Made clean text n ps) {before after : List Piece} {u : Token} {i : Bool}
    (hps : ps = before ++ .token u i :: after) :
    ∃ cs ds, t.children n = cs ++ ds ∧ cs.map t.kind = (Piece.heads before).map Head.kind ∧
      ds.map t.kind = (Piece.heads after).map Head.kind ∧
        (∀ c ∈ cs, (t.span c).stop ≤ u.start) ∧ ∀ d ∈ ds, u.stop ≤ (t.span d).start := by
  subst hps
  obtain ⟨gap, _, houtlines⟩ := h.stands
  obtain ⟨bs, bs', hall, hheads, hheads', hbefore, hafter⟩ := exists_divided h.tokens gap (t.kind n)
  rw [hall, List.map_append] at houtlines
  obtain ⟨cs, ds, hchildren, hcs, hds⟩ := List.map_eq_append_iff.mp houtlines
  refine ⟨cs, ds, hchildren, hheads ▸ Tree.map_kind_of_outlines hcs,
    hheads' ▸ Tree.map_kind_of_outlines hds, fun c hc => ?_, fun d hd => ?_⟩
  · obtain ⟨b, hb, hspan⟩ := Tree.exists_span_of_outlines hcs c hc
    exact hspan ▸ hbefore b hb
  · obtain ⟨b, hb, hspan⟩ := Tree.exists_span_of_outlines hds d hd
    exact hspan ▸ hafter b hb

end Tree.Made

end JavaSyntax
