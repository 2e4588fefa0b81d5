import JavaSyntax.Proofs.Expression.Grouping
import JavaSyntax.Proofs.Parse.Tokens

namespace JavaSyntax

open Piece Branch Content Grammar Computability

namespace Head

theorem level_le (h : Head) : h.level ≤ 8 := by
  unfold level
  split
  · exact Nat.zero_le 8
  · cases h.image.bind BinaryOperator.ofToken? with
    | none => exact Nat.zero_le 8
    | some o => exact Nat.le_trans o.strength_le (by decide)
  · exact Nat.le_succ 7
  · exact Nat.le_refl 8

/-- What is settled holds together no less than before. -/
theorem level_le_read (h : Head) (r : Reading) : h.level ≤ (h.read r).level := by
  cases r with
  | kept => exact Nat.le_refl _
  | wrapped | named | namedAndWrapped => exact h.level_le

/-- Settling the first child does no harm to it as an operand. -/
theorem le_level_settle {h : Head} {cs : List Head} {n : Nat} (hn : ∀ c ∈ cs.head?, n ≤ c.level) :
    ∀ c ∈ (h.settle cs).head?, n ≤ c.level := by
  cases cs with
  | nil =>
    intro c hc
    cases hc
  | cons c cs =>
    intro d hd
    cases hd
    exact Nat.le_trans (hn c rfl) (c.level_le_read _)

end Head

namespace Piece

variable {text : String} {k : Kind} {ps qs : List Piece}

/-- What is known of the strength of pieces is known of what they become. -/
theorem level_node (hf : (Piece.node k ps).Formed true)
    (ht : tokensOfAll ps <:+: significantTokens text) :
    (Piece.node k ps).level = Head.level ⟨k, payload none ps⟩ := by
  unfold Head.level
  split
  · next hk =>
    cases hk
    rfl
  · next hk =>
    cases hk
    obtain ⟨a, qs, t, b, rs, o, rfl, himage, _, hprecedence⟩ := binary_of_formed hf ht
    dsimp only
    rw [bind_of_token BinaryOperator.ofToken?_token himage]
    change (precedence? t.kind).getD 0 = o.strength
    rw [hprecedence]
    rfl
  · next hk =>
    cases hk
    rfl
  · next h₁ h₂ h₃ =>
    unfold Piece.level
    split
    · next h => cases h; exact absurd rfl h₁
    · next h => cases h; exact absurd rfl h₂
    · next h => cases h; exact absurd rfl h₃
    · rfl

theorem level_child (hf : (Piece.node k ps).Formed true)
    (ht : tokensOfAll ps <:+: significantTokens text) {a : Kind} (hc : .node a qs ∈ ps) :
    (Piece.node a qs).level = Head.level ⟨a, payload none qs⟩ :=
  level_node (formed_of_mem hf.2 hc) ((infix_tokensOfAll hc).trans ht)

theorem exists_find_of_heads {c : Head} (h : c ∈ (heads ps).head?) :
    ∃ a qs, ps.find? isNode = some (.node a qs) ∧ c = ⟨a, payload none qs⟩ := by
  induction ps with
  | nil => cases h
  | cons p ps ih =>
    cases p with
    | token t i => exact ih h
    | node a qs =>
      cases h
      exact ⟨a, qs, rfl, rfl⟩

theorem bound_of_formed (hf : (Piece.node k ps).Formed true)
    (ht : tokensOfAll ps <:+: significantTokens text) :
    Head.Bound ⟨k, payload none ps⟩ (Head.settle ⟨k, payload none ps⟩ (heads ps)) := by
  have hranked := hf.1.2 rfl
  have hfirst : (∀ p, ps.find? isNode = some p → 8 ≤ p.level) →
      ∀ c ∈ (Head.settle ⟨k, payload none ps⟩ (heads ps)).head?, 8 ≤ c.level := by
    intro h
    apply Head.le_level_settle
    intro c hc
    obtain ⟨a, qs, hfind, rfl⟩ := exists_find_of_heads hc
    rw [← level_child hf ht (List.mem_of_find?_eq_some hfind)]
    exact h _ hfind
  unfold Ranked at hranked
  unfold Head.Bound
  split
  · next hk =>
    cases hk
    obtain ⟨a, qs, t, b, rs, o, rfl, himage, _, hprecedence⟩ := binary_of_formed hf ht
    obtain ⟨_, _, _, s, hps, hs, hleft, hright⟩ := hranked
    cases hps
    cases hs.symm.trans hprecedence
    rw [level_child hf ht (.head _)] at hleft
    rw [level_child hf ht (.tail _ (.tail _ (.head _)))] at hright
    exact ⟨o, _, _, himage, rfl, hleft, hright⟩
  · next hk =>
    cases hk
    obtain ⟨a, qs, t, b, rs, o, rfl, himage, _⟩ := assignment_of_formed hf ht
    obtain ⟨_, _, _, hps, hleft⟩ := hranked
    cases hps
    rw [level_child hf ht (.head _)] at hleft
    exact ⟨o, _, _, himage, rfl, hleft⟩
  · next hk =>
    cases hk
    obtain ⟨t, a, qs, o, rfl, himage, _⟩ := unary_of_formed hf ht
    obtain ⟨_, _, hps, hoperand⟩ := hranked
    cases hps
    rw [level_child hf ht (.tail _ (.head _))] at hoperand
    exact ⟨o, _, himage, rfl, hoperand⟩
  · next hk =>
    cases hk
    exact hfirst hranked
  · next hk =>
    cases hk
    exact hfirst hranked
  · next hk =>
    cases hk
    exact hfirst hranked
  · trivial

end Piece

/-- What stands behind an expression and makes a larger one with it: a name and what belongs to it, given
the payload of the larger node and the tokens of its further children. Type arguments come in front of the
name, arguments behind it. -/
def SuffixSpelled (k : Kind) (image : Option String) (cs : List (List Token)) (ts : List Token) :
    Prop :=
  ∃ point name : Token, image = some name.text ∧
    match k with
    | .methodReference => point.text = "::" ∧ ts = point :: (cs.flatten ++ [name])
    | _ => point.text = "." ∧ ts = point :: name :: cs.flatten

/-- The tokens of a node that puts operands together, given the tokens of its children. -/
def Spelled (k : Kind) (image : Option String) (cs : List (List Token)) (ts : List Token) : Prop :=
  match k, cs with
  | .infixExpression, [l, r] | .assignmentExpression, [l, r] =>
    ∃ o : Token, image = some o.text ∧ ts = l ++ o :: r
  | .unaryExpression, [c] => ∃ o : Token, image = some o.text ∧ ts = o :: c
  | .fieldAccess, [c] => ∃ us, SuffixSpelled .fieldAccess image [] us ∧ ts = c ++ us
  | .methodCall, [c, a] => ∃ us, SuffixSpelled .methodCall image [a] us ∧ ts = c ++ us
  | .methodReference, c :: cs => ∃ us, SuffixSpelled .methodReference image cs us ∧ ts = c ++ us
  | _, _ => True

namespace Piece

variable {text : String} {k : Kind} {ps : List Piece} {P : Kind → Bool}

theorem spelled_of_formed (hf : (Piece.node k ps).Formed true)
    (ht : tokensOfAll ps <:+: significantTokens text) :
    Spelled k (payload none ps) (childTokens ps) (tokensOfAll ps) := by
  have hsign : ∀ {t : Token} {s : String}, t ∈ tokensOfAll ps → t.kind.sign? = some s → t.text = s :=
    fun hmem hs => text_of_sign (ht.subset hmem) hs
  have hcontent := hf.1.1
  unfold Spelled
  split
  · next hcs =>
    obtain ⟨a, qs, t, b, rs, o, rfl, himage, htext, _⟩ := binary_of_formed hf ht
    cases hcs
    refine ⟨t, htext ▸ himage, ?_⟩
    rw [tokensOfAll_node, tokensOfAll_token, tokensOfAll_last]
  · next hcs =>
    obtain ⟨a, qs, t, b, rs, o, rfl, himage, htext⟩ := assignment_of_formed hf ht
    cases hcs
    refine ⟨t, htext ▸ himage, ?_⟩
    rw [tokensOfAll_node, tokensOfAll_token, tokensOfAll_last]
  · next hcs =>
    obtain ⟨t, a, qs, o, rfl, himage, htext⟩ := unary_of_formed hf ht
    cases hcs
    refine ⟨t, htext ▸ himage, ?_⟩
    rw [tokensOfAll_token, tokensOfAll_last]
  · next hcs =>
    obtain ⟨a, qs, point, name, rfl, hpoint⟩ := of_mem_fieldAccess hcontent
    cases hcs
    have htext : point.text = "." := hsign (by simp [tokensOfAll, tokens]) (by rw [hpoint]; rfl)
    exact ⟨[point, name], ⟨point, name, rfl, htext, rfl⟩, rfl⟩
  · next hcs =>
    rw [content, due_true] at hcontent
    rcases of_mem_methodCall hcontent with ⟨name, rs, rfl⟩ | ⟨a, qs, point, name, rs, rfl, hpoint⟩
    · cases hcs
    · cases hcs
      have htext : point.text = "." := hsign (by simp [tokensOfAll, tokens]) (by rw [hpoint]; rfl)
      exact ⟨_, ⟨point, name, rfl, htext, rfl⟩, rfl⟩
  · next hcs =>
    rw [content, due_true] at hcontent
    obtain ⟨a, qs, colons, name, hcolons, hps⟩ := of_mem_methodReference hcontent
    have htext : colons.text = "::" := by
      refine hsign ?_ (by rw [hcolons]; rfl)
      rcases hps with rfl | ⟨rs, rfl⟩ <;> simp [tokensOfAll, tokens]
    rcases hps with rfl | ⟨rs, rfl⟩
    · cases hcs
      exact ⟨_, ⟨colons, name, rfl, htext, rfl⟩, rfl⟩
    · cases hcs
      refine ⟨_, ⟨colons, name, rfl, htext, rfl⟩, ?_⟩
      rw [tokensOfAll_node, tokensOfAll_token, tokensOfAll_node, childTokens, childTokens, childTokens,
        childTokens, List.flatten_cons, List.flatten_nil, List.append_nil]
      rfl
  · trivial

end Piece

namespace Branch

def IsSpelled (text : String) (b : Branch) : Prop :=
  Spelled b.kind b.image (b.children.map fun c => tokensIn text c.span) (tokensIn text b.span)

theorem lasting_isSpelled (text : String) : Lasting (IsSpelled text) := by
  refine ⟨?_, fun _ _ => trivial, fun _ _ => trivial⟩
  intro k image span cs ds hspans h
  have hmap : ds.map (fun c => tokensIn text c.span) = cs.map fun c => tokensIn text c.span := by
    have hall := congrArg (List.map (tokensIn text)) hspans
    rw [List.map_map, List.map_map] at hall
    exact hall.symm
  rw [IsSpelled, hmap]
  exact h

end Branch

section

variable {text : String} {p : Parse}

/-- In a text without errors the tokens of a node that puts operands together are those of the operands
and its own, in order. -/
theorem isSpelled_of_no_errors (hp : parse text = .ok p ∨ parseExpression text = .ok p)
    (he : p.errors = []) : ∀ b ∈ p.tree.root.subtrees, b.IsSpelled text := by
  obtain ⟨k, parts, hholds, hformed, htree⟩ := exists_holds hp fun (_ : true = true) => he
  rw [htree]
  apply (lasting_isSpelled text).disambiguated
  intro b hb
  obtain ⟨k', ps, gap, rfl, hf, ht⟩ := hholds.exists_piece hformed hb
  rw [IsSpelled, tokensIn_grown ht]
  have hmap : (grown gap k' ps).children.map (fun c => tokensIn text c.span) = childTokens ps :=
    map_tokensIn_branches ht _
  rw [hmap]
  exact spelled_of_formed hf ht

theorem bound_of_no_errors (hp : parse text = .ok p ∨ parseExpression text = .ok p)
    (he : p.errors = []) : ∀ b ∈ p.tree.root.subtrees, b.head.Bound b.heads :=
  forall_parsed hp (fun _ => he) Head.admits_bound fun _ _ => bound_of_formed

end

/-- The tokens that a part of an expression is written with. -/
def Mark.Written (text : String) : Mark → List Token → Prop
  | .operand b, ts => ts = tokensIn text b.span
  | .suffix s, ts => SuffixSpelled s.kind s.image (s.children.map fun c => tokensIn text c.span) ts
  | .operator o, ts => ∃ t : Token, ts = [t] ∧ t.text = o

/-- The parts of an expression are written one after the other. -/
def Written (text : String) : List Mark → List Token → Prop
  | [], ts => ts = []
  | m :: ms, ts => ∃ us vs, ts = us ++ vs ∧ m.Written text us ∧ Written text ms vs

section

variable {text : String}

theorem written_single {m : Mark} {ts : List Token} (h : m.Written text ts) : Written text [m] ts :=
  ⟨ts, [], (List.append_nil ts).symm, h, rfl⟩

theorem Written.append {ms ns : List Mark} {us vs : List Token} (h : Written text ms us)
    (h' : Written text ns vs) : Written text (ms ++ ns) (us ++ vs) := by
  induction ms generalizing us with
  | nil =>
    cases h
    exact h'
  | cons m ms ih =>
    obtain ⟨a, b, rfl, hm, hms⟩ := h
    exact ⟨a, b ++ vs, List.append_assoc a b vs, hm, ih hms⟩

theorem written_joined {l r : Branch} {o : Joint} {t : Token} (ht : t.text = o.token)
    (hl : Written text l.grouping.marks (tokensIn text l.span))
    (hr : Written text r.grouping.marks (tokensIn text r.span)) :
    Written text (Grouping.joined o l.grouping r.grouping).marks
      (tokensIn text l.span ++ t :: tokensIn text r.span) :=
  hl.append ⟨[t], _, rfl, ⟨t, rfl, ht⟩, hr⟩

theorem written_suffixed {c : Branch} {s : Suffix} {ts : List Token}
    (hc : Written text c.grouping.marks (tokensIn text c.span))
    (hs : ∃ us, SuffixSpelled s.kind s.image (s.children.map fun c => tokensIn text c.span) us ∧
      ts = tokensIn text c.span ++ us) :
    Written text (Grouping.suffixed c.grouping s).marks ts := by
  obtain ⟨us, hus, rfl⟩ := hs
  exact hc.append (written_single hus)

/-- The parts of an expression in the order of its grouping are written in the order of the text. -/
theorem written_grouping {b : Branch} (h : ∀ c ∈ b.subtrees, c.IsSpelled text) :
    Written text b.grouping.marks (tokensIn text b.span) := by
  have hself := h b b.mem_subtrees_self
  fun_induction Branch.grouping b with
  | case1 image span l r o ho ihl ihr =>
    have hl := forall_child h (.head _)
    have hr := forall_child h (.tail _ (.head _))
    obtain ⟨t, rfl, hts⟩ := hself
    change Written text _ (tokensIn text span)
    rw [show tokensIn text span = _ from hts]
    exact written_joined (BinaryOperator.token_of_ofToken? ho).symm
      (ihl hl (hl l l.mem_subtrees_self)) (ihr hr (hr r r.mem_subtrees_self))
  | case3 image span l r o ho ihl ihr =>
    have hl := forall_child h (.head _)
    have hr := forall_child h (.tail _ (.head _))
    obtain ⟨t, rfl, hts⟩ := hself
    change Written text _ (tokensIn text span)
    rw [show tokensIn text span = _ from hts]
    exact written_joined (AssignmentOperator.token_of_ofToken? ho).symm
      (ihl hl (hl l l.mem_subtrees_self)) (ihr hr (hr r r.mem_subtrees_self))
  | case5 image span c o ho ih =>
    have hc := forall_child h (.head _)
    obtain ⟨t, rfl, hts⟩ := hself
    exact ⟨[t], _, hts, ⟨t, rfl, (UnaryOperator.token_of_ofToken? ho).symm⟩,
      ih hc (hc c c.mem_subtrees_self)⟩
  | case7 image span c ih =>
    have hc := forall_child h (.head _)
    exact written_suffixed (ih hc (hc c c.mem_subtrees_self)) hself
  | case8 image span c arguments ih =>
    have hc := forall_child h (.head _)
    exact written_suffixed (ih hc (hc c c.mem_subtrees_self)) hself
  | case9 image span c cs ih =>
    have hc := forall_child h (.head _)
    exact written_suffixed (ih hc (hc c c.mem_subtrees_self)) hself
  | case2 | case4 | case6 | case10 => exact written_single rfl

end

section

variable {text : String} {p : Parse}

/-- In a text without errors every operand holds together as strongly as the operator around it asks, and
what is written leaves no other choice: there is one way only to group the parts of an expression, in
the order in which they are written, so that this is true. -/
theorem parse_grouping (hp : parse text = .ok p ∨ parseExpression text = .ok p) (he : p.errors = []) :
    ∀ b ∈ p.tree.root.subtrees, b.head.Bound b.heads ∧
      b.grouping.Allowed ∧ Written text b.grouping.marks (tokensIn text b.span) ∧
      ∀ g : Grouping, g.Allowed → g.marks = b.grouping.marks → g = b.grouping := by
  intro b hb
  have hbound := bound_of_no_errors hp he
  have hspelled := isSpelled_of_no_errors hp he
  have hallowed : b.grouping.Allowed := allowed_grouping fun c hc => hbound c (subtrees_subset hb c hc)
  refine ⟨hbound b hb, hallowed, ?_, fun g hg hmarks => hg.unique hallowed hmarks⟩
  exact written_grouping fun c hc => hspelled c (subtrees_subset hb c hc)

/-- Both assignments from the right, the differences from the left, the product and the sign before
them, and the call before the sign. -/
theorem parse_grouping_chain :
    let text := "a = b += c - d - e * -f.g(h)"
    ∃ p, parseExpression text = .ok p ∧ p.errors = [] ∧
      ∀ b ∈ p.tree.root.subtrees, b.head.Bound b.heads ∧
        b.grouping.Allowed ∧ Written text b.grouping.marks (tokensIn text b.span) ∧
        ∀ g : Grouping, g.Allowed → g.marks = b.grouping.marks → g = b.grouping := by
  intro text
  have hproblems : (loneExpression (significantTokens text)).problems = [] := by decide +kernel
  have herrors : (loneExpression (significantTokens text)).problems.map (Problem.diagnostic text) = [] :=
    List.map_eq_nil_iff.mpr hproblems
  exact ⟨_, parseExpression_eq text, herrors, parse_grouping (.inr (parseExpression_eq text)) herrors⟩

end

end JavaSyntax
