import JavaSyntax.Proofs.Expression.Follow
import JavaSyntax.Proofs.Expression.Operators
import JavaSyntax.Proofs.Tree.Heads

namespace JavaSyntax

theorem UnaryOperator.token_injective {o o' : UnaryOperator} (h : o.token = o'.token) : o = o' := by
  have hsome := congrArg ofToken? h
  rw [o.ofToken?_token, o'.ofToken?_token] at hsome
  exact Option.some.inj hsome

/-- An operator between two operands. -/
inductive Joint where
  | binary (operator : BinaryOperator)
  | assignment (operator : AssignmentOperator)

namespace Joint

def token : Joint → String
  | .binary o => o.token
  | .assignment o => o.token

/-- How strongly the operator holds its operands together. Assignments hold least. -/
def strength : Joint → Nat
  | .binary o => o.strength
  | .assignment _ => 0

/-- How strongly what stands left of the operator must hold together. -/
def leftLevel : Joint → Nat
  | .binary o => o.strength
  | .assignment _ => 1

/-- How strongly what stands right of the operator must hold together. Only assignments can be followed
by what holds as little as they do. -/
def rightLevel : Joint → Nat
  | .binary o => o.strength + 1
  | .assignment _ => 0

theorem token_injective {o o' : Joint} (h : o.token = o'.token) : o = o' := by
  have hapart : ∀ (b : BinaryOperator) (a : AssignmentOperator), b.token ≠ a.token := by
    intro b a
    cases b <;> cases a <;> decide
  cases o with
  | binary b =>
    cases o' with
    | binary b' =>
      have hsome := congrArg BinaryOperator.ofToken? h
      rw [token, token, b.ofToken?_token, b'.ofToken?_token] at hsome
      exact congrArg _ (Option.some.inj hsome)
    | assignment a => exact absurd h (hapart b a)
  | assignment a =>
    cases o' with
    | binary b => exact absurd h.symm (hapart b a)
    | assignment a' =>
      have hsome := congrArg AssignmentOperator.ofToken? h
      rw [token, token, a.ofToken?_token, a'.ofToken?_token] at hsome
      exact congrArg _ (Option.some.inj hsome)

theorem strength_le (o : Joint) : o.strength ≤ 6 := by
  cases o with
  | binary b => exact b.strength_le
  | assignment a => exact Nat.zero_le 6

theorem strength_le_leftLevel (o : Joint) : o.strength ≤ o.leftLevel := by
  cases o with
  | binary b => exact Nat.le_refl _
  | assignment a => exact Nat.zero_le 1

theorem strength_le_rightLevel (o : Joint) : o.strength ≤ o.rightLevel := by
  cases o with
  | binary b => exact Nat.le_succ _
  | assignment a => exact Nat.le_refl 0

/-- Of two operators in a row one only can have the other in its operand. -/
theorem not_both {o o' : Joint} (h : o.leftLevel ≤ o'.strength) (h' : o'.rightLevel ≤ o.strength) :
    False := by
  cases o with
  | binary b =>
    have := b.strength_pos
    cases o' <;> simp only [leftLevel, rightLevel, strength] at h h' <;> omega
  | assignment a => cases o' <;> simp only [leftLevel, rightLevel, strength] at h h' <;> omega

end Joint

/-- How strongly an expression holds together: an assignment least, then the binary operators, the
unary ones, and what is joined by points and brackets alone. -/
def Head.level (h : Head) : Nat :=
  match h.kind with
  | .assignmentExpression => 0
  | .infixExpression => (h.image.bind BinaryOperator.ofToken?).elim 0 BinaryOperator.strength
  | .unaryExpression => 7
  | _ => 8

/-- What stands behind an expression and makes a larger one with it, as in `a.f`, `a.f(x)` and `a::f`: the
kind and the payload of the larger node and the children after the first. -/
structure Suffix where
  kind : Kind
  image : Option String
  children : List Branch

/-- What an expression consists of, from left to right. -/
inductive Mark where
  | operand (operand : Branch)
  | suffix (suffix : Suffix)
  | operator (text : String)

def Mark.isOperand : Mark → Bool
  | .operand _ | .suffix _ => true
  | .operator _ => false

/-- Behind such marks an operator has a left operand. -/
def endsOperand (ms : List Mark) : Bool := ms.getLast?.any Mark.isOperand

theorem endsOperand_operator (ls : List Mark) (s : String) (ms : List Mark) :
    endsOperand (ls ++ .operator s :: ms) = endsOperand ms := by
  rw [endsOperand, List.getLast?_append]
  cases ms with
  | nil => rfl
  | cons m ms => rw [endsOperand, List.getLast?_cons_cons, List.getLast?_cons]; rfl

/-- A way to put the operands of an expression together. -/
inductive Grouping where
  | operand (operand : Branch)
  | suffixed (inner : Grouping) (suffix : Suffix)
  | unary (operator : UnaryOperator) (inner : Grouping)
  | joined (operator : Joint) (left right : Grouping)

namespace Grouping

def marks : Grouping → List Mark
  | .operand b => [.operand b]
  | .suffixed g s => g.marks ++ [.suffix s]
  | .unary o g => .operator o.token :: g.marks
  | .joined o l r => l.marks ++ .operator o.token :: r.marks

/-- How strongly the whole holds together. -/
def level : Grouping → Nat
  | .operand _ | .suffixed _ _ => 8
  | .unary _ _ => 7
  | .joined o _ _ => o.strength

/-- Every operand holds together as strongly as it has to, and is not put together by operators. -/
def Allowed : Grouping → Prop
  | .operand b => 8 ≤ b.head.level
  | .suffixed g _ => g.Allowed ∧ 8 ≤ g.level
  | .unary _ g => g.Allowed ∧ 7 ≤ g.level
  | .joined o l r => l.Allowed ∧ r.Allowed ∧ o.leftLevel ≤ l.level ∧ o.rightLevel ≤ r.level

theorem endsOperand_marks (g : Grouping) : endsOperand g.marks = true := by
  induction g with
  | operand b => rfl
  | suffixed g s _ =>
    rw [marks, endsOperand, List.getLast?_concat]
    rfl
  | unary o g ih =>
    rw [marks, ← ih]
    exact endsOperand_operator [] o.token g.marks
  | joined o l r _ ih => rw [marks, endsOperand_operator, ih]

theorem marks_ne_nil (g : Grouping) : g.marks ≠ [] := by
  intro h
  have := g.endsOperand_marks
  rw [h] at this
  cases this

/-- Two ways to cut a list at an element are one, or one of the cuts is in front of the other. -/
theorem cut_cases {α : Type} {l l' r r' : List α} {x x' : α} (h : l ++ x :: r = l' ++ x' :: r') :
    (l = l' ∧ x = x' ∧ r = r') ∨ (∃ m, l = l' ++ x' :: m ∧ r' = m ++ x :: r) ∨
      ∃ m, l' = l ++ x :: m ∧ r = m ++ x' :: r' := by
  rcases List.append_eq_append_iff.mp h with ⟨m, rfl, hm⟩ | ⟨m, rfl, hm⟩
  · cases m with
    | nil =>
      cases hm
      exact .inl ⟨(List.append_nil l).symm, rfl, rfl⟩
    | cons y m =>
      cases hm
      exact .inr (.inr ⟨m, rfl, rfl⟩)
  · cases m with
    | nil =>
      cases hm
      exact .inl ⟨List.append_nil l', rfl, rfl⟩
    | cons y m =>
      cases hm
      exact .inr (.inl ⟨m, rfl, rfl⟩)

theorem nil_ne_cut {α : Type} {l r : List α} {x : α} : [] ≠ l ++ x :: r :=
  (List.append_ne_nil_of_right_ne_nil l (List.cons_ne_nil x r)).symm

/-- An operator with a left operand holds no less than the whole expression. -/
theorem level_le_strength {g : Grouping} (hg : g.Allowed) {front back : List Mark} {s : String}
    (hfront : endsOperand front = true) (h : g.marks = front ++ .operator s :: back) :
    ∃ o : Joint, s = o.token ∧ g.level ≤ o.strength := by
  induction g generalizing front back with
  | operand b =>
    rcases cut_cases (l := []) h with ⟨_, h, _⟩ | ⟨_, h, _⟩ | ⟨_, _, h⟩
    · cases h
    · exact (nil_ne_cut h).elim
    · exact (nil_ne_cut h).elim
  | suffixed g t ih =>
    rcases cut_cases h with ⟨_, h, _⟩ | ⟨m, hinner, _⟩ | ⟨_, _, h⟩
    · cases h
    · obtain ⟨o, ho, hle⟩ := ih hg.1 hfront hinner
      exact ⟨o, ho, Nat.le_trans hg.2 hle⟩
    · exact (nil_ne_cut h).elim
  | unary u g ih =>
    rcases cut_cases (l := []) h with ⟨h, _, _⟩ | ⟨_, h, _⟩ | ⟨m, rfl, hinner⟩
    · rw [← h] at hfront
      cases hfront
    · exact (nil_ne_cut h).elim
    · rw [endsOperand_operator] at hfront
      obtain ⟨o, ho, hle⟩ := ih hg.1 hfront hinner
      exact ⟨o, ho, Nat.le_trans hg.2 hle⟩
  | joined o l r ihl ihr =>
    obtain ⟨hl, hr, hleft, hright⟩ := hg
    rcases cut_cases h with ⟨_, h, _⟩ | ⟨m, hinner, _⟩ | ⟨m, rfl, hinner⟩
    · cases h
      exact ⟨o, rfl, Nat.le_refl _⟩
    · obtain ⟨o', ho, hle⟩ := ihl hl hfront hinner
      exact ⟨o', ho, Nat.le_trans o.strength_le_leftLevel (Nat.le_trans hleft hle)⟩
    · rw [endsOperand_operator] at hfront
      obtain ⟨o', ho, hle⟩ := ihr hr hfront hinner
      exact ⟨o', ho, Nat.le_trans o.strength_le_rightLevel (Nat.le_trans hright hle)⟩

/-- What has an operator between two operands holds together less than what has none. -/
theorem marks_ne_joined {g l r : Grouping} {o : Joint} (hg : g.Allowed) (hlevel : 7 ≤ g.level) :
    g.marks ≠ (joined o l r).marks := by
  intro h
  obtain ⟨o', _, hle⟩ := level_le_strength hg l.endsOperand_marks h
  have := o'.strength_le
  omega

/-- What holds together most starts with an operand. -/
theorem marks_ne_unary {g g' : Grouping} {u : UnaryOperator} (hg : g.Allowed) (hlevel : 8 ≤ g.level) :
    g.marks ≠ (unary u g').marks := by
  have hstart : ∀ {g : Grouping}, g.Allowed → 8 ≤ g.level → ∀ s ms, g.marks ≠ .operator s :: ms := by
    intro g
    induction g with
    | operand b =>
      intro _ _ s ms h
      cases h
    | suffixed g t ih =>
      intro hg _ s ms h
      cases hm : g.marks with
      | nil => exact g.marks_ne_nil hm
      | cons m ns =>
        rw [marks, hm] at h
        cases h
        exact ih hg.1 hg.2 _ _ hm
    | unary o g _ =>
      intro _ h
      exact absurd h (Nat.not_succ_le_self 7)
    | joined o l r _ _ =>
      intro _ h
      have := Nat.le_trans h o.strength_le
      omega
  exact hstart hg hlevel _ _

/-- An operator of one grouping is no operator inside of an operand of another. -/
theorem not_nested {o o' : Joint} {l r l' r' : Grouping} (h : (joined o l r).Allowed)
    (h' : (joined o' l' r').Allowed) {ms : List Mark} (hl : l.marks = l'.marks ++ .operator o'.token :: ms)
    (hr : r'.marks = ms ++ .operator o.token :: r.marks) : False := by
  obtain ⟨hlAllowed, _, hleft, _⟩ := h
  obtain ⟨_, hrAllowed, _, hright⟩ := h'
  obtain ⟨p, hp, hple⟩ := level_le_strength hlAllowed l'.endsOperand_marks hl
  have hms : endsOperand ms = true := by
    have hends := l.endsOperand_marks
    rwa [hl, endsOperand_operator] at hends
  obtain ⟨p', hp', hple'⟩ := level_le_strength hrAllowed hms hr
  cases Joint.token_injective hp
  cases Joint.token_injective hp'
  exact Joint.not_both (Nat.le_trans hleft hple) (Nat.le_trans hright hple')

theorem marks_ne_suffixed {b : Branch} {g : Grouping} {s : Suffix} :
    (operand b).marks ≠ (suffixed g s).marks := by
  intro h
  have hlength := congrArg List.length h
  have hpos := List.length_pos_iff.mpr g.marks_ne_nil
  simp only [marks, List.length_append, List.length_singleton] at hlength
  omega

/-- There is only one allowed way to put an expression together. -/
theorem Allowed.unique : ∀ {g g' : Grouping}, g.Allowed → g'.Allowed → g.marks = g'.marks → g = g'
  | .operand b, .operand c, _, _, hm => by
    cases hm
    rfl
  | .suffixed g s, .suffixed g' s', h, h', hm => by
    obtain ⟨hg, hs⟩ := List.append_inj' hm rfl
    cases hs
    rw [h.1.unique h'.1 hg]
  | .unary u g, .unary u' g', h, h', hm => by
    obtain ⟨hu, hg⟩ := List.cons.inj hm
    rw [UnaryOperator.token_injective (Mark.operator.inj hu), h.1.unique h'.1 hg]
  | .joined o l r, .joined o' l' r', h, h', hm => by
    rcases cut_cases hm with ⟨hl, ho, hr⟩ | ⟨ms, hl, hr⟩ | ⟨ms, hl, hr⟩
    · rw [Joint.token_injective (Mark.operator.inj ho), h.1.unique h'.1 hl, h.2.1.unique h'.2.1 hr]
    · exact (not_nested h h' hl hr).elim
    · exact (not_nested h' h hl hr).elim
  | .operand _, .suffixed _ _, _, _, hm => (marks_ne_suffixed hm).elim
  | .suffixed _ _, .operand _, _, _, hm => (marks_ne_suffixed hm.symm).elim
  | .operand _, .unary _ _, h, _, hm => (marks_ne_unary h (Nat.le_refl _) hm).elim
  | .suffixed _ _, .unary _ _, h, _, hm => (marks_ne_unary h (Nat.le_refl _) hm).elim
  | .unary _ _, .operand _, _, h, hm => (marks_ne_unary h (Nat.le_refl _) hm.symm).elim
  | .unary _ _, .suffixed _ _, _, h, hm => (marks_ne_unary h (Nat.le_refl _) hm.symm).elim
  | .operand _, .joined _ _ _, h, _, hm => (marks_ne_joined h (Nat.le_succ 7) hm).elim
  | .suffixed _ _, .joined _ _ _, h, _, hm => (marks_ne_joined h (Nat.le_succ 7) hm).elim
  | .unary _ _, .joined _ _ _, h, _, hm => (marks_ne_joined h (Nat.le_refl _) hm).elim
  | .joined _ _ _, .operand _, _, h, hm => (marks_ne_joined h (Nat.le_succ 7) hm.symm).elim
  | .joined _ _ _, .suffixed _ _, _, h, hm => (marks_ne_joined h (Nat.le_succ 7) hm.symm).elim
  | .joined _ _ _, .unary _ _, _, h, hm => (marks_ne_joined h (Nat.le_refl _) hm.symm).elim

end Grouping

namespace Head

/-- The operands of a node hold together as strongly as its operator asks, from the left operand of a
binary operator as much as the operator itself and from the right one more. -/
def Bound (h : Head) (cs : List Head) : Prop :=
  match h.kind with
  | .infixExpression => ∃ (o : BinaryOperator) (l r : Head), h.image = some o.token ∧ cs = [l, r] ∧
    o.strength ≤ l.level ∧ o.strength < r.level
  | .assignmentExpression => ∃ (o : AssignmentOperator) (l r : Head), h.image = some o.token ∧
    cs = [l, r] ∧ 1 ≤ l.level
  | .unaryExpression => ∃ (o : UnaryOperator) (c : Head), h.image = some o.token ∧ cs = [c] ∧
    7 ≤ c.level
  | .fieldAccess | .methodCall | .methodReference => ∀ c ∈ cs.head?, 8 ≤ c.level
  | _ => True

theorem admits_bound : Branch.Admits Bound where
  named _ := trivial
  wrapped _ _ := trivial

end Head

namespace Branch

/-- How the operators in an expression group what stands between them. -/
def grouping : Branch → Grouping
  | ⟨.infixExpression, image, span, [l, r]⟩ =>
    match image.bind BinaryOperator.ofToken? with
    | some o => .joined (.binary o) l.grouping r.grouping
    | none => .operand ⟨.infixExpression, image, span, [l, r]⟩
  | ⟨.assignmentExpression, image, span, [l, r]⟩ =>
    match image.bind AssignmentOperator.ofToken? with
    | some o => .joined (.assignment o) l.grouping r.grouping
    | none => .operand ⟨.assignmentExpression, image, span, [l, r]⟩
  | ⟨.unaryExpression, image, span, [c]⟩ =>
    match image.bind UnaryOperator.ofToken? with
    | some o => .unary o c.grouping
    | none => .operand ⟨.unaryExpression, image, span, [c]⟩
  | ⟨.fieldAccess, image, _, [c]⟩ => .suffixed c.grouping ⟨.fieldAccess, image, []⟩
  | ⟨.methodCall, image, _, [c, arguments]⟩ =>
    .suffixed c.grouping ⟨.methodCall, image, [arguments]⟩
  | ⟨.methodReference, image, _, c :: cs⟩ => .suffixed c.grouping ⟨.methodReference, image, cs⟩
  | b => .operand b

theorem level_operand {b : Branch} (h : b.head.Bound b.heads)
    (hi : ∀ image span l r, b = ⟨.infixExpression, image, span, [l, r]⟩ → False)
    (ha : ∀ image span l r, b = ⟨.assignmentExpression, image, span, [l, r]⟩ → False)
    (hu : ∀ image span c, b = ⟨.unaryExpression, image, span, [c]⟩ → False) : b.head.level = 8 := by
  obtain ⟨k, image, span, children⟩ := b
  unfold Head.level
  split
  · next hk =>
    cases hk
    obtain ⟨_, _, _, _, hcs, _⟩ := h
    obtain ⟨l, ls, rfl, _, hls⟩ := List.map_eq_cons_iff.mp hcs
    obtain ⟨r, rfl, _⟩ := List.map_eq_singleton_iff.mp hls
    exact (ha _ _ _ _ rfl).elim
  · next hk =>
    cases hk
    obtain ⟨_, _, _, _, hcs, _⟩ := h
    obtain ⟨l, ls, rfl, _, hls⟩ := List.map_eq_cons_iff.mp hcs
    obtain ⟨r, rfl, _⟩ := List.map_eq_singleton_iff.mp hls
    exact (hi _ _ _ _ rfl).elim
  · next hk =>
    cases hk
    obtain ⟨_, _, _, hcs, _⟩ := h
    obtain ⟨c, rfl, _⟩ := List.map_eq_singleton_iff.mp hcs
    exact (hu _ _ _ rfl).elim
  · rfl

theorem level_grouping {b : Branch} (h : b.head.Bound b.heads) : b.grouping.level = b.head.level := by
  fun_cases grouping b with
  | case1 image span l r o ho => exact (congrArg (Option.elim · 0 BinaryOperator.strength) ho).symm
  | case2 image span l r ho =>
    obtain ⟨o, _, _, himage, _⟩ := h
    cases ho.symm.trans (bind_of_token BinaryOperator.ofToken?_token himage)
  | case3 image span l r o ho => rfl
  | case4 image span l r ho =>
    obtain ⟨o, _, _, himage, _⟩ := h
    cases ho.symm.trans (bind_of_token AssignmentOperator.ofToken?_token himage)
  | case5 image span c o ho => rfl
  | case6 image span c ho =>
    obtain ⟨o, _, himage, _⟩ := h
    cases ho.symm.trans (bind_of_token UnaryOperator.ofToken?_token himage)
  | case7 | case8 | case9 => rfl
  | case10 _ hi ha hu => exact (level_operand h hi ha hu).symm

/-- The grouping of a child of a node of which all operands hold together strongly enough. -/
theorem bound_child {b c : Branch} (h : ∀ d ∈ b.subtrees, d.head.Bound d.heads) (hc : c ∈ b.children) :
    (∀ d ∈ c.subtrees, d.head.Bound d.heads) ∧ c.grouping.level = c.head.level := by
  have hbelow := forall_child h hc
  exact ⟨hbelow, level_grouping (hbelow c c.mem_subtrees_self)⟩

/-- If all operands in an expression hold together strongly enough, its grouping is allowed. -/
theorem allowed_grouping {b : Branch} (h : ∀ c ∈ b.subtrees, c.head.Bound c.heads) :
    b.grouping.Allowed := by
  have hself := h b b.mem_subtrees_self
  fun_induction grouping b with
  | case1 image span l r o ho ihl ihr =>
    obtain ⟨hl, hll⟩ := bound_child h (.head _)
    obtain ⟨hr, hrl⟩ := bound_child h (.tail _ (.head _))
    obtain ⟨o', _, _, himage, hcs, hleft, hright⟩ := hself
    cases hcs
    cases ho.symm.trans (bind_of_token BinaryOperator.ofToken?_token himage)
    exact ⟨ihl hl (hl l l.mem_subtrees_self), ihr hr (hr r r.mem_subtrees_self), hll ▸ hleft,
      hrl ▸ hright⟩
  | case3 image span l r o ho ihl ihr =>
    obtain ⟨hl, hll⟩ := bound_child h (.head _)
    obtain ⟨hr, _⟩ := bound_child h (.tail _ (.head _))
    obtain ⟨_, _, _, _, hcs, hleft⟩ := hself
    cases hcs
    exact ⟨ihl hl (hl l l.mem_subtrees_self), ihr hr (hr r r.mem_subtrees_self), hll ▸ hleft,
      Nat.zero_le _⟩
  | case5 image span c o ho ih =>
    obtain ⟨hc, hlevel⟩ := bound_child h (.head _)
    obtain ⟨_, _, _, hcs, hoperand⟩ := hself
    cases hcs
    exact ⟨ih hc (hc c c.mem_subtrees_self), hlevel ▸ hoperand⟩
  | case7 image span c ih =>
    obtain ⟨hc, hlevel⟩ := bound_child h (.head _)
    exact ⟨ih hc (hc c c.mem_subtrees_self), hlevel ▸ hself _ rfl⟩
  | case8 image span c arguments ih =>
    obtain ⟨hc, hlevel⟩ := bound_child h (.head _)
    exact ⟨ih hc (hc c c.mem_subtrees_self), hlevel ▸ hself _ rfl⟩
  | case9 image span c cs ih =>
    obtain ⟨hc, hlevel⟩ := bound_child h (.head _)
    exact ⟨ih hc (hc c c.mem_subtrees_self), hlevel ▸ hself _ rfl⟩
  | case2 image span l r ho =>
    obtain ⟨o, _, _, himage, _⟩ := hself
    cases ho.symm.trans (bind_of_token BinaryOperator.ofToken?_token himage)
  | case4 image span l r ho =>
    obtain ⟨o, _, _, himage, _⟩ := hself
    cases ho.symm.trans (bind_of_token AssignmentOperator.ofToken?_token himage)
  | case6 image span c ho =>
    obtain ⟨o, _, himage, _⟩ := hself
    cases ho.symm.trans (bind_of_token UnaryOperator.ofToken?_token himage)
  | case10 b hi ha hu => exact Nat.le_of_eq (level_operand hself hi ha hu).symm

end Branch

end JavaSyntax
