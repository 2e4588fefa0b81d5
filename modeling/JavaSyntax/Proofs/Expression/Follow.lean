import JavaSyntax.Proofs.Expression.Apart

namespace JavaSyntax

open Grammar Word

variable {ts r : List Token}

/-- A token that starts an operand and is no unary operator. -/
def startsPlain (k : Kind) : Bool := expressionFirst.contains k && k != .bang && k != .minus

theorem startsPlain_of_literal {k : Kind} (h : literalTokens.contains k = true) :
    startsPlain k = true := by
  revert h
  cases k <;> decide +kernel

theorem startsPlain_of_type {k : Kind} (h : startsType k = true) : startsPlain k = true := by
  revert h
  cases k <;> decide +kernel

theorem startsType_of_literal {k : Kind} (h : literalTokens.contains k = true) :
    startsType k = false := by
  revert h
  cases k <;> decide +kernel

theorem ahead_append {k : Kind} (h : ahead ts = k) (hk : k ≠ .eof) (r : List Token) :
    ahead (ts ++ r) = k := by
  cases ts with
  | nil => exact absurd h.symm hk
  | cons t ts => exact h

theorem startsPlain_append (h : startsPlain (ahead ts) = true) (r : List Token) :
    startsPlain (ahead (ts ++ r)) = true := by
  rw [ahead_append rfl _ r]
  · exact h
  · intro heof
    rw [heof] at h
    exact absurd h (by decide)

theorem Word.Spelled.ahead_eq {w : Word} {ws : List Word} (h : Spelled (w :: ws) ts) :
    ahead ts = w.kind := by
  obtain ⟨s, us, rfl, -⟩ := h.cons
  rfl

theorem BinaryOperator.strength_pos (o : BinaryOperator) : 1 ≤ o.strength := by
  cases o <;> decide

theorem BinaryOperator.strength_le (o : BinaryOperator) : o.strength ≤ 6 := by
  cases o <;> decide

theorem endsType_dot {t u : Token} (ht : t.kind = .dot) (hu : u.kind ≠ .ident) (r : List Token) :
    EndsType (t :: u :: r) :=
  ⟨fun _ => hu, by simp [ht], by simp [ht]⟩

namespace Term

/-- What binds most strongly starts with no unary operator. -/
theorem startsPlain_ahead : ∀ {e : Term} {ts : List Token}, e.WellFormed → e.level = 8 →
    Spelled e.words ts → startsPlain (ahead ts) = true
  | .literal l, ts, _, _, hts => by
    rw [hts.ahead_eq]
    exact startsPlain_of_literal l.isLiteral
  | .this, ts, _, _, hts | .parens _, ts, _, _, hts | .construct _ _ _, ts, _, _, hts => by
    rw [Spelled.ahead_eq hts]
    decide
  | .name _, ts, _, _, hts | .outerThis _, ts, _, _, hts | .nameClass _, ts, _, _, hts
  | .call _ _, ts, _, _, hts => by
    rw [Spelled.ahead_eq hts]
    exact startsPlain_of_type rfl
  | .typeClass type, ts, _, _, hts | .typeReference type _ _, ts, _, _, hts => by
    obtain ⟨us, vs, rfl, hus, -⟩ := Spelled.append hts
    obtain ⟨t, us, rfl, ht⟩ := type.starts hus
    exact startsPlain_of_type ht
  | .callOn q _ _, ts, h, _, hts | .field q _, ts, h, _, hts | .reference q _ _, ts, h, _, hts => by
    obtain ⟨us, vs, rfl, hus, -⟩ := Spelled.append hts
    exact startsPlain_append (startsPlain_ahead h.1 (by first | exact h.2.1 | exact h.2) hus) vs
  | .unary _ _, _, _, hlevel, _ => by cases hlevel
  | .binary o _ _, _, _, hlevel, _ => by cases o <;> cases hlevel
  | .assign _ _ _, _, _, hlevel, _ => by cases hlevel

theorem startsOperand_of_plain (h : startsPlain (ahead ts) = true) (r : List Token) :
    StartsOperand (ts ++ r) := by
  have := startsPlain_append h r
  simp only [startsPlain, Bool.and_eq_true] at this
  exact this.1.1

/-- Every term starts an operand. -/
theorem startsOperand (e : Term) {ts : List Token} (h : e.WellFormed) (hts : Spelled e.words ts)
    (r : List Token) : StartsOperand (ts ++ r) := by
  by_cases hlevel : e.level = 8
  · exact startsOperand_of_plain (startsPlain_ahead h hlevel hts) r
  · cases e with
    | unary o e =>
      obtain ⟨s, us, rfl, -⟩ := Spelled.cons hts
      cases o with
      | not => exact (by decide : expressionFirst.contains .bang = true)
      | neg => exact (by decide : expressionFirst.contains .minus = true)
    | binary o e e' =>
      obtain ⟨us, vs, rfl, hus, -⟩ := Spelled.append hts
      rw [List.append_assoc]
      exact startsOperand e h.1 hus (vs ++ r)
    | assign o e e' =>
      obtain ⟨us, vs, rfl, hus, -⟩ := Spelled.append hts
      rw [List.append_assoc]
      exact startsOperand e h.1 hus (vs ++ r)
    | _ => exact absurd rfl hlevel

/-- What comes after the term cannot make its end part of a type. -/
def isClosed (e : Term) : Bool := e.level == 8 && !e.isName

theorem isClosed_of_not_name {e : Term} (hlevel : e.level = 8) (hname : e.isName = false) :
    e.isClosed = true := by
  simp [isClosed, hlevel, hname]

theorem isClosed_of_level {e : Term} (hlevel : e.level ≠ 8) : e.isClosed = false := by
  simp [isClosed, hlevel]

theorem isClosed_binary (o : BinaryOperator) (e e' : Term) : (binary o e e').isClosed = false :=
  isClosed_of_level (Nat.ne_of_lt (Nat.lt_of_le_of_lt o.strength_le (by decide)))

theorem apart_operator {o : BinaryOperator} {s : Nat} (hstart : StartsOperand r)
    (h : OperandBehind r) : Apart (⟨o.word.kind, o.word.text, s⟩ :: r) := by
  cases o with
  | lt => exact apart_lt rfl hstart h
  | gt => exact apart_gt rfl hstart
  | _ =>
    exact (endsType_of_ne (by simp [BinaryOperator.kind])).apart_of_ne
      (by simp [BinaryOperator.kind])

theorem apart_assignment (o : AssignmentOperator) (s : Nat) (r : List Token) :
    Apart (⟨o.word.kind, o.word.text, s⟩ :: r) := by
  have hkind : o.kind = .eq ∨ o.kind = .plusEq ∨ o.kind = .minusEq := by cases o <;> decide
  rcases hkind with hk | hk | hk
  all_goals exact (endsType_of_ne (by simp [hk])).apart_of_ne (by simp [hk])

/-- The name of a call after a point is not part of the name in front of the point. -/
theorem apart_dot_call {s s' : Nat} {f : Identifier} (hr : ahead r = .leftParen) :
    Apart (⟨dot.kind, dot.text, s⟩ :: ⟨f.word.kind, f.word.text, s'⟩ :: r) := by
  refine apart_of_rest (m := r) ?_ (by simp [hr]) (by simp [hr]) ?_
  · have hrest : (skipSegments r).rest = r :=
      rest_skipSegments_of_endsName (endsName_of_ne (by simp [hr]))
    rw [skipSegments, if_pos ⟨rfl, rfl⟩]
    exact hrest
  · intro k us hus
    exact absurd hus (not_skips_more (by simp [hr]))

/-- Behind type arguments that start with a term stands an operand, if that is so behind a name at the
end of the term. -/
theorem operandBehind : ∀ {e : Term} {ts r : List Token}, e.WellFormed → Spelled e.words ts →
    (e.isClosed = false → Apart r) → OperandBehind (ts ++ r)
  | .literal l, ts, r, _, hts, _ => by
    obtain ⟨s, us, rfl, -⟩ := Spelled.cons hts
    exact operandBehind_of_not (startsType_of_literal l.isLiteral)
  | .this, ts, r, _, hts, _ | .parens _, ts, r, _, hts, _ | .construct _ _ _, ts, r, _, hts, _ => by
    apply operandBehind_of_not
    rw [ahead_append (Spelled.ahead_eq hts) (by decide)]
    decide
  | .unary o _, ts, r, _, hts, _ => by
    apply operandBehind_of_not
    rw [ahead_append (Spelled.ahead_eq hts) (by cases o <;> decide)]
    cases o <;> decide
  | .name n, ts, r, _, hts, hr => operandBehind_name hts (hr rfl)
  | .outerThis n, ts, r, _, hts, _ | .nameClass n, ts, r, _, hts, _ => by
    obtain ⟨us, s, s', rfl, hus⟩ := Spelled.selection hts
    rw [List.append_assoc]
    exact operandBehind_name hus ((endsType_dot rfl (by simp) _).apart_of_ne (by simp))
  | .typeClass type, ts, r, _, hts, _ => by
    obtain ⟨us, s, s', rfl, hus⟩ := Spelled.selection hts
    rw [List.append_assoc]
    exact operandBehind_type hus (endsType_dot rfl (by simp) _) (by simp)
  | .typeReference type _ _, ts, r, _, hts, _ => by
    obtain ⟨us, s, vs, rfl, hus, -⟩ := Spelled.middle hts
    rw [List.append_assoc]
    exact operandBehind_type hus (endsType_of_ne (by simp)) (by simp)
  | .call f _, ts, r, _, hts, _ => by
    obtain ⟨s, _, rfl, hparen⟩ := Spelled.cons hts
    obtain ⟨s', vs, rfl, -⟩ := Spelled.cons hparen
    have hf : Spelled (DottedName.words ⟨f, []⟩) [⟨f.word.kind, f.word.text, s⟩] := rfl
    have hapart : Apart (⟨leftParen.kind, leftParen.text, s'⟩ :: (vs ++ r)) :=
      (endsType_of_ne (by simp)).apart_of_ne (by simp)
    have hbehind := operandBehind_name hf hapart
    exact hbehind
  | .callOn q f _, ts, r, h, hts, _ => by
    obtain ⟨us, s, _, rfl, hus, hname⟩ := Spelled.middle hts
    obtain ⟨s', _, rfl, hparen⟩ := hname.cons
    obtain ⟨s'', vs, rfl, -⟩ := hparen.cons
    rw [List.append_assoc]
    exact operandBehind h.1 hus fun _ => apart_dot_call rfl
  | .field q _, ts, r, h, hts, _ => by
    obtain ⟨us, vs, rfl, hus, -⟩ := Spelled.append hts
    have hclosed := isClosed_of_not_name h.2.1 h.2.2
    rw [List.append_assoc]
    exact operandBehind h.1 hus fun hopen => absurd (hclosed.symm.trans hopen) (by decide)
  | .reference q _ _, ts, r, h, hts, _ => by
    obtain ⟨us, s, vs, rfl, hus, -⟩ := Spelled.middle hts
    rw [List.append_assoc]
    exact operandBehind h.1 hus fun _ => (endsType_of_ne (by simp)).apart_of_ne (by simp)
  | .binary o e e', ts, r, h, hts, hr => by
    obtain ⟨us, s, vs, rfl, hus, hvs⟩ := Spelled.middle hts
    have hopen := hr (isClosed_binary o e e')
    have hright := operandBehind h.2.1 hvs fun _ => hopen
    rw [List.append_assoc]
    exact operandBehind h.1 hus fun _ => apart_operator (startsOperand e' h.2.1 hvs r) hright
  | .assign o e _, ts, r, h, hts, _ => by
    obtain ⟨us, s, vs, rfl, hus, -⟩ := Spelled.middle hts
    rw [List.append_assoc]
    exact operandBehind h.1 hus fun _ => apart_assignment o s _

/-- A name before further arguments is not taken for a type. -/
theorem apart_moreWords : ∀ {es : List Term} {ts r : List Token}, AllWellFormed es →
    Spelled (moreWords es) ts → ahead r = .rightParen → Apart (ts ++ r)
  | [], ts, r, _, hts, hr => by
    rw [hts.nil, List.nil_append]
    exact (endsType_of_ne (by simp [hr])).apart_of_ne (by simp [hr])
  | e :: es, ts, r, h, hts, hr => by
    obtain ⟨s, _, rfl, hmore⟩ := Spelled.cons hts
    obtain ⟨us, vs, rfl, hus, hvs⟩ := hmore.append
    rw [List.cons_append, List.append_assoc]
    exact apart_comma rfl (operandBehind h.1 hus fun _ => apart_moreWords h.2 hvs hr)

end Term

end JavaSyntax
