import JavaSyntax.Proofs.Expression.Operands

namespace JavaSyntax

open Grammar Word

variable {ts us r m : List Token} {b b' c : Branch} {e : Term}

/-- Neither a selection nor a method reference nor an argument list comes first. -/
structure EndsOperand (r : List Token) : Prop where
  ne_dot : ahead r ≠ .dot
  ne_colonColon : ahead r ≠ .colonColon
  ne_leftParen : ahead r ≠ .leftParen

/-- Nothing that goes on with an expression comes first. -/
def EndsExpression (r : List Token) : Prop :=
  ahead r = .rightParen ∨ ahead r = .comma ∨ ahead r = .eof

theorem endsOperandName_of_ne (hdot : ahead r ≠ .dot) (hparen : ahead r ≠ .leftParen)
    (hr : Apart r) : EndsOperandName r := by
  refine ⟨?_, hparen, hr⟩
  rcases r with _ | ⟨d, _ | ⟨n, r⟩⟩
  · rfl
  · rfl
  · rw [nameSegments, if_neg (fun hd => hdot hd.1)]

theorem endsOperandName_dot {t u : Token} (ht : t.kind = .dot) (hu : u.kind ≠ .ident)
    (r : List Token) : EndsOperandName (t :: u :: r) := by
  refine ⟨?_, by simp [ht], (endsType_dot ht hu r).apart_of_ne (by simp [ht])⟩
  rw [nameSegments, if_neg (fun h => hu h.2.1)]

theorem endsOperandName_call {s s' : Nat} {f : Identifier} (hm : ahead m = .leftParen) :
    EndsOperandName (⟨dot.kind, dot.text, s⟩ :: ⟨f.word.kind, f.word.text, s'⟩ :: m) := by
  refine ⟨?_, by simp, Term.apart_dot_call hm⟩
  rw [nameSegments, if_neg (fun h => h.2.2 hm)]

theorem endsExpression_rightParen (s : Nat) (r : List Token) :
    EndsExpression (⟨rightParen.kind, rightParen.text, s⟩ :: r) :=
  .inl rfl

theorem apart_rightParen (s : Nat) (r : List Token) :
    Apart (⟨rightParen.kind, rightParen.text, s⟩ :: r) :=
  (endsType_of_ne (by simp)).apart_of_ne (by simp)

theorem EndsExpression.endsOperand (h : EndsExpression r) : EndsOperand r := by
  rcases h with h | h | h
  all_goals exact ⟨by simp [h], by simp [h], by simp [h]⟩

theorem binary_of_unary {weakest : Nat} (h : (unary ts).Yields b m)
    (hm : ∀ operand, Stands operand b → (binaryTail b.kind operand m weakest).Yields c r) :
    (binary ts weakest).Yields c r := by
  rw [binary]
  exact h.resume (f := fun k operand us => binaryTail k operand us weakest) hm

theorem binaryTail_of_weaker {operand : List Piece} {weakest : Nat}
    (h : ∀ strength, precedence? (ahead r) = some strength → strength < weakest)
    (hoperand : Stands operand b) : (binaryTail b.kind operand r weakest).Yields b r := by
  cases r with
  | nil =>
    rw [binaryTail]
    exact Operand.yields_done hoperand []
  | cons t r =>
    rw [binaryTail]
    split
    · exact Operand.yields_done hoperand (t :: r)
    · next strength hstrength =>
      rw [if_pos (h strength hstrength)]
      exact Operand.yields_done hoperand (t :: r)

theorem EndsExpression.precedence (h : EndsExpression r) : precedence? (ahead r) = none := by
  rcases h with h | h | h <;> rw [h] <;> rfl

theorem assignment_of_endsExpression {operand : List Piece} (h : EndsExpression r)
    (hoperand : Stands operand b) : (assignment b.kind operand r).Yields b r := by
  cases r with
  | nil =>
    rw [assignment]
    exact Operand.yields_done hoperand []
  | cons t r =>
    have hkind : ¬ isAssignment t.kind = true := by
      rcases h with h | h | h <;> rw [ahead_cons] at h <;> rw [h] <;> decide
    rw [assignment, if_neg hkind]
    exact Operand.yields_done hoperand (t :: r)

theorem assignment_operator {o : AssignmentOperator} {s : Nat} (h : (expr us).Yields b' r)
    {operand : List Piece} (hoperand : Stands operand b) :
    (assignment b.kind operand (⟨o.word.kind, o.word.text, s⟩ :: us)).Yields
      (.bare .assignmentExpression (some o.token) [b, b']) r := by
  have haround := ((h.toStep.lead_true ⟨o.word.kind, o.word.text, s⟩).lift
    ⟨o.word.kind, o.word.text, s⟩).around hoperand .assignmentExpression
  rw [Branch.settleFirst_bare rfl] at haround
  have hassignment : isAssignment o.kind = true := by cases o <;> decide
  rw [assignment, if_pos hassignment]
  exact haround

theorem precedence_operator (o : BinaryOperator) : precedence? o.kind = some o.strength := by
  cases o <;> rfl

/-- An operator and its right operand are read, and what follows them. -/
theorem binaryTail_operator {o : BinaryOperator} {s weakest : Nat} (hweakest : weakest ≤ o.strength)
    (hright : (Grammar.binary us (o.strength + 1)).Yields b' m)
    (hm : ∀ operand, Stands operand (.bare .infixExpression (some o.token) [b, b']) →
      (binaryTail .infixExpression operand m weakest).Yields c r)
    {operand : List Piece} (hoperand : Stands operand b) :
    (binaryTail b.kind operand (⟨o.word.kind, o.word.text, s⟩ :: us) weakest).Yields c r := by
  have hchain := (hright.toStep.lead_true ⟨o.word.kind, o.word.text, s⟩).around hoperand
    .infixExpression
  rw [Branch.settleFirst_bare rfl] at hchain
  rw [binaryTail]
  simp only [precedence_operator, if_neg (Nat.not_lt.mpr hweakest)]
  exact (hchain.goOn (f := fun operand us => binaryTail .infixExpression operand us weakest) hm).lift _

namespace Term

/-- A term without an operator of its own is read with everything that points and `::` attach. -/
def ReadsSuffixed (e : Term) : Prop :=
  ∀ ⦃ts m r : List Token⦄ ⦃c : Branch⦄, Spelled e.words ts → ahead m ≠ .leftParen →
    (e.isName = true → EndsOperandName m) → Continues e.tree m c r → (suffixed (ts ++ m)).Yields c r

def ReadsUnary (e : Term) : Prop :=
  ∀ ⦃ts r : List Token⦄, Spelled e.words ts → EndsOperand r → (e.isClosed = false → Apart r) →
    (Grammar.unary (ts ++ r)).Yields e.tree r

/-- A term is read with the operators after it that bind as strongly as `weakest`. -/
def ReadsBinary (e : Term) : Prop :=
  ∀ ⦃ts m r : List Token⦄ ⦃c : Branch⦄ ⦃weakest : Nat⦄, Spelled e.words ts → weakest ≤ e.level →
    EndsOperand m → (e.isClosed = false → Apart m) →
      (∀ strength, precedence? (ahead m) = some strength → strength ≤ e.level) →
        (∀ operand, Stands operand e.tree →
          (binaryTail e.tree.kind operand m weakest).Yields c r) →
            (Grammar.binary (ts ++ m) weakest).Yields c r

def ReadsWhole (e : Term) : Prop :=
  ∀ ⦃ts r : List Token⦄, Spelled e.words ts → EndsExpression r → Apart r →
    (expr (ts ++ r)).Yields e.tree r

/-- A term is read wherever its level allows it. -/
structure Reads (e : Term) : Prop where
  suffixed : e.level = 8 → e.ReadsSuffixed
  unary : 7 ≤ e.level → e.ReadsUnary
  binary : 1 ≤ e.level → e.ReadsBinary
  whole : e.ReadsWhole

theorem ReadsSuffixed.unary (h : e.ReadsSuffixed) (hwf : e.WellFormed) (hlevel : e.level = 8) :
    e.ReadsUnary := by
  intro ts r hts hend hr
  have hname : e.isName = true → EndsOperandName r := by
    intro hname
    exact endsOperandName_of_ne hend.ne_dot hend.ne_leftParen (hr (by simp [isClosed, hname]))
  have hsuffixed := h hts hend.ne_leftParen hname (continues_end hend.ne_dot hend.ne_colonColon)
  have hplain := startsPlain_ahead hwf hlevel hts
  cases ts with
  | nil => cases hplain
  | cons t us =>
    simp only [startsPlain, ahead_cons, Bool.and_eq_true, bne_iff_ne, ne_eq] at hplain
    rw [List.cons_append] at hsuffixed ⊢
    rw [Grammar.unary, if_neg (by simp [hplain])]
    exact hsuffixed

theorem ReadsUnary.binary (h : e.ReadsUnary) : e.ReadsBinary := by
  intro ts m r c weakest hts _ hend hm _ htail
  exact binary_of_unary (h hts hend hm) htail

theorem ReadsBinary.whole (h : e.ReadsBinary) (hlevel : 1 ≤ e.level) : e.ReadsWhole := by
  intro ts r hts hend hr
  have hnone := EndsExpression.precedence hend
  have hbinary : (Grammar.binary (ts ++ r) 1).Yields e.tree r := by
    refine h hts hlevel hend.endsOperand (fun _ => hr) ?_ fun operand => binaryTail_of_weaker ?_
    all_goals simp [hnone]
  rw [expr]
  exact hbinary.resume fun operand => assignment_of_endsExpression hend

theorem ReadsSuffixed.reads (h : e.ReadsSuffixed) (hwf : e.WellFormed) (hlevel : e.level = 8) :
    e.Reads :=
  have hunary := h.unary hwf hlevel
  ⟨fun _ => h, fun _ => hunary, fun _ => hunary.binary, hunary.binary.whole (by omega)⟩

theorem ReadsUnary.reads (h : e.ReadsUnary) (hlevel : e.level = 7) : e.Reads :=
  ⟨by omega, fun _ => h, fun _ => h.binary, h.binary.whole (by omega)⟩

theorem ReadsBinary.reads (h : e.ReadsBinary) (hlevel : 1 ≤ e.level ∧ e.level ≤ 6) : e.Reads :=
  ⟨by omega, by omega, fun _ => h, h.whole hlevel.1⟩

theorem ReadsWhole.reads (h : e.ReadsWhole) (hlevel : e.level = 0) : e.Reads :=
  ⟨by omega, by omega, by omega, h⟩

end Term

end JavaSyntax
