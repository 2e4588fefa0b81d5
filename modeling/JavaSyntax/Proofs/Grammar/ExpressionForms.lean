import JavaSyntax.Proofs.Grammar.Found
import JavaSyntax.Proofs.Grammar.SkippedType
import JavaSyntax.Proofs.Grammar.TypeForms

namespace JavaSyntax.Grammar

open Piece Content Step Computability

variable {clean : Bool}

/-- `::` or `.class`, in front of which a type is an expression. -/
def AtTypeSuffix (ts : List Token) : Prop :=
  ahead ts = .colonColon ∨ ahead ts = .dot ∧ ahead (ts.drop 1) = .classKw

namespace Operand

variable {ts : List Token} {k : Kind} {w : Nat}

def FormsExpr (clean : Bool) (weakest : Nat) (s : Operand ts) : Prop :=
  s.Finds clean fun k ps _ => Standing clean weakest k ps

def FormsPrimary (clean : Bool) (s : Operand ts) : Prop :=
  s.Finds clean fun k ps rest => Attachable clean k ps (AtTypeSuffix rest)

theorem FormsExpr.toStep {s : Operand ts} (h : s.FormsExpr clean w) :
    s.toStep.Forms clean (value clean) := by
  intro hp
  have hfound := h hp
  cases hlead : s.lead with
  | none =>
    rw [hlead] at hfound
    exact ⟨hfound.1, mem_value_of_broken hfound.2⟩
  | some k =>
    rw [hlead] at hfound
    exact ⟨hfound.formed, mem_value_of_operand hfound.mem⟩

/-- Without problems an operand is read. -/
theorem FormsExpr.found {s : Operand ts} (h : s.FormsExpr true w) (hp : s.problems = []) :
    ∃ k, s.lead = some k ∧ Standing true w k s.parts := by
  have hfound := h fun _ => hp
  cases hlead : s.lead with
  | none =>
    rw [hlead] at hfound
    cases (mem_broken.mp hfound.2).1
  | some k =>
    rw [hlead] at hfound
    exact ⟨k, rfl, hfound⟩

theorem formsPrimary_found {s : Step ts} (h : s.Forms clean (content clean k))
    (hr : ∀ ps, Ranked k ps) (ha : isAtom k = true) (he : Category.expr.contains k = true) :
    (found s k).FormsPrimary clean :=
  fun hp => .of_expr ((h.node hr hp).1) ha he

end Operand

theorem forms_nameSegments : (ts : List Token) →
    (nameSegments ts).Forms clean (word .dot * word .ident)∗
  | [] | [_] => forms_none _
  | d :: n :: r => by
    rw [nameSegments]
    split
    · next h =>
      have hname : (((nameSegments r).lead true n).lead true d).Forms clean
          (word .dot * (word .ident * (word .dot * word .ident)∗)) :=
        ((forms_nameSegments r).lead true h.2.1).lead true h.1
      rw [← mul_assoc] at hname
      exact hname.mono fun _ => mem_kstar_cons
    · exact forms_none _

theorem forms_referenceName (ts : List Token) :
    (referenceName ts).Forms clean (due clean (word .ident + word .newKw)) := by
  cases ts with
  | nil => exact (forms_report _ _).mono fun _ => mem_due_of_broken
  | cons t r =>
    rw [referenceName]
    split
    · next ht =>
      rcases ht with ht | ht
      · exact (forms_bump true ht r).mono fun _ hw => mem_due_of_mem (.inl hw)
      · exact (forms_bump true ht r).mono fun _ hw => mem_due_of_mem (.inr hw)
    · exact (forms_report _ _).mono fun _ => mem_due_of_broken

theorem forms_constructedClass (ts : List Token) :
    (constructedClass ts).Forms clean (due clean (one .classType)) := by
  cases ts with
  | nil => exact (forms_report _ _).mono fun _ => mem_due_of_broken
  | cons t r =>
    rw [constructedClass]
    split
    · next ht =>
      have hclass : (classType t r).toStep.Forms clean (one .classType) :=
        (formsOne_classType ht r).toStep fun k hk => hk ▸ rfl
      exact (hclass.lift t).mono fun _ => mem_due_of_mem
    · exact (forms_report _ _).mono fun _ => mem_due_of_broken

/-- A point that leads nowhere is an error, but what is in front of it stays. -/
theorem formsExpr_danglingPoint {k : Kind} {operand : List Piece} {p : Prop}
    (h : Attachable clean k operand p) (d : Token) (r : List Token) :
    (danglingPoint k operand d r).FormsExpr clean 8 := by
  intro hp
  cases clean with
  | true => cases hp rfl
  | false =>
    obtain ⟨qs, rfl⟩ := h.single
    have hstanding (es : List Piece) (hes : AllFormed false es) (hs : symbols es ∈ marks) :
        Standing false 8 k ([.node k qs] ++ [.node .error (.token d false :: es)]) := by
      have hmarks : symbols (.token d false :: es) ∈ marks := by
        intro s hmem
        rcases List.mem_cons.mp hmem with rfl | hmem
        · exact ⟨d.kind, rfl⟩
        · exact hs s hmem
      refine ⟨⟨h.formed.1, ⟨⟨hmarks, fun _ => trivial⟩, trivial, hes⟩, trivial⟩, ?_,
        fun hc => by cases hc⟩
      have hnode : [.node k] ∈ nodeOf (isValue false) := ⟨k, isOperand_of_isAtom h.atom, rfl⟩
      exact Language.append_mem_mul hnode (mem_one_add_junk.mpr (.inr ⟨rfl, rfl⟩))
    have hnone : symbols [] ∈ marks := fun s hs => by cases hs
    cases r with
    | nil => exact hstanding [] trivial hnone
    | cons t s =>
      have htail : AllFormed false
            (if t.kind = .classKw ∨ t.kind = .thisKw then bump false t s else idle (t :: s)).parts ∧
          symbols (if t.kind = .classKw ∨ t.kind = .thisKw then bump false t s
            else idle (t :: s)).parts ∈ marks := by
        split
        · exact ⟨⟨trivial, trivial⟩, fun s hs => ⟨t.kind, List.mem_singleton.mp hs⟩⟩
        · exact ⟨trivial, hnone⟩
      exact hstanding _ htail.1 htail.2

theorem precedence_le {k : Kind} {s : Nat} (h : precedence? k = some s) : 1 ≤ s ∧ s ≤ 6 := by
  unfold precedence? at h
  split at h <;> cases h <;> decide

/-- The operand takes part in what the next operator makes. -/
def BindsFirst (ps : List Piece) (ts : List Token) : Prop :=
  ∀ p ∈ ps, ∀ s, precedence? (ahead ts) = some s → s ≤ p.level

/-- The loop ends in front of an operator only if it binds too weakly. -/
theorem precedence_rest_binaryTail (k : Kind) (left : List Piece) (ts : List Token) (w : Nat)
    {s : Nat} (h : precedence? (ahead (binaryTail k left ts w).rest) = some s) : s < w := by
  cases ts with
  | nil =>
    rw [binaryTail] at h
    cases h
  | cons t r =>
    rw [binaryTail] at h
    split at h
    · next hnone =>
      have hnone' : precedence? t.kind = some s := h
      rw [hnone] at hnone'
      cases hnone'
    · next strength hstrength =>
      split at h
      · next hlt =>
        have hs : precedence? t.kind = some s := h
        rw [hstrength] at hs
        cases hs
        exact hlt
      · let right := binary r (strength + 1)
        let infixed := Operand.around left (right.toStep.lead true t) .infixExpression
        exact precedence_rest_binaryTail .infixExpression infixed.parts infixed.rest w h
termination_by ts.length
decreasing_by all_goals grind

theorem precedence_rest_binary {ts : List Token} {w s : Nat} {k : Kind}
    (hk : (binary ts w).lead = some k) (h : precedence? (ahead (binary ts w).rest) = some s) :
    s < w := by
  rw [binary] at hk h
  cases hleft : (unary ts).lead with
  | none =>
    simp only [hleft] at hk
    cases hk
  | some k =>
    simp only [hleft] at h
    exact precedence_rest_binaryTail k (unary ts).parts (unary ts).rest w h

theorem Standing.bindsFirst {k : Kind} {ps : List Piece} (h : Standing clean 7 k ps)
    (ts : List Token) : clean = true → BindsFirst ps ts := by
  intro hc p hp s hs
  obtain ⟨q, rfl, _, hq⟩ := h.strong hc
  rw [List.mem_singleton.mp hp]
  have := precedence_le hs
  omega

section

variable {k : Kind} {left : List Piece} {t : Token} {v w : Nat} {r : List Token} {right : Operand r}

/-- In a clean text there is one piece on each side of an operator. -/
theorem split_operator (hl : Standing clean v k left) (hr : right.FormsExpr clean w)
    (hc : clean = true) (hp : clean = true → right.problems = []) :
    ∃ p q, left = [p] ∧ left ++ (right.toStep.lead true t).parts = [p, .token t true, q] ∧
      p.isNode = true ∧ v ≤ p.level ∧ w ≤ q.level := by
  subst hc
  obtain ⟨p, rfl, hnode, hlevel⟩ := hl.strong rfl
  obtain ⟨_, _, hright⟩ := hr.found (hp rfl)
  obtain ⟨q, hq, _, hqlevel⟩ := hright.strong rfl
  refine ⟨p, q, rfl, ?_, hnode, hlevel, hqlevel⟩
  exact congrArg (fun qs => [p, .token t true] ++ qs) hq

/-- In a clean text the operands of a binary operator are ranked by the two ways into the loop: on the
left only what binds first, on the right only what binds more strongly. -/
theorem standing_infix (hl : Standing clean v k left) (hs : precedence? t.kind = some w)
    (hw : v ≤ w) (hfirst : clean = true → BindsFirst left (t :: r))
    (hr : right.FormsExpr clean (w + 1)) (hp : clean = true → right.problems = []) :
    Standing clean v .infixExpression
        [.node .infixExpression (left ++ (right.toStep.lead true t).parts)] ∧
      (clean = true → (Piece.node .infixExpression
        (left ++ (right.toStep.lead true t).parts)).level = w) := by
  have hlevel : clean = true → (Piece.node .infixExpression
      (left ++ (right.toStep.lead true t).parts)).level = w := by
    intro hc
    obtain ⟨p, q, rfl, _, hnode, _⟩ := split_operator (t := t) hl hr hc hp
    cases p with
    | token u i => cases hnode
    | node kp qs => simp [level, direct, Step.lead, hs]
  refine ⟨.of_expr ?_ rfl fun hc => Nat.le_trans hw (Nat.le_of_eq (hlevel hc).symm), hlevel⟩
  have hoperator : (right.toStep.lead true t).Forms clean
      (wordOf (fun k => (precedence? k).isSome) * value clean) := by
    apply hr.toStep.leadOf
    rw [hs]
    rfl
  apply hoperator.enclosed hl.formed hl.mem (mem_of_eq (mul_assoc ..).symm) _ hp
  intro hc _
  obtain ⟨p, q, rfl, hparts, _, _, hq⟩ := split_operator (t := t) hl hr hc hp
  exact ⟨p, t, q, w, hparts, hs, hfirst hc p (List.mem_singleton_self p) w hs, hq⟩

theorem standing_assignment (hl : Standing clean 1 k left) (ht : isAssignment t.kind = true)
    (hr : right.FormsExpr clean 0) (hp : clean = true → right.problems = []) :
    Standing clean 0 .assignmentExpression
      [.node .assignmentExpression (left ++ (right.toStep.lead true t).parts)] := by
  refine .of_expr ?_ rfl fun _ => Nat.zero_le _
  apply (hr.toStep.leadOf ht).enclosed hl.formed hl.mem (mem_of_eq (mul_assoc ..).symm) _ hp
  intro hc _
  obtain ⟨p, q, _, hparts, _, hlevel, _⟩ := split_operator (t := t) hl hr hc hp
  exact ⟨p, t, q, hparts, hlevel⟩

theorem standing_unary (ht : t.kind = .bang ∨ t.kind = .minus) (hr : right.FormsExpr clean 7)
    (hp : clean = true → right.problems = []) :
    Standing clean 7 .unaryExpression [.node .unaryExpression (right.toStep.lead true t).parts] := by
  refine .of_expr ?_ rfl fun _ => Nat.le_refl 7
  have hprefix : isPrefix t.kind = true := by
    rwa [isPrefix, Bool.or_eq_true, beq_iff_eq, beq_iff_eq]
  have hoperator : (right.toStep.lead true t).Forms clean (wordOf isPrefix * value clean) :=
    hr.toStep.leadOf hprefix
  obtain ⟨hf, hs⟩ := hoperator hp
  refine ⟨⟨⟨hs, ?_⟩, hf⟩, trivial⟩
  rintro rfl
  obtain ⟨_, _, hright⟩ := hr.found (hp rfl)
  obtain ⟨q, hq, _, hlevel⟩ := hright.strong rfl
  exact ⟨t, q, congrArg (List.cons (Piece.token t true)) hq, hlevel⟩

end

theorem ranked_call {ps : List Piece} (h : symbols ps ∈ due true (one .argumentList)) (t : Token) :
    Ranked .methodCall (.token t true :: ps) := by
  have hs : symbols ps = [.node .argumentList] := by
    rcases mem_due.mp h with h | ⟨h, _⟩
    · exact h
    · cases h
  match ps, hs with
  | [.node k qs], hs =>
    intro p hp
    cases hp
    cases hs
    exact Nat.le_refl 8

/-- A call of a method without anything in front of it. -/
theorem formsPrimary_call {t : Token} {r : List Token} {s : Step r} (ht : t.kind = .ident)
    (h : s.Forms clean (due clean (one .argumentList))) :
    (Operand.found (s.lead true t) .methodCall).FormsPrimary clean := by
  intro hp
  obtain ⟨hf, hs⟩ := h.lead true ht hp
  refine .of_expr ⟨⟨⟨?_, ?_⟩, hf⟩, trivial⟩ rfl rfl
  · obtain ⟨a, ha, b, hb, heq⟩ := Language.mem_mul.mp hs
    refine Language.mem_mul.mpr ⟨a, ?_, b, hb, heq⟩
    exact Language.mem_mul.mpr ⟨[], .inl rfl, a, ha, rfl⟩
  · rintro rfl
    exact ranked_call (h hp).2 t

section

variable {k : Kind} {operand : List Piece} {p : Prop} {d n : Token} {r : List Token} {s : Step r}

theorem finds_methodCall (h : Attachable clean k operand p) (hp : ¬ p) (hd : d.kind = .dot)
    (hn : n.kind = .ident) (hs : s.Forms clean (due clean (one .argumentList))) :
    (Operand.around operand ((s.lead true n).lead false d) .methodCall).FormsPrimary clean := by
  have hcall : ((s.lead true n).lead false d).Forms clean
      (mark .dot * (word .ident * due clean (one .argumentList))) := (hs.lead true hn).lead false hd
  have hcontent : ∀ w ∈ nodeOf (isValue clean) *
      (mark .dot * (word .ident * due clean (one .argumentList))), w ∈ content clean .methodCall := by
    rw [← mul_assoc, ← mul_assoc, content, add_mul, add_mul]
    exact fun _ => Or.inr
  apply Operand.finds_around
  exact h.around hcall (h.mem_isValue hp) hcontent (h.ranked (.inr (.inl rfl))) rfl rfl

theorem finds_fieldAccess (h : Attachable clean k operand p) (hp : ¬ p) (hd : d.kind = .dot)
    (hn : n.kind = .ident) :
    (Operand.around operand (((idle r).lead true n).lead false d) .fieldAccess).FormsPrimary clean := by
  have haccess : (((idle r).lead true n).lead false d).Forms clean (mark .dot * (word .ident * 1)) :=
    ((forms_idle r).lead true hn).lead false hd
  rw [mul_one] at haccess
  apply Operand.finds_around
  exact h.around haccess (h.mem_isValue hp) (mem_of_eq (mul_assoc ..).symm) (h.ranked (.inl rfl)) rfl rfl

theorem finds_classLiteral (h : Attachable clean k operand p) (hk : k = .ambiguousName ∨ k.isType)
    (hd : d.kind = .dot) (hn : n.kind = .classKw) :
    (Operand.around operand (((idle r).lead false n).lead false d) .classLiteral).FormsPrimary
      clean := by
  have hliteral : (((idle r).lead false n).lead false d).Forms clean
      (mark .dot * (mark .classKw * 1)) := ((forms_idle r).lead false hn).lead false hd
  rw [mul_one] at hliteral
  have hname : symbols operand ∈ one .ambiguousName + nodeOf Kind.isType := by
    obtain ⟨qs, rfl⟩ := h.single
    rcases hk with rfl | ht
    · exact .inl rfl
    · exact .inr ⟨k, ht, rfl⟩
  apply Operand.finds_around
  exact h.around hliteral hname (mem_of_eq (mul_assoc ..).symm) (fun _ => trivial) rfl rfl

theorem finds_outerThis (h : Attachable clean .ambiguousName operand p) (hd : d.kind = .dot)
    (hn : n.kind = .thisKw) :
    (Operand.around operand (((idle r).lead false n).lead false d) .thisExpression).FormsPrimary
      clean := by
  have hthis : (((idle r).lead false n).lead false d).Forms clean
      (mark .dot * (mark .thisKw * 1)) := ((forms_idle r).lead false hn).lead false hd
  rw [mul_one] at hthis
  have hname : symbols operand ∈ one .ambiguousName := by
    obtain ⟨qs, rfl⟩ := h.single
    rfl
  have hcontent : ∀ w ∈ one .ambiguousName * (mark .dot * mark .thisKw),
      w ∈ content clean .thisExpression := by
    rw [← mul_assoc]
    exact fun _ => Or.inr
  apply Operand.finds_around
  exact h.around hthis hname hcontent (fun _ => trivial) rfl rfl

theorem finds_methodReference (h : Attachable clean k operand p) (hd : d.kind = .colonColon) :
    (Operand.around operand (((typeArguments? r).andThen
      (referenceName (typeArguments? r).rest)).lead false d) .methodReference).FormsPrimary clean := by
  have hnamed : (((typeArguments? r).andThen (referenceName _)).lead false d).Forms clean
      (mark .colonColon * ((1 + one .typeArguments) * due clean (word .ident + word .newKw))) :=
    ((forms_typeArguments? r).andThen (forms_referenceName _)).lead false hd
  apply Operand.finds_around
  exact h.around hnamed h.mem_isOperand (mem_of_eq (by rw [← mul_assoc, ← mul_assoc]; rfl))
    (h.ranked (.inr (.inr rfl))) rfl rfl

end

/-- What comes next after the right operand can only go around it and the operator. -/
theorem finds_infixExpression {k : Kind} {left : List Piece} {t : Token} {r : List Token}
    {weakest strength : Nat} (hl : Standing clean weakest k left)
    (hs : precedence? t.kind = some strength) (hw : weakest ≤ strength)
    (hfirst : clean = true → BindsFirst left (t :: r))
    (hr : (binary r (strength + 1)).FormsExpr clean (strength + 1)) :
    (Operand.around left ((binary r (strength + 1)).toStep.lead true t) .infixExpression).Finds clean
      fun k ps rest => Standing clean weakest k ps ∧ (clean = true → BindsFirst ps rest) := by
  apply Operand.finds_around
  intro hp
  obtain ⟨hstanding, hlevel⟩ := standing_infix hl hs hw hfirst hr hp
  refine ⟨hstanding, ?_⟩
  rintro rfl p hpiece s hnext
  rw [List.mem_singleton.mp hpiece, hlevel rfl]
  obtain ⟨_, hlead, _⟩ := hr.found (hp rfl)
  exact Nat.le_of_lt_succ (precedence_rest_binary hlead hnext)

theorem formsPrimary_parens {t : Token} {r : List Token} {s : Step r} (ht : t.kind = .leftParen)
    (h : s.Forms clean (value clean * due clean (mark .rightParen))) :
    (Operand.found (s.lead false t) .parenthesizedExpression).FormsPrimary clean := by
  have hparens : (s.lead false t).Forms clean (content clean .parenthesizedExpression) :=
    (h.lead false ht).of_eq (mul_assoc ..).symm
  exact Operand.formsPrimary_found hparens (fun _ => trivial) rfl rfl

theorem formsPrimary_new {t : Token} {r : List Token} {s : Step r} (ht : t.kind = .newKw)
    (h : s.Forms clean (due clean (one .classType) * due clean (one .argumentList))) :
    (Operand.found (s.lead false t) .constructorCall).FormsPrimary clean := by
  have hmade : (s.lead false t).Forms clean (content clean .constructorCall) :=
    (h.lead false ht).of_eq (mul_assoc ..).symm
  exact Operand.formsPrimary_found hmade (fun _ => trivial) rfl rfl

theorem formsPrimary_ambiguousName {t : Token} (ht : t.kind = .ident) (r : List Token) :
    (ambiguousName t r).FormsPrimary clean := by
  have hname : ((nameSegments r).lead true t).Forms clean (content clean .ambiguousName) :=
    (forms_nameSegments r).lead true ht
  exact Operand.formsPrimary_found hname (fun _ => trivial) rfl rfl

theorem isAtom_of_isType {k : Kind} (h : k.isType = true) : isAtom k = true := by
  unfold Kind.isType at h
  split at h <;> first | rfl | cases h

/-- A type in expression position needs something behind it that makes an expression of it. -/
theorem formsPrimary_of_formsDue {ts : List Token} {s : Operand ts}
    (h : s.FormsDue clean fun k => k.isType = true)
    (hq : clean = true → s.problems = [] → AtTypeSuffix s.rest) : s.FormsPrimary clean := by
  intro hp
  obtain ⟨hf, ⟨k, qs, hlead, ht, hparts⟩ | ⟨hlead, hc, hparts⟩⟩ := h hp
  · rw [hlead]
    exact ⟨hf, ⟨qs, hparts⟩, isAtom_of_isType ht, fun hc => .inr ⟨ht, hq hc (hp hc)⟩⟩
  · rw [hlead, hparts]
    exact ⟨trivial, mem_broken.mpr ⟨hc, .inl rfl⟩⟩

theorem formsPrimary_primitiveOperand (ts : List Token) :
    (primitiveOperand ts).FormsPrimary clean := by
  rw [primitiveOperand]
  split
  · next h => exact formsPrimary_of_formsDue (formsDue_type false ts) fun _ _ => h
  · next h =>
    apply formsPrimary_of_formsDue
    · intro hp
      exact formsDue_type false ts fun hc => (List.append_eq_nil_iff.mp (hp hc)).1
    · intro _ hp
      exact absurd (List.append_eq_nil_iff.mp hp).2 (List.cons_ne_nil _ _)

theorem atTypeSuffix_of_explicit {ts : List Token} (h : atExplicitTypeQualifier ts = true) :
    AtTypeSuffix (type false ts).rest := by
  rw [atExplicitTypeQualifier, Bool.and_eq_true] at h
  cases hs : skipType ts with
  | none =>
    rw [hs] at h
    cases h.2
  | some s =>
    rw [(leaves_type hs).1.2]
    have hmatch := h.2
    rw [hs] at hmatch
    dsimp only at hmatch
    split at hmatch
    · next hahead => exact .inl hahead
    · next hahead => exact .inl hahead
    · next hahead => exact .inr ⟨hahead, beq_iff_eq.mp hmatch⟩
    · cases hmatch

mutual

theorem formsExpr_expr (ts : List Token) : (expr ts).FormsExpr clean 0 := by
  have h : (binary ts 1).FormsExpr clean 1 := formsExpr_binary ts (by decide)
  rw [expr]
  split
  · next hnone => exact h.of_none hnone
  · next k hk => exact h.resume hk fun hs => formsExpr_assignment hs _
termination_by 16 * ts.length + 6
decreasing_by
  all_goals clear * -
  all_goals grind

theorem formsExpr_assignment {k : Kind} {target : List Piece} (h : Standing clean 1 k target)
    (ts : List Token) : (assignment k target ts).FormsExpr clean 0 := by
  have hdone (us : List Token) : (Operand.done k target us).FormsExpr clean 0 :=
    Operand.finds_done (h.mono (Nat.zero_le 1))
  cases ts with
  | nil =>
    rw [assignment]
    exact hdone []
  | cons t r =>
    rw [assignment]
    split
    · next ht =>
      apply Operand.finds_around
      intro hp
      exact standing_assignment h ht (formsExpr_expr r) hp
    · exact hdone (t :: r)
termination_by 16 * ts.length
decreasing_by
  all_goals clear * -
  all_goals grind

theorem formsExpr_binary (ts : List Token) {weakest : Nat} (hw : weakest ≤ 7) :
    (binary ts weakest).FormsExpr clean weakest := by
  have h : (unary ts).FormsExpr clean 7 := formsExpr_unary ts
  rw [binary]
  split
  · next hnone => exact h.of_none hnone
  · next k hk =>
    exact h.resume hk fun hs => formsExpr_binaryTail (hs.mono hw) _ (hs.bindsFirst _)
termination_by 16 * ts.length + 5
decreasing_by
  all_goals clear * -
  all_goals grind

theorem formsExpr_binaryTail {k : Kind} {left : List Piece} {weakest : Nat}
    (hl : Standing clean weakest k left) : (ts : List Token) →
    (clean = true → BindsFirst left ts) → (binaryTail k left ts weakest).FormsExpr clean weakest
  | [], _ => by
    rw [binaryTail]
    exact Operand.finds_done hl
  | t :: r, hfirst => by
    rw [binaryTail]
    split
    · exact Operand.finds_done hl
    · next strength hs =>
      split
      · exact Operand.finds_done hl
      · next hweak =>
        have hright : (binary r (strength + 1)).FormsExpr clean (strength + 1) :=
          formsExpr_binary r (Nat.succ_le_succ (precedence_le hs).2)
        have hinfixed := finds_infixExpression hl hs (Nat.le_of_not_lt hweak) hfirst hright
        exact (hinfixed.resume rfl fun h => formsExpr_binaryTail h.1 _ h.2).lift t
termination_by ts => 16 * ts.length
decreasing_by
  all_goals clear * -
  all_goals grind

theorem formsExpr_unary (ts : List Token) : (unary ts).FormsExpr clean 7 := by
  have hsuffixed (us : List Token) (h : (suffixed us).FormsExpr clean 8) :
      (suffixed us).FormsExpr clean 7 := h.mono fun _ _ _ hs => hs.mono (Nat.le_succ 7)
  cases ts with
  | nil =>
    rw [unary]
    exact hsuffixed [] (formsExpr_suffixed [])
  | cons t r =>
    rw [unary]
    split
    · next ht => exact fun hp => standing_unary ht (formsExpr_unary r) hp
    · exact hsuffixed (t :: r) (formsExpr_suffixed (t :: r))
termination_by 16 * ts.length + 4
decreasing_by
  all_goals clear * -
  all_goals grind

theorem formsExpr_suffixed (ts : List Token) : (suffixed ts).FormsExpr clean 8 := by
  have h : (primary ts).FormsPrimary clean := formsPrimary_primary ts
  rw [suffixed]
  split
  · next hnone => exact h.of_none hnone
  · next k hk => exact h.resume hk fun hs => formsExpr_suffixedTail _ hs
termination_by 16 * ts.length + 3
decreasing_by
  all_goals clear * -
  all_goals grind

theorem formsExpr_suffixedTail {k : Kind} {operand : List Piece} : (ts : List Token) →
    Attachable clean k operand (AtTypeSuffix ts) → (suffixedTail k operand ts).FormsExpr clean 8
  | [], h => by
    rw [suffixedTail]
    exact Operand.finds_done (h.standing (by simp [AtTypeSuffix, ahead]))
  | t :: r, h => by
    rw [suffixedTail]
    split
    · next ht =>
      have hclass : AtTypeSuffix (t :: r) → ahead r = .classKw := by
        rintro (hcolon | ⟨_, hclass⟩)
        · rw [ahead, ht] at hcolon
          cases hcolon
        · exact hclass
      exact (formsExpr_selection ht r (h.imp hclass)).lift t
    · split
      · next ht =>
        exact ((finds_methodReference h ht).resume rfl fun h => formsExpr_suffixedTail _ h).lift t
      · exact Operand.finds_done (h.standing (by simp [AtTypeSuffix, ahead, *]))
termination_by ts => 16 * ts.length
decreasing_by
  all_goals clear * -
  all_goals grind

theorem formsExpr_selection {k : Kind} {operand : List Piece} {d : Token} (hd : d.kind = .dot) :
    (r : List Token) → Attachable clean k operand (ahead r = .classKw) →
    (selection k operand d r).FormsExpr clean 8
  | [], h => by
    rw [selection]
    exact formsExpr_danglingPoint h d []
  | n :: s, h => by
    have follow {a : Operand s} {k' : Kind} (ha : a.FormsPrimary clean) (hk : a.lead = some k') :
        ((a.resume (suffixedTail k' a.parts a.rest)).lift n).FormsExpr clean 8 :=
      (ha.resume hk fun h => formsExpr_suffixedTail _ h).lift n
    rw [selection]
    split
    · next hn =>
      have hclass : ¬ ahead (n :: s) = .classKw := by
        rw [ahead, hn]
        exact fun he => by cases he
      split
      · exact follow (finds_methodCall h hclass hd hn (forms_argumentList s)) rfl
      · exact follow (finds_fieldAccess h hclass hd hn) rfl
    · split
      · next hn => exact follow (finds_classLiteral h hn.2 hd hn.1) rfl
      · split
        · next hn =>
          obtain ⟨hn, rfl⟩ := hn
          exact follow (finds_outerThis h hd hn) rfl
        · exact formsExpr_danglingPoint h d (n :: s)
termination_by r => 16 * r.length + 8
decreasing_by
  all_goals clear * -
  all_goals grind

theorem formsPrimary_primary (ts : List Token) : (primary ts).FormsPrimary clean := by
  cases ts with
  | nil =>
    rw [primary]
    exact Operand.finds_report _ _
  | cons t r =>
    rw [primary]
    split
    · next ht =>
      have hliteral : (bump true t r).Forms clean (content clean .literal) := forms_bumpOf ht r
      exact Operand.formsPrimary_found hliteral (fun _ => trivial) rfl rfl
    · split
      · next ht =>
        split
        · exact (formsPrimary_call ht (forms_argumentList r)).lift t
        · split
          · next hexplicit =>
            exact formsPrimary_of_formsDue (formsDue_type false (t :: r))
              fun _ _ => atTypeSuffix_of_explicit hexplicit
          · exact (formsPrimary_ambiguousName ht r).lift t
      · split
        · exact formsPrimary_primitiveOperand (t :: r)
        · split
          · next ht =>
            have hthis : (bump false t r).Forms clean (content clean .thisExpression) :=
              (forms_bump false ht r).mono fun _ => Or.inl
            exact Operand.formsPrimary_found hthis (fun _ => trivial) rfl rfl
          · split
            · next ht =>
              have hinner : (expr r).toStep.Forms clean (value clean) := (formsExpr_expr r).toStep
              exact (formsPrimary_parens ht (hinner.andThen (forms_expect _ _))).lift t
            · split
              · next ht =>
                have hmade := (forms_constructedClass r).andThen (forms_argumentList _)
                exact (formsPrimary_new ht hmade).lift t
              · split
                · exact Operand.finds_report _ _
                · exact Operand.finds_skip _ t r
termination_by 16 * ts.length + 2
decreasing_by
  all_goals clear * -
  all_goals grind

theorem forms_argumentList (ts : List Token) :
    (argumentList ts).Forms clean (due clean (one .argumentList)) := by
  cases ts with
  | nil =>
    rw [argumentList]
    exact (forms_report _ _).mono fun _ => mem_due_of_broken
  | cons t r =>
    rw [argumentList]
    split
    · next ht =>
      have h : (((argumentsTail r).lead false t).node .argumentList).Forms clean
          (one .argumentList) :=
        (((forms_argumentsTail r).lead false ht).of_eq (mul_assoc ..).symm).node fun _ => trivial
      exact (h.lift t).mono fun _ => mem_due_of_mem
    · exact (forms_report _ _).mono fun _ => mem_due_of_broken
termination_by 16 * ts.length
decreasing_by
  all_goals clear * -
  all_goals grind

theorem forms_argumentsTail (ts : List Token) :
    (argumentsTail ts).Forms clean (listed (value clean) * due clean (mark .rightParen)) := by
  cases ts with
  | nil =>
    rw [argumentsTail]
    exact (forms_expect _ _).mono fun _ => mem_listed_nil
  | cons t r =>
    rw [argumentsTail]
    split
    · exact (forms_expect _ _).mono fun _ => mem_listed_nil
    · have h : (expr (t :: r)).toStep.Forms clean (value clean) := (formsExpr_expr (t :: r)).toStep
      dsimp only
      split
      · exact (h.andThen (forms_expect _ _)).mono fun _ => mem_listed_last
      · exact (h.andThen (forms_argumentsMore _)).mono fun _ => mem_listed_more
termination_by 16 * ts.length + 8
decreasing_by
  all_goals clear * -
  all_goals grind

theorem forms_argumentsMore (ts : List Token) :
    (argumentsMore ts).Forms clean
      (mark .comma * (listed (value clean) * due clean (mark .rightParen)) +
        due clean (mark .rightParen)) := by
  cases ts with
  | nil =>
    rw [argumentsMore]
    exact (forms_expect _ _).mono fun _ => Or.inr
  | cons t r =>
    rw [argumentsMore]
    split
    · next ht =>
      exact (((forms_argumentsTail r).lead false ht).lift t).mono fun _ => Or.inl
    · exact (forms_expect _ _).mono fun _ => Or.inr
termination_by 16 * ts.length + 7
decreasing_by
  all_goals clear * -
  all_goals grind

end

end JavaSyntax.Grammar
