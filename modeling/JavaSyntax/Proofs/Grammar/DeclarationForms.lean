import JavaSyntax.Proofs.Grammar.StatementForms

namespace JavaSyntax.Grammar

open Piece Step Computability
open Content hiding condition declarators resultType statement

variable {clean : Bool}

theorem forms_parameter (ts : List Token) :
    (parameter ts).Forms clean (one .formalParameter) := by
  refine Forms.node ?_ fun _ => trivial
  exact ((forms_modifierList ts).andThen (forms_type true _)).andThen (forms_variableId _)

section

variable {w : List Symbol}

theorem mem_parameters_of_closed (h : w ∈ due clean (mark .rightParen)) : w ∈ parameters clean := by
  exact Language.mem_mul.mpr ⟨[], mem_kstar_mul_of_mem (.inl rfl), w, h, rfl⟩

theorem mem_parameters_of_first
    (h : w ∈ one .formalParameter * (mark .comma * parameters clean + due clean (mark .rightParen))) :
    w ∈ parameters clean := by
  rw [mul_add, ← mul_assoc] at h
  rcases h with h | h
  · obtain ⟨a, ha, b, hb, rfl⟩ := Language.mem_mul.mp h
    rw [parameters, mul_assoc] at hb ⊢
    apply mem_kstar_mul
    rw [mul_assoc]
    exact Language.append_mem_mul (.inl ha) hb
  · obtain ⟨a, ha, b, hb, rfl⟩ := Language.mem_mul.mp h
    exact Language.append_mem_mul (mem_kstar_mul_of_mem (.inr ha)) hb

theorem mem_parameters_of_skipped (h : w ∈ junk clean * parameters clean) :
    w ∈ parameters clean := by
  obtain ⟨a, ha, b, hb, rfl⟩ := Language.mem_mul.mp h
  rw [parameters, mul_assoc] at hb ⊢
  apply mem_kstar_mul
  rw [mul_assoc]
  exact Language.append_mem_mul (.inr ha) hb

end

mutual

theorem forms_parametersTail (ts : List Token) :
    (parametersTail ts).Forms clean (parameters clean) := by
  cases ts with
  | nil =>
    rw [parametersTail]
    exact (forms_expect _ _).mono fun _ => mem_parameters_of_closed
  | cons t r =>
    rw [parametersTail]
    split
    · exact (forms_expect _ _).mono fun _ => mem_parameters_of_closed
    · split
      · next h =>
        have hfirst : ((parameter (t :: r)).within r (length_rest_parameter_lt h)).Forms clean
            (one .formalParameter) := (forms_parameter (t :: r)).within _
        exact ((hfirst.andThen (forms_parametersMore _)).lift t).mono fun _ => mem_parameters_of_first
      · have hskipped := ((forms_skip .parameter t r).andThen (forms_parametersTail r)).lift t
        exact hskipped.mono fun _ => mem_parameters_of_skipped
termination_by 2 * ts.length
decreasing_by all_goals grind

theorem forms_parametersMore (ts : List Token) :
    (parametersMore ts).Forms clean
      (mark .comma * parameters clean + due clean (mark .rightParen)) := by
  cases ts with
  | nil =>
    rw [parametersMore]
    exact (forms_expect _ _).mono fun _ => Or.inr
  | cons t r =>
    rw [parametersMore]
    split
    · next ht => exact (((forms_parametersTail r).lead false ht).lift t).mono fun _ => Or.inl
    · exact (forms_expect _ _).mono fun _ => Or.inr
termination_by 2 * ts.length + 1
decreasing_by all_goals grind

end

theorem forms_methodBody (ts : List Token) :
    (methodBody ts).Forms clean (one .block + semicolon clean) := by
  cases ts with
  | nil => exact (forms_expect _ _).mono fun _ => Or.inr
  | cons t r =>
    rw [methodBody]
    split
    · next ht => exact ((forms_blockFrom ht r).lift t).mono fun _ => Or.inl
    · exact (forms_expect _ _).mono fun _ => Or.inr

theorem forms_resultType (ts : List Token) :
    (resultType ts).Forms clean (Content.resultType clean) := by
  cases ts with
  | nil => exact (forms_type false []).mono fun _ => Or.inr
  | cons t r =>
    rw [resultType]
    split
    · next ht =>
      have hvoid : ((bump true t r).node .voidType).Forms clean (one .voidType) :=
        Forms.node (forms_bump true ht r) fun _ => trivial
      exact hvoid.mono fun _ => Or.inl
    · exact (forms_type false (t :: r)).mono fun _ => Or.inr

section

variable {before : List Piece}

/-- A member with the modifiers and the type in front of it. -/
theorem forms_enclosed {ts : List Token} {s : Step ts} {k : Kind} {l m : Language Symbol}
    (hb : AllFormed clean before) (hs : symbols before ∈ m) (h : s.Forms clean l)
    (hc : m * l = content clean k) (hr : ∀ ps, Ranked k ps) (hk : Category.member.contains k = true) :
    Step.Forms clean (nodeOf Category.member.contains)
      { s with parts := [.node k (before ++ s.parts)] } :=
  fun hp => ⟨h.enclosed hb hs (mem_of_eq hc) (fun _ _ => hr _) hp, k, hk, rfl⟩

theorem forms_field (hb : AllFormed clean before)
    (hs : symbols before ∈ one .modifierList * Content.resultType clean) (ts : List Token) :
    (memberTail.field before ts).Forms clean (nodeOf Category.member.contains) := by
  have hdeclared : ((declarators ts).andThen (expect .semicolon _)).Forms clean
      (Content.declarators * semicolon clean) :=
    (forms_declarators ts).andThen (forms_expect .semicolon _)
  exact forms_enclosed hb hs hdeclared (k := .fieldDeclaration) (mul_assoc ..).symm
    (fun _ => trivial) rfl

theorem forms_memberTail (hb : AllFormed clean before)
    (hs : symbols before ∈ one .modifierList * Content.resultType clean) : (ts : List Token) →
    (memberTail before ts).Forms clean (nodeOf Category.member.contains)
  | [] | [_] => forms_field hb hs _
  | n :: p :: r => by
    rw [memberTail]
    split
    · next h =>
      have hparameters : (((parametersTail r).lead false p).node .formalParameters).Forms clean
          (one .formalParameters) :=
        Forms.node ((forms_parametersTail r).lead false h.2) fun _ => trivial
      have hmethod := (hparameters.andThen (forms_methodBody _)).lead true h.1
      exact ((forms_enclosed hb hs hmethod (k := .methodDeclaration)
        (by simp only [content, mul_assoc]; rfl) (fun _ => trivial) rfl).lift p).lift n
    · exact forms_field hb hs _

end

theorem forms_declaredMember (ts : List Token) :
    (declaredMember ts).Forms clean (nodeOf Category.member.contains) := by
  intro hp
  have hnil : clean = true → _ ∧ _ := fun hc => List.append_eq_nil_iff.mp (hp hc)
  obtain ⟨hf, hs⟩ := ((forms_modifierList ts).andThen (forms_resultType _)) fun hc => (hnil hc).1
  exact forms_memberTail hf hs _ fun hc => (hnil hc).2

theorem forms_member (t : Token) (r : List Token) :
    (member t r).Forms clean
      (nodeOf Category.member.contains + mark .semicolon + junk clean) := by
  rw [member]
  split
  · next ht => exact (forms_lone ht r).mono fun _ hw => .inl (.inr hw)
  · split
    · exact ((forms_declaredMember (t :: r)).within _).mono fun _ hw => .inl (.inl hw)
    · exact (forms_skip _ t r).mono fun _ => Or.inr

theorem forms_membersTail (ts : List Token) :
    (membersTail ts).Forms clean
      ((nodeOf Category.member.contains + mark .semicolon + junk clean)∗ *
        due clean (mark .rightBrace)) := by
  cases ts with
  | nil =>
    rw [membersTail]
    exact (forms_expect _ []).mono fun _ => mem_kstar_mul_of_mem
  | cons t r =>
    rw [membersTail]
    split
    · exact (forms_expect _ (t :: r)).mono fun _ => mem_kstar_mul_of_mem
    · have hmore := ((forms_member t r).andThen (forms_membersTail _)).lift t
      rw [← mul_assoc] at hmore
      exact hmore.mono fun _ => mem_kstar_mul
termination_by ts.length
decreasing_by all_goals grind

theorem forms_className (ts : List Token) :
    (className ts).Forms clean (due clean (word .ident)) := by
  cases ts with
  | nil => exact (forms_report _ _).mono fun _ => mem_due_of_broken
  | cons t r =>
    rw [className]
    split
    · next ht => exact (forms_bump true ht r).mono fun _ => mem_due_of_mem
    · exact (forms_report _ _).mono fun _ => mem_due_of_broken

theorem forms_classBody (ts : List Token) :
    (classBody ts).Forms clean (due clean (one .classBody)) := by
  cases ts with
  | nil => exact (forms_report _ _).mono fun _ => mem_due_of_broken
  | cons t r =>
    rw [classBody]
    split
    · next ht =>
      have hbody : ((membersTail r).lead false t).Forms clean (content clean .classBody) :=
        ((forms_membersTail r).lead false ht).of_eq (mul_assoc ..).symm
      exact ((hbody.node fun _ => trivial).lift t).mono fun _ => mem_due_of_mem
    · exact (forms_report _ _).mono fun _ => mem_due_of_broken

theorem forms_classDeclaration (ts : List Token) :
    (classDeclaration ts).Forms clean (one .classDeclaration) := by
  have hannounced : ((modifierList ts).andThen (expect .classKw _)).Forms clean
      (one .modifierList * due clean (mark .classKw)) :=
    (forms_modifierList ts).andThen (forms_expect .classKw _)
  have hnamed := hannounced.andThen (forms_className _)
  exact Forms.node (hnamed.andThen (forms_classBody _)) fun _ => trivial

theorem forms_classDeclarations (ts : List Token) :
    (classDeclarations ts).Forms clean (one .classDeclaration + junk clean)∗ := by
  cases ts with
  | nil =>
    rw [classDeclarations]
    exact forms_none _
  | cons t r =>
    rw [classDeclarations]
    split
    · next h =>
      have hfirst : ((classDeclaration (t :: r)).within r (length_rest_classDeclaration_lt h)).Forms
          clean (one .classDeclaration + junk clean) :=
        ((forms_classDeclaration (t :: r)).within _).mono fun _ => Or.inl
      exact (hfirst.many (forms_classDeclarations _)).lift t
    · have hskipped : (skip .classDeclaration t r).Forms clean (one .classDeclaration + junk clean) :=
        (forms_skip .classDeclaration t r).mono fun _ => Or.inr
      exact (hskipped.many (forms_classDeclarations r)).lift t
termination_by ts.length
decreasing_by all_goals grind

theorem forms_compilationUnit (ts : List Token) :
    (compilationUnit ts).Forms clean (one .compilationUnit) :=
  Forms.node (forms_classDeclarations ts) fun _ => trivial

theorem forms_unexpectedRest : (ts : List Token) →
    (unexpectedRest ts).Forms clean (junk clean)∗
  | [] => forms_none _
  | t :: r => ((forms_skip _ t r).many (forms_unexpectedRest r)).lift t

theorem forms_loneExpression (ts : List Token) :
    (loneExpression ts).Forms clean (one .expressionStatement) := by
  refine Forms.node ?_ fun _ => trivial
  rw [content, mul_add]
  exact ((forms_expr ts).andThen (forms_unexpectedRest _)).mono fun _ => Or.inr

end JavaSyntax.Grammar
