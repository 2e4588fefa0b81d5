import JavaSyntax.Proofs.Grammar.ExpressionForms

namespace JavaSyntax.Grammar

open Piece Step Computability
open Content hiding condition declarators resultType statement

variable {clean : Bool}

theorem forms_expr (ts : List Token) : (expr ts).toStep.Forms clean (value clean) :=
  (formsExpr_expr ts).toStep

theorem forms_initializer (ts : List Token) :
    (initializer ts).Forms clean (1 + mark .eq * value clean) := by
  cases ts with
  | nil => exact (forms_idle _).mono fun _ => Or.inl
  | cons t r =>
    rw [initializer]
    split
    · next ht => exact (((forms_expr r).lead false ht).lift t).mono fun _ => Or.inr
    · exact (forms_idle _).mono fun _ => Or.inl

theorem forms_declarator (ts : List Token) :
    (declarator ts).Forms clean (one .variableDeclarator) :=
  ((forms_variableId ts).andThen (forms_initializer _)).node fun _ => trivial

mutual

theorem forms_declarators (ts : List Token) :
    (declarators ts).Forms clean Content.declarators := by
  rw [declarators]
  exact (forms_declarator ts).andThen (forms_moreDeclarators _)
termination_by 2 * ts.length + 1
decreasing_by all_goals grind

theorem forms_moreDeclarators (ts : List Token) :
    (moreDeclarators ts).Forms clean (mark .comma * one .variableDeclarator)∗ := by
  cases ts with
  | nil =>
    rw [moreDeclarators]
    exact forms_none _
  | cons t r =>
    rw [moreDeclarators]
    split
    · next ht =>
      have hmore : ((declarators r).lead false t).Forms clean
          (mark .comma * one .variableDeclarator * (mark .comma * one .variableDeclarator)∗) :=
        ((forms_declarators r).lead false ht).of_eq (mul_assoc ..).symm
      exact (hmore.lift t).mono fun _ => mem_kstar_cons
    · exact forms_none _
termination_by 2 * ts.length
decreasing_by all_goals grind

end

theorem forms_condition (ts : List Token) :
    (condition ts).Forms clean (Content.condition clean) :=
  ((forms_expect _ ts).andThen (forms_expr _)).andThen (forms_expect _ _)

/-- A variable without an initializer. -/
theorem forms_plainDeclarator (ts : List Token) :
    ((variableId ts).node .variableDeclarator).Forms clean (one .variableDeclarator) := by
  refine Forms.node ?_ fun _ => trivial
  apply (forms_variableId ts).mono
  intro w hw
  exact Language.mem_mul.mpr ⟨w, hw, [], .inl rfl, List.append_nil w⟩

/-- The variable of a loop is declared like any other, but alone. -/
theorem forms_loopVariable (ts : List Token) :
    ((((modifierList ts).andThen (type false _).toStep).andThen
      ((variableId _).node .variableDeclarator)).node .localVariableDeclaration).Forms clean
        (one .localVariableDeclaration) := by
  refine Forms.node ?_ fun _ => trivial
  rw [content, mul_add]
  exact (((forms_modifierList ts).andThen (forms_type false _)).andThen
    (forms_plainDeclarator _)).mono fun _ => Or.inr

theorem forms_foreachHead (ts : List Token) :
    (foreachHead ts).Forms clean (due clean (mark .leftParen) * one .localVariableDeclaration *
      due clean (mark .colon) * value clean * due clean (mark .rightParen)) := by
  have hopened : (expect .leftParen ts).Forms clean (due clean (mark .leftParen)) :=
    forms_expect .leftParen ts
  have hdivided := (hopened.andThen (forms_loopVariable _)).andThen (forms_expect .colon _)
  exact (hdivided.andThen (forms_expr _)).andThen (forms_expect _ _)

theorem forms_catchHead (ts : List Token) :
    (catchHead ts).Forms clean
      (due clean (mark .leftParen) * one .catchParameter * due clean (mark .rightParen)) := by
  have hparameter (us : List Token) : ((((modifierList us).andThen (type false _).toStep).andThen
      (variableId _)).node .catchParameter).Forms clean (one .catchParameter) := by
    refine Forms.node ?_ fun _ => trivial
    exact ((forms_modifierList us).andThen (forms_type false _)).andThen (forms_variableId _)
  have hopened : (expect .leftParen ts).Forms clean (due clean (mark .leftParen)) :=
    forms_expect .leftParen ts
  exact (hopened.andThen (hparameter _)).andThen (forms_expect _ _)

theorem forms_localVariable (ts : List Token) :
    (localVariable ts).Forms clean (one .localVariableDeclaration) := by
  have htyped : ((modifierList ts).andThen (type false _).toStep).Forms clean
      (one .modifierList * typed clean) := (forms_modifierList ts).andThen (forms_type false _)
  refine Forms.node ?_ fun _ => trivial
  rw [content, mul_add]
  apply Forms.mono _ fun _ => Or.inl
  rw [← mul_assoc]
  exact (htyped.andThen (forms_declarators _)).andThen (forms_expect _ _)

theorem forms_expressionStatement (ts : List Token) :
    (expressionStatement ts).Forms clean (one .expressionStatement) := by
  refine Forms.node ?_ fun _ => trivial
  rw [content, mul_add]
  exact ((forms_expr ts).andThen (forms_expect _ _)).mono fun _ => Or.inl

theorem forms_returned (ts : List Token) :
    (returned ts).Forms clean ((1 + value clean) * semicolon clean) := by
  have hvalue (us : List Token) : ((expr us).toStep.andThen (expect .semicolon _)).Forms clean
      ((1 + value clean) * semicolon clean) :=
    ((forms_expr us).mono fun _ => Or.inr).andThen (forms_expect _ _)
  cases ts with
  | nil => exact hvalue []
  | cons t r =>
    rw [returned]
    split
    · next ht =>
      apply (forms_bump false ht r).mono
      intro w hw
      exact Language.mem_mul.mpr ⟨[], .inl rfl, w, mem_due_of_mem hw, rfl⟩
    · exact hvalue (t :: r)

mutual

theorem forms_block (ts : List Token) : (block ts).Forms clean (due clean (one .block)) := by
  cases ts with
  | nil =>
    rw [block]
    exact (forms_report _ _).mono fun _ => mem_due_of_broken
  | cons t r =>
    rw [block]
    split
    · next ht => exact ((forms_blockFrom ht r).lift t).mono fun _ => mem_due_of_mem
    · exact (forms_report _ _).mono fun _ => mem_due_of_broken
termination_by 8 * ts.length + 1
decreasing_by all_goals grind

theorem forms_blockFrom {t : Token} (ht : t.kind = .leftBrace) (r : List Token) :
    (blockFrom t r).Forms clean (one .block) := by
  rw [blockFrom]
  have hblock : ((blockTail r).lead false t).Forms clean (content clean .block) :=
    ((forms_blockTail r).lead false ht).of_eq (mul_assoc ..).symm
  exact hblock.node fun _ => trivial
termination_by 8 * r.length + 1
decreasing_by all_goals grind

theorem forms_blockTail (ts : List Token) :
    (blockTail ts).Forms clean
      ((Content.statement clean)∗ * due clean (mark .rightBrace)) := by
  cases ts with
  | nil =>
    rw [blockTail]
    exact (forms_expect _ []).mono fun _ => mem_kstar_mul_of_mem
  | cons t r =>
    rw [blockTail]
    split
    · exact (forms_expect _ (t :: r)).mono fun _ => mem_kstar_mul_of_mem
    · have hmore := ((forms_statement t r).andThen (forms_blockTail _)).lift t
      rw [← mul_assoc] at hmore
      exact hmore.mono fun _ => mem_kstar_mul
termination_by 8 * ts.length
decreasing_by all_goals grind

theorem forms_statement (t : Token) (r : List Token) :
    (statement t r).Forms clean (Content.statement clean) := by
  have compound {k : Kind} {s : Step r} {l : Language Symbol} {o : Kind} (ht : t.kind = o)
      (h : s.Forms clean l) (hl : mark o * l = content clean k) (hr : ∀ ps, Ranked k ps)
      (hk : Category.statement.contains k = true) :
      ((s.lead false t).node k).Forms clean (Content.statement clean) := by
    have hnode : (s.lead false t).Forms clean (content clean k) := (h.lead false ht).of_eq hl
    exact (hnode.node hr).mono fun w hw => .inl (.inl ⟨k, hk, hw⟩)
  have plain {k : Kind} {s : Step r} (h : s.Forms clean (one k))
      (hk : Category.statement.contains k = true) : s.Forms clean (Content.statement clean) :=
    h.mono fun w hw => .inl (.inl ⟨k, hk, hw⟩)
  rw [statement]
  split
  · next ht => exact plain (forms_blockFrom ht r) rfl
  · split
    · next ht => exact (forms_lone ht r).mono fun _ hw => .inl (.inr hw)
    · split
      · next ht =>
        exact compound ht (forms_returned r) (mul_assoc ..).symm (fun _ => trivial) rfl
      · split
        · next ht =>
          have hchosen := (forms_condition r).andThen (forms_body _)
          exact compound ht (hchosen.andThen (forms_elseBranch _)) (by simp only [content, mul_assoc])
            (fun _ => trivial) rfl
        · split
          · next ht =>
            exact compound ht ((forms_condition r).andThen (forms_body _))
              (mul_assoc ..).symm (fun _ => trivial) rfl
          · split
            · next ht =>
              exact compound ht ((forms_foreachHead r).andThen (forms_body _))
                (by simp only [content, mul_assoc]) (fun _ => trivial) rfl
            · split
              · next ht =>
                exact compound ht ((forms_block r).andThen (forms_catches _))
                  (mul_assoc ..).symm (fun _ => trivial) rfl
              · split
                · exact plain ((forms_localVariable (t :: r)).within _) rfl
                · split
                  · exact plain ((forms_expressionStatement (t :: r)).within _) rfl
                  · exact (forms_skip _ t r).mono fun _ => Or.inr
termination_by 8 * r.length + 4
decreasing_by
  all_goals clear * -
  all_goals grind

theorem forms_body (ts : List Token) :
    (body ts).Forms clean (due clean (Content.statement clean)) := by
  cases ts with
  | nil =>
    rw [body]
    exact (forms_report _ _).mono fun _ => mem_due_of_broken
  | cons t r =>
    rw [body]
    split
    · exact (forms_report _ _).mono fun _ => mem_due_of_broken
    · exact ((forms_statement t r).lift t).mono fun _ => mem_due_of_mem
termination_by 8 * ts.length
decreasing_by all_goals grind

theorem forms_elseBranch (ts : List Token) :
    (elseBranch ts).Forms clean (1 + mark .elseKw * due clean (Content.statement clean)) := by
  cases ts with
  | nil =>
    rw [elseBranch]
    exact (forms_idle _).mono fun _ => Or.inl
  | cons t r =>
    rw [elseBranch]
    split
    · next ht => exact (((forms_body r).lead false ht).lift t).mono fun _ => Or.inr
    · exact (forms_idle _).mono fun _ => Or.inl
termination_by 8 * ts.length
decreasing_by all_goals grind

theorem forms_catches (ts : List Token) :
    (catches ts).Forms clean (due clean (one .catchClause * (one .catchClause)∗)) := by
  cases ts with
  | nil =>
    rw [catches]
    exact (forms_report _ _).mono fun _ => mem_due_of_broken
  | cons t r =>
    rw [catches]
    split
    · next ht => exact ((forms_catchesFrom ht r).lift t).mono fun _ => mem_due_of_mem
    · exact (forms_report _ _).mono fun _ => mem_due_of_broken
termination_by 8 * ts.length + 1
decreasing_by all_goals grind

theorem forms_catchesFrom {t : Token} (ht : t.kind = .catchKw) (r : List Token) :
    (catchesFrom t r).Forms clean (one .catchClause * (one .catchClause)∗) := by
  rw [catchesFrom]
  have hclause : (((catchHead r).andThen (block _)).lead false t).Forms clean
      (content clean .catchClause) :=
    (((forms_catchHead r).andThen (forms_block _)).lead false ht).of_eq
      (by simp only [content, mul_assoc]; rfl)
  exact (hclause.node fun _ => trivial).andThen (forms_moreCatches _)
termination_by 8 * r.length + 3
decreasing_by all_goals grind

theorem forms_moreCatches (ts : List Token) :
    (moreCatches ts).Forms clean (one .catchClause)∗ := by
  cases ts with
  | nil =>
    rw [moreCatches]
    exact forms_none _
  | cons t r =>
    rw [moreCatches]
    split
    · next ht => exact ((forms_catchesFrom ht r).lift t).mono fun _ => mem_kstar_cons
    · exact forms_none _
termination_by 8 * ts.length
decreasing_by all_goals grind

end

end JavaSyntax.Grammar
