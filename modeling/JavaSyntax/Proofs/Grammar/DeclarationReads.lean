import JavaSyntax.Proofs.Grammar.StatementReads

namespace JavaSyntax.Grammar

open Piece Step

theorem reads_parameter {whole : Bool} (ts : List Token) : (parameter ts).Reads whole [] [] :=
  ((reads_typed true ts).andThen (reads_variableId _)).free rfl

mutual

theorem reads_parametersTail {whole : Bool} (ts : List Token) :
    (parametersTail ts).Reads whole [] [] := by
  cases ts with
  | nil =>
    rw [parametersTail]
    exact reads_expect (fun _ => rfl) _
  | cons t r =>
    rw [parametersTail]
    split
    · exact reads_expect (fun _ => rfl) _
    · next ht =>
      split
      · next h =>
        have first : ((parameter (t :: r)).within r (length_rest_parameter_lt h)).Reads whole [] [t] :=
          (reads_parameter (t :: r)).within (a := [t]) _
        exact (first.andThen (reads_parametersMore _)).lift (b := [])
      · have skipped : (skip .parameter t r).Reads whole [] [t] :=
          reads_skip _ (fun _ => not_isBrace_of_not_parameterRecovery fun h => ht (.inr h)) r
        exact (skipped.andThen (reads_parametersTail r)).lift (b := [])
termination_by 2 * ts.length
decreasing_by all_goals grind

theorem reads_parametersMore {whole : Bool} (ts : List Token) :
    (parametersMore ts).Reads whole [] [] := by
  cases ts with
  | nil =>
    rw [parametersMore]
    exact reads_expect (fun _ => rfl) _
  | cons t r =>
    rw [parametersMore]
    split
    · next ht =>
      exact ((reads_parametersTail r).lead false fun _ => congrArg Kind.isBrace ht).lift (b := [])
    · exact reads_expect (fun _ => rfl) _
termination_by 2 * ts.length + 1
decreasing_by all_goals grind

end

theorem reads_methodBody {whole : Bool} (ts : List Token) : (methodBody ts).Reads whole [] [] := by
  cases ts with
  | nil => exact reads_expect (fun _ => rfl) _
  | cons t r =>
    rw [methodBody]
    split
    · next ht => exact (reads_blockFrom ht r).lift (b := [])
    · exact reads_expect (fun _ => rfl) _

theorem reads_resultType {whole : Bool} (ts : List Token) : (resultType ts).Reads whole [] [] := by
  cases ts with
  | nil => exact (reads_type false []).toReads
  | cons t r =>
    rw [resultType]
    split
    · next ht => exact (reads_bump true (fun _ => congrArg Kind.isBrace ht) r).free rfl
    · exact (reads_type false (t :: r)).toReads

theorem reads_field {whole : Bool} (typed : List Piece) (ts : List Token) :
    (memberTail.field typed ts).Reads whole typed [] := by
  have declared : ((declarators ts).andThen (expect .semicolon _)).Reads whole [] [] :=
    (reads_declarators ts).andThen (reads_expect (fun _ => rfl) _)
  exact (declared.behind typed).free (k := .fieldDeclaration) rfl

theorem reads_memberTail {whole : Bool} (typed : List Piece) :
    (ts : List Token) → (memberTail typed ts).Reads whole typed []
  | [] | [_] => reads_field typed _
  | n :: p :: r => by
    rw [memberTail]
    split
    · next h =>
      have parameters : (((parametersTail r).lead false p).node .formalParameters).Reads whole [] [p] :=
        (reads_parametersTail r).opened false h.2 rfl fun _ => rfl
      have method := (parameters.andThen (reads_methodBody _)).lead true fun _ =>
        congrArg Kind.isBrace h.1
      have enclosed := (method.behind typed).free (k := .methodDeclaration) rfl
      exact (enclosed.lift (b := [n])).lift (b := [])
    · exact reads_field typed _

theorem reads_declaredMember {whole : Bool} (ts : List Token) :
    (declaredMember ts).Reads whole [] [] :=
  ((reads_modifierList ts).andThen (reads_resultType _)).goOn (reads_memberTail _ _)

theorem reads_member (t : Token) (r : List Token) : (member t r).Reads false [] [t] := by
  rw [member]
  split
  · exact (reads_idle r).lead false outside
  · split
    · exact (reads_declaredMember (t :: r)).within (a := [t]) _
    · exact reads_skip _ outside r

theorem reads_membersTail (ts : List Token) : (membersTail ts).Reads false [] [] := by
  cases ts with
  | nil =>
    rw [membersTail]
    exact reads_expect outside _
  | cons t r =>
    rw [membersTail]
    split
    · exact reads_expect outside _
    · exact ((reads_member t r).andThen (reads_membersTail _)).lift (b := [])
termination_by ts.length
decreasing_by all_goals grind

theorem exists_parts_memberTail (typed : List Piece) :
    (ts : List Token) → ∃ p, (memberTail typed ts).parts = [p]
  | [] | [_] => ⟨_, rfl⟩
  | n :: p :: r => by
    rw [memberTail]
    split
    · exact ⟨_, rfl⟩
    · exact ⟨_, rfl⟩

theorem exists_parts_declaredMember (ts : List Token) : ∃ p, (declaredMember ts).parts = [p] := by
  unfold declaredMember
  exact exists_parts_memberTail _ _

theorem exists_parts_member (t : Token) (r : List Token) : ∃ p, (member t r).parts = [p] := by
  rw [member]
  split
  · exact ⟨_, rfl⟩
  · split
    · exact exists_parts_declaredMember (t :: r)
    · exact ⟨_, rfl⟩

theorem fills_membersTail (ts : List Token) : (membersTail ts).Fills := by
  cases ts with
  | nil =>
    rw [membersTail]
    exact fills_expect _ _
  | cons t r =>
    rw [membersTail]
    split
    · exact fills_expect _ _
    · exact ((reads_member t r).fills (exists_parts_member t r)).andThen (fills_membersTail _)
termination_by ts.length
decreasing_by all_goals grind

theorem reads_className (ts : List Token) : (className ts).Reads false [] [] := by
  cases ts with
  | nil => exact reads_report _ _
  | cons t r =>
    rw [className]
    split
    · exact reads_bump _ outside _
    · exact reads_report _ _

theorem stands_classBody {t : Token} (ht : t.kind = .leftBrace) {r : List Token} {s : Step r} (h : s.Fills)
    (found : List (Option Token)) (after : List Token) :
    Stands found .classBody (s.lead false t).parts after := by
  refine ⟨⟨rfl, by decide, ?_, nofun, nofun⟩, nofun, trivial, nofun, nofun, fun _ => h.lead false t⟩
  intro o ho
  cases ho
  exact congrArg some ht

theorem reads_classBody (ts : List Token) : (classBody ts).Reads false [] [] := by
  cases ts with
  | nil => exact reads_report _ _
  | cons t r =>
    rw [classBody]
    split
    · next ht =>
      have body := (reads_membersTail r).lead (t := t) false outside
      exact (body.node (stands_classBody ht (fills_membersTail r) _ _)).lift (b := [])
    · exact reads_report _ _

theorem reads_classDeclaration (ts : List Token) : (classDeclaration ts).Reads false [] [] := by
  have announced := (reads_modifierList ts).andThen (reads_expect (k := .classKw) outside _)
  have named := announced.andThen (reads_className _)
  exact (named.andThen (reads_classBody _)).free rfl

theorem reads_classDeclarations (ts : List Token) : (classDeclarations ts).Reads false [] [] := by
  cases ts with
  | nil =>
    rw [classDeclarations]
    exact reads_idle _
  | cons t r =>
    rw [classDeclarations]
    split
    · next h =>
      have first := (reads_classDeclaration (t :: r)).within (a := [t])
        (length_rest_classDeclaration_lt h)
      exact (first.andThen (reads_classDeclarations _)).lift (b := [])
    · exact ((reads_skip _ outside r).andThen (reads_classDeclarations r)).lift (b := [])
termination_by ts.length
decreasing_by all_goals grind

theorem fills_classDeclarations (ts : List Token) : (classDeclarations ts).Fills := by
  cases ts with
  | nil =>
    rw [classDeclarations]
    exact List.forall_mem_nil _
  | cons t r =>
    rw [classDeclarations]
    split
    · next h =>
      have first := (reads_classDeclaration (t :: r)).within (a := [t])
        (length_rest_classDeclaration_lt h)
      exact (first.fills ⟨_, rfl⟩).andThen (fills_classDeclarations _)
    · have first : (skip .classDeclaration t r).Reads false [] [t] := reads_skip _ outside r
      exact (first.fills ⟨_, rfl⟩).andThen (fills_classDeclarations r)
termination_by ts.length
decreasing_by all_goals grind

theorem reads_compilationUnit (ts : List Token) : (compilationUnit ts).Reads false [] [] := by
  refine (reads_classDeclarations ts).node
    ⟨⟨rfl, by decide, nofun, nofun, nofun⟩, nofun, trivial, nofun, nofun, ?_⟩
  exact fun _ => fills_classDeclarations ts

theorem reads_unexpectedRest : (ts : List Token) → (unexpectedRest ts).Reads false [] []
  | [] => reads_idle _
  | _ :: r => ((reads_skip _ outside r).andThen (reads_unexpectedRest r)).lift (b := [])

theorem reads_loneExpression (ts : List Token) : (loneExpression ts).Reads false [] [] :=
  ((reads_expr ts).toReads.andThen (reads_unexpectedRest _)).free rfl

theorem rest_classDeclarations (ts : List Token) : (classDeclarations ts).rest = [] := by
  cases ts with
  | nil =>
    rw [classDeclarations]
    rfl
  | cons t r =>
    rw [classDeclarations]
    split
    · exact rest_classDeclarations (classDeclaration (t :: r)).rest
    · exact rest_classDeclarations r
termination_by ts.length
decreasing_by all_goals grind [length_rest_classDeclaration_lt]

/-- A whole file leaves nothing unread. -/
theorem rest_compilationUnit (ts : List Token) : (compilationUnit ts).rest = [] :=
  rest_classDeclarations ts

theorem rest_unexpectedRest (ts : List Token) : (unexpectedRest ts).rest = [] := by
  induction ts with
  | nil => rfl
  | cons t r ih => exact ih

theorem rest_loneExpression (ts : List Token) : (loneExpression ts).rest = [] :=
  rest_unexpectedRest (expr ts).rest

end JavaSyntax.Grammar
