import JavaSyntax.Proofs.Grammar.ExpressionReads
import JavaSyntax.Proofs.Grammar.StatementForms

namespace JavaSyntax.Grammar

open Piece Step

section

variable {whole : Bool}

theorem reads_initializer (ts : List Token) : (initializer ts).Reads whole [] [] := by
  cases ts with
  | nil => exact reads_idle _
  | cons t r =>
    rw [initializer]
    split
    · next ht =>
      exact ((reads_expr r).toReads.lead false fun _ => congrArg Kind.isBrace ht).lift (b := [])
    · exact reads_idle _

theorem reads_declarator (ts : List Token) : (declarator ts).Reads whole [] [] :=
  ((reads_variableId ts).andThen (reads_initializer _)).free rfl

mutual

theorem reads_declarators (ts : List Token) : (declarators ts).Reads whole [] [] := by
  rw [declarators]
  exact (reads_declarator ts).andThen (reads_moreDeclarators _)
termination_by 2 * ts.length + 1
decreasing_by all_goals grind

theorem reads_moreDeclarators (ts : List Token) : (moreDeclarators ts).Reads whole [] [] := by
  cases ts with
  | nil =>
    rw [moreDeclarators]
    exact reads_idle _
  | cons t r =>
    rw [moreDeclarators]
    split
    · next ht =>
      exact ((reads_declarators r).lead false fun _ => congrArg Kind.isBrace ht).lift (b := [])
    · exact reads_idle _
termination_by 2 * ts.length
decreasing_by all_goals grind

end

theorem reads_condition (ts : List Token) : (condition ts).Reads whole [] [] :=
  ((reads_expect (fun _ => rfl) ts).andThen (reads_expr _).toReads).andThen
    (reads_expect (fun _ => rfl) _)

theorem reads_typed (varargs : Bool) (ts : List Token) :
    ((modifierList ts).andThen (type varargs (modifierList ts).rest).toStep).Reads whole [] [] :=
  (reads_modifierList ts).andThen (reads_type varargs _).toReads

theorem reads_foreachHead (ts : List Token) : (foreachHead ts).Reads whole [] [] := by
  have named (us : List Token) := (@reads_typed whole false us).andThen
    ((reads_variableId _).free (k := .variableDeclarator) rfl)
  have element := (reads_expect (k := .leftParen) (fun _ => rfl) ts).andThen
    ((named _).free (k := .localVariableDeclaration) rfl)
  have divided := element.andThen (reads_expect (k := .colon) (fun _ => rfl) _)
  exact (divided.andThen (reads_expr _).toReads).andThen (reads_expect (fun _ => rfl) _)

theorem find?_isNode_expect (k : Kind) (ts : List Token) :
    (expect k ts).parts.find? isNode = none := by
  cases ts with
  | nil => rfl
  | cons t r =>
    rw [expect]
    split
    · rfl
    · rfl

/-- A loop reads the declaration of one variable. -/
theorem declaresOne_foreachHead (ts : List Token) : DeclaresOne (foreachHead ts).parts := by
  have hmodifiers (us : List Token) : (modifierList us).Forms false (Content.one .modifierList) :=
    forms_modifierList us
  have hnamed := ((hmodifiers (expect .leftParen ts).rest).andThen (forms_type false _)).andThen
    (forms_plainDeclarator _)
  refine ⟨_, ?_, (hnamed Bool.noConfusion).2⟩
  simp only [foreachHead, Step.andThen, List.find?_append, find?_isNode_expect, Step.node,
    Option.none_or]
  rfl

theorem stands_foreach {t : Token} (ht : t.kind = .forKw) (r : List Token) {found : List (Option Token)}
    (behind : List Piece) (after : List Token) :
    Stands found .foreachStatement (.token t false :: ((foreachHead r).parts ++ behind)) after := by
  obtain ⟨qs, hfirst, hqs⟩ := declaresOne_foreachHead r
  refine ⟨⟨rfl, by decide, ?_, nofun, nofun⟩, nofun, trivial, nofun, fun _ => ⟨qs, ?_, hqs⟩, nofun⟩
  · intro o ho
    cases ho
    exact congrArg some ht
  · rw [List.find?_cons_of_neg Bool.false_ne_true, List.find?_append, hfirst, Option.some_or]

theorem reads_catchHead (ts : List Token) : (catchHead ts).Reads whole [] [] := by
  have named (us : List Token) := (@reads_typed whole false us).andThen (reads_variableId _)
  have parameter := (reads_expect (k := .leftParen) (fun _ => rfl) ts).andThen
    ((named _).free (k := .catchParameter) rfl)
  exact parameter.andThen (reads_expect (fun _ => rfl) _)

theorem reads_localVariable (ts : List Token) : (localVariable ts).Reads whole [] [] :=
  (((reads_typed false ts).andThen (reads_declarators _)).andThen (reads_expect (fun _ => rfl) _)).free rfl

theorem reads_expressionStatement (ts : List Token) : (expressionStatement ts).Reads whole [] [] :=
  ((reads_expr ts).toReads.andThen (reads_expect (fun _ => rfl) _)).free rfl

theorem reads_returned (ts : List Token) : (returned ts).Reads whole [] [] := by
  cases ts with
  | nil => exact (reads_expr []).toReads.andThen (reads_expect (fun _ => rfl) _)
  | cons t r =>
    rw [returned]
    split
    · next ht => exact reads_bump _ (fun _ => congrArg Kind.isBrace ht) _
    · exact (reads_expr (t :: r)).toReads.andThen (reads_expect (fun _ => rfl) _)

end

theorem exists_parts_blockFrom (t : Token) (r : List Token) : ∃ p, (blockFrom t r).parts = [p] := by
  rw [blockFrom]
  exact ⟨_, rfl⟩

theorem exists_parts_statement (t : Token) (r : List Token) : ∃ p, (statement t r).parts = [p] := by
  rw [statement]
  split
  · exact exists_parts_blockFrom t r
  · repeat' split
    all_goals exact ⟨_, rfl⟩

mutual

theorem reads_block {whole : Bool} (ts : List Token) : (block ts).Reads whole [] [] := by
  cases ts with
  | nil =>
    rw [block]
    exact reads_report _ _
  | cons t r =>
    rw [block]
    split
    · next ht => exact (reads_blockFrom ht r).lift (b := [])
    · exact reads_report _ _
termination_by 8 * ts.length + 1
decreasing_by all_goals grind

theorem reads_blockFrom {whole : Bool} {t : Token} (ht : t.kind = .leftBrace) (r : List Token) :
    (blockFrom t r).Reads whole [] [t] := by
  rw [blockFrom]
  exact (shuts_blockTail r).block false ht
termination_by 8 * r.length + 1
decreasing_by all_goals grind

theorem shuts_blockTail (ts : List Token) : (blockTail ts).Shuts := by
  cases ts with
  | nil =>
    rw [blockTail]
    exact shuts_expect [] nofun
  | cons t r =>
    rw [blockTail]
    split
    · next ht =>
      refine shuts_expect (t :: r) fun u hu => ?_
      cases hu
      exact ht
    · next ht =>
      have first : (statement t r).Reads true [] [t] := reads_statement (fun _ => ht) r
      exact (first.lift (b := [])).shuts (first.fills (exists_parts_statement t r))
        (shuts_blockTail (statement t r).rest)
termination_by 8 * ts.length
decreasing_by all_goals grind

theorem reads_statement {whole : Bool} {t : Token} (hne : whole = true → t.kind ≠ .rightBrace)
    (r : List Token) : (statement t r).Reads whole [] [t] := by
  have compound {k o : Kind} {s : Step r} (h : s.Reads whole [] []) (ht : t.kind = o)
      (ho : o.isBrace = false)
      (hk : ∀ {found}, Stands found k (.token t false :: s.parts) s.rest) :
      ((s.lead false t).node k).Reads whole [] [t] :=
    (h.lead false fun _ => ht ▸ ho).node hk
  rw [statement]
  split
  · next ht => exact reads_blockFrom ht r
  · next hopen =>
    split
    · next ht => exact (reads_idle r).lead false fun _ => congrArg Kind.isBrace ht
    · split
      · next ht => exact compound (reads_returned r) ht rfl (.of_isFree rfl _ _)
      · split
        · next ht =>
          exact compound (((reads_condition r).andThen (reads_body _)).andThen (reads_elseBranch _))
            ht rfl (.of_isFree rfl _ _)
        · split
          · next ht =>
            exact compound ((reads_condition r).andThen (reads_body _)) ht rfl (.of_isFree rfl _ _)
          · split
            · next ht =>
              exact compound ((reads_foreachHead r).andThen (reads_body _)) ht rfl
                (stands_foreach ht r _ _)
            · split
              · next ht =>
                exact compound ((reads_block r).andThen (reads_catches _)) ht rfl
                  (.of_startsWith rfl ht _ _ _)
              · split
                · exact (reads_localVariable (t :: r)).within (a := [t]) _
                · split
                  · exact (reads_expressionStatement (t :: r)).within (a := [t]) _
                  · exact reads_skip _
                      (fun hw => Kind.isBrace_eq_false.mpr ⟨hopen, hne hw⟩) r
termination_by 8 * r.length + 4
decreasing_by all_goals grind

theorem reads_body {whole : Bool} (ts : List Token) : (body ts).Reads whole [] [] := by
  cases ts with
  | nil =>
    rw [body]
    exact reads_report _ _
  | cons t r =>
    rw [body]
    split
    · exact reads_report _ _
    · next ht => exact (reads_statement (fun _ => ht) r).lift (b := [])
termination_by 8 * ts.length
decreasing_by all_goals grind

theorem reads_elseBranch {whole : Bool} (ts : List Token) : (elseBranch ts).Reads whole [] [] := by
  cases ts with
  | nil =>
    rw [elseBranch]
    exact reads_idle _
  | cons t r =>
    rw [elseBranch]
    split
    · next ht => exact ((reads_body r).lead false fun _ => congrArg Kind.isBrace ht).lift (b := [])
    · exact reads_idle _
termination_by 8 * ts.length
decreasing_by all_goals grind

theorem reads_catches {whole : Bool} (ts : List Token) : (catches ts).Reads whole [] [] := by
  cases ts with
  | nil =>
    rw [catches]
    exact reads_report _ _
  | cons t r =>
    rw [catches]
    split
    · next ht => exact (reads_catchesFrom ht r).lift (b := [])
    · exact reads_report _ _
termination_by 8 * ts.length + 1
decreasing_by all_goals grind

theorem reads_catchesFrom {whole : Bool} {t : Token} (ht : t.kind = .catchKw) (r : List Token) :
    (catchesFrom t r).Reads whole [] [t] := by
  rw [catchesFrom]
  have clause : ((catchHead r).andThen (block (catchHead r).rest)).Reads whole [] [] :=
    (reads_catchHead r).andThen (reads_block _)
  exact (clause.opened (k := .catchClause) false ht rfl fun _ => rfl).andThen (reads_moreCatches _)
termination_by 8 * r.length + 3
decreasing_by all_goals grind

theorem reads_moreCatches {whole : Bool} (ts : List Token) : (moreCatches ts).Reads whole [] [] := by
  cases ts with
  | nil =>
    rw [moreCatches]
    exact reads_idle _
  | cons t r =>
    rw [moreCatches]
    split
    · next ht => exact (reads_catchesFrom ht r).lift (b := [])
    · exact reads_idle _
termination_by 8 * ts.length
decreasing_by all_goals grind

end

end JavaSyntax.Grammar
