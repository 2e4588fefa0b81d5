import JavaSyntax.Grammar.Expression

namespace JavaSyntax.Grammar

open Step

/-- The value a variable starts with, if one is given. -/
def initializer : (ts : List Token) → Step ts
  | [] => idle []
  | t :: r =>
    if t.kind = .eq then ((expr r).toStep.lead false t).lift t else idle (t :: r)

/-- One variable of a declaration. -/
def declarator (ts : List Token) : Step ts :=
  let id := variableId ts
  (id.andThen (initializer id.rest)).node .variableDeclarator

mutual

/-- One variable or more, with commas between them. -/
def declarators (ts : List Token) : Step ts :=
  let first := declarator ts
  first.andThen (moreDeclarators first.rest)
termination_by 2 * ts.length + 1
decreasing_by all_goals grind

def moreDeclarators (ts : List Token) : Step ts :=
  match ts with
  | [] => idle []
  | t :: r =>
    if t.kind = .comma then ((declarators r).lead false t).lift t else idle (t :: r)
termination_by 2 * ts.length
decreasing_by all_goals grind

end

/-- The condition of `if` and `while`. -/
def condition (ts : List Token) : Step ts :=
  let opened := expect .leftParen ts
  let tested := opened.andThen (expr opened.rest).toStep
  tested.andThen (expect .rightParen tested.rest)

/-- What stands between `for` and the body. Only the enhanced form, `for (T x : xs)`, is known. -/
def foreachHead (ts : List Token) : Step ts :=
  let opened := expect .leftParen ts
  let modifiers := modifierList opened.rest
  let typed := modifiers.andThen (type false modifiers.rest).toStep
  let named := typed.andThen ((variableId typed.rest).node .variableDeclarator)
  let element := opened.andThen (named.node .localVariableDeclaration)
  let divided := element.andThen (expect .colon element.rest)
  let iterated := divided.andThen (expr divided.rest).toStep
  iterated.andThen (expect .rightParen iterated.rest)

/-- What stands between `catch` and its block. -/
def catchHead (ts : List Token) : Step ts :=
  let opened := expect .leftParen ts
  let modifiers := modifierList opened.rest
  let typed := modifiers.andThen (type false modifiers.rest).toStep
  let named := typed.andThen (variableId typed.rest)
  let parameter := opened.andThen (named.node .catchParameter)
  parameter.andThen (expect .rightParen parameter.rest)

/-- A type with a name after it starts the declaration of a local variable. -/
def atLocalVariable (ts : List Token) : Bool :=
  startsModifier (ahead ts) || primitiveKeywords.contains (ahead ts) ||
    (skipType ts).any fun type => ahead type.rest == .ident

def localVariable (ts : List Token) : Step ts :=
  let modifiers := modifierList ts
  let typed := modifiers.andThen (type false modifiers.rest).toStep
  let declared := typed.andThen (declarators typed.rest)
  (declared.andThen (expect .semicolon declared.rest)).node .localVariableDeclaration

def expressionStatement (ts : List Token) : Step ts :=
  let value := (expr ts).toStep
  (value.andThen (expect .semicolon value.rest)).node .expressionStatement

/-- What follows `return`. -/
def returned : (ts : List Token) → Step ts
  | [] => (expr []).andThen (expect .semicolon _)
  | t :: r =>
    if t.kind = .semicolon then bump false t r
    else (expr (t :: r)).andThen (expect .semicolon _)

theorem startsModifier_or_startsType_of_atLocalVariable {t : Token} {r : List Token}
    (h : atLocalVariable (t :: r)) : startsModifier t.kind ∨ startsType t.kind := by
  simp only [atLocalVariable, ahead, Bool.or_eq_true] at h
  rw [skipType] at h
  simp only [startsType, Bool.or_eq_true, beq_iff_eq]
  grind

theorem length_rest_localVariable_lt {t : Token} {r : List Token} (h : atLocalVariable (t :: r)) :
    (localVariable (t :: r)).rest.length ≤ r.length := by
  have hstart := startsModifier_or_startsType_of_atLocalVariable h
  have htyped : (type false (modifierList (t :: r)).rest).rest.length ≤ r.length :=
    length_rest_after_modifierList_lt (f := fun ts => (type false ts).toStep) fun hm =>
      length_rest_type_lt (by simpa [hm] using hstart)
  unfold localVariable
  grind

theorem length_rest_expressionStatement_lt {t : Token} {r : List Token}
    (h : expressionFirst.contains t.kind) :
    (expressionStatement (t :: r)).rest.length ≤ r.length := by
  have := length_rest_expr_lt (r := r) h
  unfold expressionStatement
  grind

mutual

/-- A block in braces. -/
def block (ts : List Token) : Step ts :=
  match ts with
  | [] => report .block []
  | t :: r =>
    if t.kind = .leftBrace then (blockFrom t r).lift t else report .block (t :: r)
termination_by 8 * ts.length + 1
decreasing_by all_goals grind

/-- A block whose `{` is `t`. -/
def blockFrom (t : Token) (r : List Token) : Step r := ((blockTail r).lead false t).node .block
termination_by 8 * r.length + 1
decreasing_by all_goals grind

/-- The statements after `{` and the closing `}`. -/
def blockTail (ts : List Token) : Step ts :=
  match ts with
  | [] => expect .rightBrace []
  | t :: r =>
    if t.kind = .rightBrace then expect .rightBrace (t :: r)
    else
      let first := statement t r
      (first.andThen (blockTail first.rest)).lift t
termination_by 8 * ts.length
decreasing_by all_goals grind

/-- The statement that starts with `t`. -/
def statement (t : Token) (r : List Token) : Step r :=
  if t.kind = .leftBrace then blockFrom t r
  else if t.kind = .semicolon then lead false t (idle r)
  else if t.kind = .returnKw then ((returned r).lead false t).node .returnStatement
  else if t.kind = .ifKw then
    let tested := condition r
    let chosen := tested.andThen (body tested.rest)
    ((chosen.andThen (elseBranch chosen.rest)).lead false t).node .ifStatement
  else if t.kind = .whileKw then
    let tested := condition r
    ((tested.andThen (body tested.rest)).lead false t).node .whileStatement
  else if t.kind = .forKw then
    let head := foreachHead r
    ((head.andThen (body head.rest)).lead false t).node .foreachStatement
  else if t.kind = .tryKw then
    let tried := block r
    ((tried.andThen (catches tried.rest)).lead false t).node .tryStatement
  else if h : atLocalVariable (t :: r) then
    (localVariable (t :: r)).within r (length_rest_localVariable_lt h)
  else if h : expressionFirst.contains t.kind then
    (expressionStatement (t :: r)).within r (length_rest_expressionStatement_lt h)
  else skip .statement t r
termination_by 8 * r.length + 4
decreasing_by all_goals grind

/-- The body of a compound statement, which must not take the `}` around it. -/
def body (ts : List Token) : Step ts :=
  match ts with
  | [] => report .statement []
  | t :: r =>
    if t.kind = .rightBrace then report .statement (t :: r) else (statement t r).lift t
termination_by 8 * ts.length
decreasing_by all_goals grind

def elseBranch (ts : List Token) : Step ts :=
  match ts with
  | [] => idle []
  | t :: r => if t.kind = .elseKw then ((body r).lead false t).lift t else idle (t :: r)
termination_by 8 * ts.length
decreasing_by all_goals grind

/-- The catch clauses of a `try`, of which there must be one. -/
def catches (ts : List Token) : Step ts :=
  match ts with
  | [] => report .catchClause []
  | t :: r =>
    if t.kind = .catchKw then (catchesFrom t r).lift t else report .catchClause (t :: r)
termination_by 8 * ts.length + 1
decreasing_by all_goals grind

/-- The catch clauses from the one whose `catch` is `t`. -/
def catchesFrom (t : Token) (r : List Token) : Step r :=
  let head := catchHead r
  let clause := ((head.andThen (block head.rest)).lead false t).node .catchClause
  clause.andThen (moreCatches clause.rest)
termination_by 8 * r.length + 3
decreasing_by all_goals grind

def moreCatches (ts : List Token) : Step ts :=
  match ts with
  | [] => idle []
  | t :: r => if t.kind = .catchKw then (catchesFrom t r).lift t else idle (t :: r)
termination_by 8 * ts.length
decreasing_by all_goals grind

end

end JavaSyntax.Grammar
