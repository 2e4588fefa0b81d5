import JavaSyntax.Grammar.Statement

namespace JavaSyntax.Grammar

open Step

/-- Tokens at which a broken parameter list is given up. -/
def parameterRecovery : KindSet := .ofList [.leftBrace, .rightBrace, .semicolon]

def classStart : KindSet := modifierKeywords.union (.ofList [.at, .classKw])

/-- A modifier, an annotation or a type starts a parameter. -/
def startsParameter (k : Kind) : Bool := startsModifier k || startsType k

def startsMember (k : Kind) : Bool := startsModifier k || k == .voidKw || startsType k

def parameter (ts : List Token) : Step ts :=
  let modifiers := modifierList ts
  let typed := modifiers.andThen (type true modifiers.rest).toStep
  (typed.andThen (variableId typed.rest)).node .formalParameter

theorem length_rest_modified_lt {t : Token} {r : List Token} (v : Bool)
    (h : startsParameter t.kind) :
    (type v (modifierList (t :: r)).rest).rest.length ≤ r.length :=
  length_rest_after_modifierList_lt (f := fun ts => (type v ts).toStep) fun hm =>
    length_rest_type_lt (by simpa [startsParameter, hm] using h)

theorem length_rest_parameter_lt {t : Token} {r : List Token} (h : startsParameter t.kind) :
    (parameter (t :: r)).rest.length ≤ r.length := by
  have := length_rest_modified_lt (r := r) true h
  unfold parameter
  grind

mutual

/-- The parameters after `(` and the closing `)`. -/
def parametersTail (ts : List Token) : Step ts :=
  match ts with
  | [] => expect .rightParen []
  | t :: r =>
    if t.kind = .rightParen ∨ parameterRecovery.contains t.kind then expect .rightParen (t :: r)
    else if h : startsParameter t.kind then
      let first := (parameter (t :: r)).within r (length_rest_parameter_lt h)
      (first.andThen (parametersMore first.rest)).lift t
    else ((skip .parameter t r).andThen (parametersTail r)).lift t
termination_by 2 * ts.length
decreasing_by all_goals grind

def parametersMore (ts : List Token) : Step ts :=
  match ts with
  | [] => expect .rightParen []
  | t :: r =>
    if t.kind = .comma then ((parametersTail r).lead false t).lift t
    else expect .rightParen (t :: r)
termination_by 2 * ts.length + 1
decreasing_by all_goals grind

end

def methodBody : (ts : List Token) → Step ts
  | [] => expect .semicolon []
  | t :: r => if t.kind = .leftBrace then (blockFrom t r).lift t else expect .semicolon (t :: r)

/-- The result of a method or the type of a field. -/
def resultType : (ts : List Token) → Step ts
  | [] => (type false []).toStep
  | t :: r =>
    if t.kind = .voidKw then (bump true t r).node .voidType else (type false (t :: r)).toStep

/-- What follows the type of a member: a method has `(` after its name. -/
def memberTail (typed : List Piece) : (ts : List Token) → Step ts
  | n :: p :: r =>
    if n.kind = .ident ∧ p.kind = .leftParen then
      let parameters := ((parametersTail r).lead false p).node .formalParameters
      let method := (parameters.andThen (methodBody parameters.rest)).lead true n
      let parts := [.node .methodDeclaration (typed ++ method.parts)]
      { method with parts } |>.lift p |>.lift n
    else field typed (n :: p :: r)
  | ts => field typed ts
where
  field (typed : List Piece) (ts : List Token) : Step ts :=
    let declared := declarators ts
    let closed := declared.andThen (expect .semicolon declared.rest)
    { closed with parts := [.node .fieldDeclaration (typed ++ closed.parts)] }

def declaredMember (ts : List Token) : Step ts :=
  let modifiers := modifierList ts
  let typed := modifiers.andThen (resultType modifiers.rest)
  let tail := memberTail typed.parts typed.rest
  { typed.andThen tail with parts := tail.parts }

theorem length_rest_resultType_lt {t : Token} {r : List Token} (h : startsMember t.kind) :
    (resultType (modifierList (t :: r)).rest).rest.length ≤ r.length := by
  refine length_rest_after_modifierList_lt (f := resultType) fun hm => ?_
  simp only [startsMember, hm, Bool.false_or, Bool.or_eq_true, beq_iff_eq] at h
  have htype := fun h => length_rest_type_lt (v := false) (t := t) (r := r) h
  rw [resultType]
  grind

theorem length_rest_declaredMember_lt {t : Token} {r : List Token} (h : startsMember t.kind) :
    (declaredMember (t :: r)).rest.length ≤ r.length := by
  have := length_rest_resultType_lt (r := r) h
  unfold declaredMember
  grind

/-- A field, a method or a lone `;` that starts with `t`. -/
def member (t : Token) (r : List Token) : Step r :=
  if t.kind = .semicolon then lead false t (idle r)
  else if h : startsMember t.kind then
    (declaredMember (t :: r)).within r (length_rest_declaredMember_lt h)
  else skip .member t r

/-- The members after `{` and the closing `}`. -/
def membersTail (ts : List Token) : Step ts :=
  match ts with
  | [] => expect .rightBrace []
  | t :: r =>
    if t.kind = .rightBrace then expect .rightBrace (t :: r)
    else
      let first := member t r
      (first.andThen (membersTail first.rest)).lift t
termination_by ts.length
decreasing_by all_goals grind

def className : (ts : List Token) → Step ts
  | [] => report .className []
  | t :: r => if t.kind = .ident then bump true t r else report .className (t :: r)

def classBody : (ts : List Token) → Step ts
  | [] => report .classBody []
  | t :: r =>
    if t.kind = .leftBrace then (((membersTail r).lead false t).node .classBody).lift t
    else report .classBody (t :: r)

def classDeclaration (ts : List Token) : Step ts :=
  let modifiers := modifierList ts
  let announced := modifiers.andThen (expect .classKw modifiers.rest)
  let named := announced.andThen (className announced.rest)
  (named.andThen (classBody named.rest)).node .classDeclaration

theorem contains_classStart (k : Kind) :
    classStart.contains k = (startsModifier k || k == .classKw) := by
  cases k <;> decide +kernel

theorem length_rest_classDeclaration_lt {t : Token} {r : List Token}
    (h : classStart.contains t.kind) : (classDeclaration (t :: r)).rest.length ≤ r.length := by
  rw [contains_classStart] at h
  have hkeyword : (expect .classKw (modifierList (t :: r)).rest).rest.length ≤ r.length := by
    refine length_rest_after_modifierList_lt (f := expect .classKw) fun hm => ?_
    simp only [hm, Bool.false_or, beq_iff_eq] at h
    rw [expect]
    grind
  unfold classDeclaration
  grind

/-- Class declarations up to the end of the input. -/
def classDeclarations (ts : List Token) : Step ts :=
  match ts with
  | [] => idle []
  | t :: r =>
    if h : classStart.contains t.kind then
      let first := (classDeclaration (t :: r)).within r (length_rest_classDeclaration_lt h)
      (first.andThen (classDeclarations first.rest)).lift t
    else
      ((skip .classDeclaration t r).andThen (classDeclarations r)).lift t
termination_by ts.length
decreasing_by all_goals grind

/-- A whole file. -/
def compilationUnit (ts : List Token) : Step ts := (classDeclarations ts).node .compilationUnit

/-- Whatever follows a single expression. -/
def unexpectedRest : (ts : List Token) → Step ts
  | [] => idle []
  | t :: r => ((skip .endOfExpression t r).andThen (unexpectedRest r)).lift t

/-- A text that should hold one expression and nothing else. -/
def loneExpression (ts : List Token) : Step ts :=
  let value := (expr ts).toStep
  (value.andThen (unexpectedRest value.rest)).node .expressionStatement

end JavaSyntax.Grammar
