import JavaSyntax.Grammar.Declaration
import JavaSyntax.Recording.Expression

namespace JavaSyntax.Recording

open Grammar Recorder

def annotationName (depth : Nat) : Recording Unit := do
  if ← isAt .ident then qualifiedName depth else report .annotationName

def annotation (depth : Nat) : Recording Unit := do
  assertAt 0 .at
  let m ← start
  bump false
  annotationName depth
  let _ ← complete m .annotationUse

def modifier : Recording Unit := do
  let m ← start
  bump true
  let _ ← complete m .modifier

def modifiers : Nat → Recording Unit
  | 0 => tooDeep
  | depth + 1 => do
    if ← isAtAny modifierKeywords then
      modifier
      modifiers depth
    else if ← isAt .at then
      annotation depth
      modifiers depth

def modifierList (depth : Nat) : Recording Unit := do
  let m ← start
  modifiers depth
  let _ ← complete m .modifierList

def variableName : Recording Unit := do
  if ← isAt .ident then bump true else report .variableName

def variableId : Recording Unit := do
  let m ← start
  variableName
  let _ ← complete m .variableDeclaratorId

def initializer (depth : Nat) : Recording Unit := do
  if ← eat .eq then let _ ← expr depth

def declarator (depth : Nat) : Recording Unit := do
  let m ← start
  variableId
  initializer depth
  let _ ← complete m .variableDeclarator

def declarators : Nat → Recording Unit
  | 0 => tooDeep
  | depth + 1 => do
    declarator depth
    if ← eat .comma then declarators depth

def condition (depth : Nat) : Recording Unit := do
  expect .leftParen
  let _ ← expr depth
  expect .rightParen

/-- What stands between `for` and the body. -/
def foreachHead (depth : Nat) : Recording Unit := do
  expect .leftParen
  let element ← start
  modifierList depth
  let _ ← type false depth
  let named ← start
  variableId
  let _ ← complete named .variableDeclarator
  let _ ← complete element .localVariableDeclaration
  expect .colon
  let _ ← expr depth
  expect .rightParen

/-- What stands between `catch` and its block. -/
def catchHead (depth : Nat) : Recording Unit := do
  expect .leftParen
  let parameter ← start
  modifierList depth
  let _ ← type false depth
  variableId
  let _ ← complete parameter .catchParameter
  expect .rightParen

def atLocalVariable (depth : Nat) : Recording Bool := do
  let next ← kindAt 0
  if startsModifier next || primitiveKeywords.contains next then return true
  let some n ← skipType 0 depth | return false
  return (← kindAt n) == .ident

def localVariable (depth : Nat) : Recording Unit := do
  let m ← start
  modifierList depth
  let _ ← type false depth
  declarators depth
  expect .semicolon
  let _ ← complete m .localVariableDeclaration

def expressionStatement (depth : Nat) : Recording Unit := do
  let m ← start
  let _ ← expr depth
  expect .semicolon
  let _ ← complete m .expressionStatement

/-- What stands between `return` and the `;`. -/
def returned (depth : Nat) : Recording Unit := do
  unless ← isAt .semicolon do let _ ← expr depth

def returnStatement (depth : Nat) : Recording Unit := do
  let m ← start
  bump false
  returned depth
  expect .semicolon
  let _ ← complete m .returnStatement

def expectCatch : Recording Unit := do
  unless ← isAt .catchKw do report .catchClause

mutual

def block : Nat → Recording Unit
  | 0 => tooDeep
  | depth + 1 => do
    if ← isAt .leftBrace then
      let m ← start
      bump false
      statements depth
      expect .rightBrace
      let _ ← complete m .block
    else report .block

def statements : Nat → Recording Unit
  | 0 => tooDeep
  | depth + 1 => do
    if !(← isAt .rightBrace) && !(← isAt .eof) then
      statement depth
      statements depth

def statement : Nat → Recording Unit
  | 0 => tooDeep
  | depth + 1 => do
    match ← kindAt 0 with
    | .leftBrace => block depth
    | .semicolon => bump false
    | .returnKw => returnStatement depth
    | .ifKw => ifStatement depth
    | .whileKw => whileStatement depth
    | .forKw => foreachStatement depth
    | .tryKw => tryStatement depth
    | .rightBrace => report .statement
    | .eof => report .statement
    | _ =>
      if ← atLocalVariable depth then localVariable depth
      else if ← isAtAny expressionFirst then expressionStatement depth
      else skip .statement

/-- The body of a compound statement, which must not take the `}` around it. -/
def body : Nat → Recording Unit
  | 0 => tooDeep
  | depth + 1 => do
    if (← isAt .rightBrace) || (← isAt .eof) then report .statement else statement depth

def ifStatement : Nat → Recording Unit
  | 0 => tooDeep
  | depth + 1 => do
    let m ← start
    bump false
    condition depth
    body depth
    elseBranch depth
    let _ ← complete m .ifStatement

def elseBranch : Nat → Recording Unit
  | 0 => tooDeep
  | depth + 1 => do
    if ← eat .elseKw then body depth

def whileStatement : Nat → Recording Unit
  | 0 => tooDeep
  | depth + 1 => do
    let m ← start
    bump false
    condition depth
    body depth
    let _ ← complete m .whileStatement

def foreachStatement : Nat → Recording Unit
  | 0 => tooDeep
  | depth + 1 => do
    assertAt 0 .forKw
    let m ← start
    bump false
    foreachHead depth
    body depth
    let _ ← complete m .foreachStatement

def tryStatement : Nat → Recording Unit
  | 0 => tooDeep
  | depth + 1 => do
    assertAt 0 .tryKw
    let m ← start
    bump false
    block depth
    expectCatch
    catches depth
    let _ ← complete m .tryStatement

def catches : Nat → Recording Unit
  | 0 => tooDeep
  | depth + 1 => do
    if ← isAt .catchKw then
      catchClause depth
      catches depth

def catchClause : Nat → Recording Unit
  | 0 => tooDeep
  | depth + 1 => do
    let m ← start
    bump false
    catchHead depth
    block depth
    let _ ← complete m .catchClause

end

def parameter (depth : Nat) : Recording Unit := do
  let m ← start
  modifierList depth
  let _ ← type true depth
  variableId
  let _ ← complete m .formalParameter

/-- Parameters up to the `)`, or to a token that gives the list up. -/
def parameters : Nat → Recording Unit
  | 0 => tooDeep
  | depth + 1 => do
    if !(← isAt .rightParen) && !(← isAt .eof) then
      unless ← isAtAny parameterRecovery do
        if startsParameter (← kindAt 0) then
          parameter depth
          if ← eat .comma then parameters depth
        else
          skip .parameter
          parameters depth

def formalParameters (depth : Nat) : Recording Unit := do
  assertAt 0 .leftParen
  let m ← start
  bump false
  parameters depth
  expect .rightParen
  let _ ← complete m .formalParameters

def resultType (depth : Nat) : Recording Unit := do
  if ← isAt .voidKw then
    let m ← start
    bump true
    let _ ← complete m .voidType
  else let _ ← type false depth

def methodBody (depth : Nat) : Recording Unit := do
  if ← isAt .leftBrace then block depth else expect .semicolon

/-- A method from its name on. -/
def method (depth : Nat) : Recording Unit := do
  bump true
  formalParameters depth
  methodBody depth

/-- A field from its first name on. -/
def field (depth : Nat) : Recording Unit := do
  declarators depth
  expect .semicolon

def declaredMember (depth : Nat) : Recording Unit := do
  let m ← start
  modifierList depth
  resultType depth
  if (← isAt .ident) && (← kindAt 1) == .leftParen then
    method depth
    let _ ← complete m .methodDeclaration
  else
    field depth
    let _ ← complete m .fieldDeclaration

def member (depth : Nat) : Recording Unit := do
  unless ← eat .semicolon do
    if startsMember (← kindAt 0) then declaredMember depth else skip .member

def members : Nat → Recording Unit
  | 0 => tooDeep
  | depth + 1 => do
    if !(← isAt .rightBrace) && !(← isAt .eof) then
      member depth
      members depth

def classBody (depth : Nat) : Recording Unit := do
  assertAt 0 .leftBrace
  let m ← start
  bump false
  members depth
  expect .rightBrace
  let _ ← complete m .classBody

def className : Recording Unit := do
  if ← isAt .ident then bump true else report .className

def declaredBody (depth : Nat) : Recording Unit := do
  if ← isAt .leftBrace then classBody depth else report .classBody

def classDeclaration (depth : Nat) : Recording Unit := do
  let m ← start
  modifierList depth
  expect .classKw
  className
  declaredBody depth
  let _ ← complete m .classDeclaration

def declaration (depth : Nat) : Recording Unit := do
  if ← isAtAny classStart then classDeclaration depth else skip .classDeclaration

def classDeclarations : Nat → Recording Unit
  | 0 => tooDeep
  | depth + 1 => do
    unless ← isAt .eof do
      declaration depth
      classDeclarations depth

def compilationUnit (depth : Nat) : Recording Unit := do
  let m ← start
  classDeclarations depth
  let _ ← complete m .compilationUnit

def unexpectedRest : Nat → Recording Unit
  | 0 => tooDeep
  | depth + 1 => do
    unless ← isAt .eof do
      skip .endOfExpression
      unexpectedRest depth

def loneExpression (depth : Nat) : Recording Unit := do
  let m ← start
  let _ ← expr depth
  unexpectedRest depth
  let _ ← complete m .expressionStatement

/-- The record that a rule makes of a text. -/
def record (rule : Recording Unit) (text : String) : Option (Except Fault Recorder) :=
  match Recorder.ofText text with
  | .error fault => some (.error fault)
  | .ok r => (rule.run r).run.map (·.map Prod.snd)

end JavaSyntax.Recording
