import JavaSyntax.Grammar.TypeUse

namespace JavaSyntax.Grammar

open Step

def literalTokens : KindSet :=
  .ofList [.intLiteral, .floatLiteral, .stringLiteral, .charLiteral, .trueKw, .falseKw, .nullKw]

/-- The tokens an expression may start with. -/
def expressionFirst : KindSet :=
  (literalTokens.union primitiveKeywords).union
    (.ofList [.ident, .thisKw, .newKw, .leftParen, .bang, .minus])

/-- Tokens that no expression starts with and that are left for the rule around it. -/
def expressionRecovery : KindSet :=
  .ofList [.semicolon, .comma, .rightParen, .rightBrace, .rightBracket, .leftBrace, .eof]

/-- The binding strength of a binary operator, from 1 for `||` to 6 for `*`. -/
def precedence? : Kind → Option Nat
  | .pipePipe => some 1
  | .ampAmp => some 2
  | .eqEq | .bangEq => some 3
  | .lt | .gt | .ltEq | .gtEq => some 4
  | .plus | .minus => some 5
  | .star | .slash | .percent => some 6
  | _ => none

def isAssignment (k : Kind) : Bool := k == .eq || k == .plusEq || k == .minusEq

/-- Further segments of a name. A segment in front of `(` is left for a call. -/
def nameSegments : (ts : List Token) → Step ts
  | d :: n :: r =>
    if d.kind = .dot ∧ n.kind = .ident ∧ ahead r ≠ .leftParen then
      ((nameSegments r).lead true n).lead true d |>.lift n |>.lift d
    else idle (d :: n :: r)
  | ts => idle ts

/-- A name whose meaning only its surroundings tell: a package, a type or a value. -/
def ambiguousName (t : Token) (r : List Token) : Operand r :=
  .found ((nameSegments r).lead true t) .ambiguousName

/-- What `::` refers to, by name or as a constructor. -/
def referenceName : (ts : List Token) → Step ts
  | [] => report .methodName []
  | t :: r =>
    if t.kind = .ident ∨ t.kind = .newKw then bump true t r else report .methodName (t :: r)

/-- A point that no member name follows ends the operand before it. -/
def danglingPoint (lead : Kind) (operand : List Piece) (d : Token) (r : List Token) : Operand r :=
  let tail : Step r :=
    match r with
    | [] => idle []
    | t :: s => if t.kind = .classKw ∨ t.kind = .thisKw then bump false t s else idle (t :: s)
  { tail with
    parts := operand ++ [.node .error (.token d false :: tail.parts)]
    problems := [⟨.memberName, some d⟩]
    lead := some lead }

@[grind .] theorem length_rest_danglingPoint (k : Kind) (ps : List Piece) (d : Token)
    (r : List Token) : (danglingPoint k ps d r).rest.length ≤ r.length :=
  (danglingPoint k ps d r).length_rest_le

/-- The class named after `new`. -/
def constructedClass : (ts : List Token) → Step ts
  | [] => report .className []
  | t :: r => if t.kind = .ident then (classType t r).toStep.lift t else report .className (t :: r)

/-- A primitive type in expression position, which only `::` or `.class` makes meaningful. -/
def primitiveOperand (ts : List Token) : Operand ts :=
  let t := type false ts
  if ahead t.rest = .colonColon ∨ (ahead t.rest = .dot ∧ ahead (t.rest.drop 1) = .classKw) then t
  else { t with problems := t.problems ++ [⟨.afterPrimitive, t.rest.head?⟩] }

theorem rest_primitiveOperand (ts : List Token) :
    (primitiveOperand ts).rest = (type false ts).rest := by
  simp only [primitiveOperand]
  split <;> rfl

mutual

/-- An expression. Assignments group to the right. -/
def expr (ts : List Token) : Operand ts :=
  let target := binary ts 1
  match target.lead with
  | none => target
  | some k => target.resume (assignment k target.parts target.rest)
termination_by 16 * ts.length + 6
decreasing_by all_goals grind

def assignment (lead : Kind) (target : List Piece) (ts : List Token) : Operand ts :=
  match ts with
  | [] => .done lead target []
  | t :: r =>
    if isAssignment t.kind then
      .around target (((expr r).toStep.lead true t).lift t) .assignmentExpression
    else .done lead target (t :: r)
termination_by 16 * ts.length
decreasing_by all_goals grind

/-- An operand and all binary operators after it that bind at least as strongly as `weakest`. -/
def binary (ts : List Token) (weakest : Nat) : Operand ts :=
  let left := unary ts
  match left.lead with
  | none => left
  | some k => left.resume (binaryTail k left.parts left.rest weakest)
termination_by 16 * ts.length + 5
decreasing_by all_goals grind

def binaryTail (lead : Kind) (left : List Piece) (ts : List Token) (weakest : Nat) : Operand ts :=
  match ts with
  | [] => .done lead left []
  | t :: r =>
    match precedence? t.kind with
    | none => .done lead left (t :: r)
    | some strength =>
      if strength < weakest then .done lead left (t :: r)
      else
        let right := binary r (strength + 1)
        let infixed := Operand.around left (right.toStep.lead true t) .infixExpression
        (infixed.resume (binaryTail .infixExpression infixed.parts infixed.rest weakest)).lift t
termination_by 16 * ts.length
decreasing_by all_goals grind

def unary (ts : List Token) : Operand ts :=
  match ts with
  | [] => suffixed []
  | t :: r =>
    if t.kind = .bang ∨ t.kind = .minus then
      .found (((unary r).toStep.lead true t).lift t) .unaryExpression
    else suffixed (t :: r)
termination_by 16 * ts.length + 4
decreasing_by all_goals grind

/-- A primary operand with everything that `.` and `::` attach to it. -/
def suffixed (ts : List Token) : Operand ts :=
  let operand := primary ts
  match operand.lead with
  | none => operand
  | some k => operand.resume (suffixedTail k operand.parts operand.rest)
termination_by 16 * ts.length + 3
decreasing_by all_goals grind

/-- The selections, calls and method references after an operand. -/
def suffixedTail (lead : Kind) (operand : List Piece) (ts : List Token) : Operand ts :=
  match ts with
  | [] => .done lead operand []
  | t :: r =>
    if t.kind = .dot then (selection lead operand t r).lift t
    else if t.kind = .colonColon then
      let arguments := typeArguments? r
      let reference := Operand.around operand
        ((arguments.andThen (referenceName arguments.rest)).lead false t) .methodReference
      (reference.resume (suffixedTail .methodReference reference.parts reference.rest)).lift t
    else .done lead operand (t :: r)
termination_by 16 * ts.length
decreasing_by all_goals grind

/-- What follows the point `d` after an operand. -/
def selection (lead : Kind) (operand : List Piece) (d : Token) (r : List Token) : Operand r :=
  match r with
  | [] => danglingPoint lead operand d []
  | n :: s =>
    if n.kind = .ident then
      if ahead s = .leftParen then
        let call := Operand.around operand (((argumentList s).lead true n).lead false d) .methodCall
        (call.resume (suffixedTail .methodCall call.parts call.rest)).lift n
      else
        let access := Operand.around operand (((idle s).lead true n).lead false d) .fieldAccess
        (access.resume (suffixedTail .fieldAccess access.parts access.rest)).lift n
    else if n.kind = .classKw ∧ (lead = .ambiguousName ∨ lead.isType) then
      let literal := Operand.around operand (((idle s).lead false n).lead false d) .classLiteral
      (literal.resume (suffixedTail .classLiteral literal.parts literal.rest)).lift n
    else if n.kind = .thisKw ∧ lead = .ambiguousName then
      let receiver := Operand.around operand (((idle s).lead false n).lead false d) .thisExpression
      (receiver.resume (suffixedTail .thisExpression receiver.parts receiver.rest)).lift n
    else danglingPoint lead operand d (n :: s)
termination_by 16 * r.length + 8
decreasing_by all_goals grind

def primary (ts : List Token) : Operand ts :=
  match ts with
  | [] => .missing (report .expression [])
  | t :: r =>
    if literalTokens.contains t.kind then .found (bump true t r) .literal
    else if t.kind = .ident then
      if ahead r = .leftParen then .found (((argumentList r).lead true t).lift t) .methodCall
      else if atExplicitTypeQualifier (t :: r) then type false (t :: r)
      else (ambiguousName t r).lift t
    else if primitiveKeywords.contains t.kind then primitiveOperand (t :: r)
    else if t.kind = .thisKw then .found (bump false t r) .thisExpression
    else if t.kind = .leftParen then
      let inner := (expr r).toStep
      .found (((inner.andThen (expect .rightParen inner.rest)).lead false t).lift t)
        .parenthesizedExpression
    else if t.kind = .newKw then
      let made := constructedClass r
      .found (((made.andThen (argumentList made.rest)).lead false t).lift t) .constructorCall
    else if expressionRecovery.contains t.kind then .missing (report .expression (t :: r))
    else .missing ((skip .expression t r).lift t)
termination_by 16 * ts.length + 2
decreasing_by all_goals grind

/-- The arguments of a call in parentheses. -/
def argumentList (ts : List Token) : Step ts :=
  match ts with
  | [] => report (.token .leftParen) []
  | t :: r =>
    if t.kind = .leftParen then ((argumentsTail r).lead false t).node .argumentList |>.lift t
    else report (.token .leftParen) (t :: r)
termination_by 16 * ts.length
decreasing_by all_goals grind

/-- The arguments after `(` and the closing `)`. -/
def argumentsTail (ts : List Token) : Step ts :=
  match ts with
  | [] => expect .rightParen []
  | t :: r =>
    if t.kind = .rightParen then expect .rightParen (t :: r)
    else
      let argument := expr (t :: r)
      match argument.lead with
      | none => argument.andThen (expect .rightParen argument.rest)
      | some _ => argument.andThen (argumentsMore argument.rest)
termination_by 16 * ts.length + 8
decreasing_by all_goals grind

def argumentsMore (ts : List Token) : Step ts :=
  match ts with
  | [] => expect .rightParen []
  | t :: r =>
    if t.kind = .comma then ((argumentsTail r).lead false t).lift t
    else expect .rightParen (t :: r)
termination_by 16 * ts.length + 7
decreasing_by all_goals grind

end

theorem contains_expressionFirst (k : Kind) :
    expressionFirst.contains k = (literalTokens.contains k || primitiveKeywords.contains k ||
      [Kind.ident, .thisKw, .newKw, .leftParen, .bang, .minus].contains k) := by
  cases k <;> decide +kernel

/-- A token that starts an expression is read by it. -/
theorem length_rest_primary_lt {t : Token} {r : List Token} (h : expressionFirst.contains t.kind)
    (hb : t.kind ≠ .bang) (hm : t.kind ≠ .minus) : (primary (t :: r)).rest.length ≤ r.length := by
  rw [contains_expressionFirst] at h
  have ht (hs : startsType t.kind) := length_rest_type_lt (v := false) (r := r) hs
  simp only [startsType, Bool.or_eq_true, beq_iff_eq] at ht
  rw [primary]
  split
  · grind
  · split
    · grind
    · grind [rest_primitiveOperand]

theorem length_rest_expr_lt {t : Token} {r : List Token} (h : expressionFirst.contains t.kind) :
    (expr (t :: r)).rest.length ≤ r.length := by
  have hu : (unary (t :: r)).rest.length ≤ r.length := by
    rw [unary]
    split
    · grind
    · have := length_rest_primary_lt (r := r) h (by grind) (by grind)
      rw [suffixed]
      split <;> grind
  have hb : (binary (t :: r) 1).rest.length ≤ r.length := by
    rw [binary]
    split <;> grind
  rw [expr]
  split <;> grind

end JavaSyntax.Grammar
