import JavaSyntax.Recording

namespace JavaSyntax.Recording

open Grammar

/-- The segments of a dotted name after the first, into the image of the open node. -/
def segments : Nat → Recording Unit
  | 0 => tooDeep
  | depth + 1 => do
    if (← kindAt 0) == .dot && (← kindAt 1) == .ident then
      bump true
      bump true
      segments depth

def qualifiedName (depth : Nat) : Recording Unit := do
  assertAt 0 .ident
  bump true
  segments depth

/-- Goes past the segments of a dotted name. -/
def skipSegments (n : Nat) : Nat → Recording Nat
  | 0 => tooDeep
  | depth + 1 => do
    if (← kindAt n) == .dot && (← kindAt (n + 1)) == .ident then skipSegments (n + 2) depth
    else return n

def skipDimensions (n : Nat) : Nat → Recording Nat
  | 0 => tooDeep
  | depth + 1 => do
    if (← kindAt n) == .leftBracket && (← kindAt (n + 1)) == .rightBracket then skipDimensions (n + 2) depth
    else return n

mutual

/-- The position right after a type that starts this far ahead, if one is there. -/
def skipType (n : Nat) : Nat → Recording (Option Nat)
  | 0 => tooDeep
  | depth + 1 => do
    let first ← kindAt n
    if primitiveKeywords.contains first then return some (← skipDimensions (n + 1) depth)
    if first != .ident then return none
    let some n ← skipTypeArguments? (← skipSegments (n + 1) depth) depth | return none
    return some (← skipDimensions n depth)

def skipTypeArguments? (n : Nat) : Nat → Recording (Option Nat)
  | 0 => tooDeep
  | depth + 1 => do
    if (← kindAt n) == .lt then skipTypeArguments n depth else return some n

def skipTypeArguments (n : Nat) : Nat → Recording (Option Nat)
  | 0 => tooDeep
  | depth + 1 => do
    assertAt n .lt
    if (← kindAt (n + 1)) == .gt then return some (n + 2)
    skipArguments (n + 1) depth

def skipArguments (n : Nat) : Nat → Recording (Option Nat)
  | 0 => tooDeep
  | depth + 1 => do
    let some n ← skipType n depth | return none
    match ← kindAt n with
    | .comma => skipArguments (n + 1) depth
    | .gt => return some (n + 1)
    | _ => return none

end

/-- A type that ends with the first of these is directly followed by `::` or `.class`, and can be nothing else. -/
def isQualifier (last next behind : Kind) : Bool :=
  match last, next with
  | .gt, .colonColon => true
  | .rightBracket, .colonColon => true
  | .rightBracket, .dot => behind == .classKw
  | _, _ => false

def atExplicitTypeQualifier (depth : Nat) : Recording Bool := do
  let second ← kindAt 1
  unless second == .lt || second == .leftBracket || second == .dot do return false
  let some n ← skipType 0 depth | return false
  return isQualifier (← kindAt (n - 1)) (← kindAt n) (← kindAt (n + 1))

def atDimension : Recording Bool := return (← kindAt 0) == .leftBracket && (← kindAt 1) == .rightBracket

def dimensions : Nat → Recording Unit
  | 0 => tooDeep
  | depth + 1 => do
    if ← atDimension then
      let dim ← start
      bump true
      bump true
      let _ ← complete dim .arrayTypeDim
      dimensions depth

def ellipsis (varargs : Bool) : Recording Unit := do
  if varargs && (← isAt .ellipsis) then
    let dim ← start
    bump true
    let _ ← complete dim .arrayTypeDim

/-- An element type becomes an array type when dimensions follow. -/
def withDimensions (varargs : Bool) (depth : Nat) (element : CompletedMarker) : Recording CompletedMarker := do
  unless (← atDimension) || (varargs && (← isAt .ellipsis)) do return element
  let array ← precede element
  let dims ← start
  dimensions depth
  ellipsis varargs
  let _ ← complete dims .arrayDimensions
  complete array .arrayType

def primitiveType : Recording CompletedMarker := do
  let m ← start
  bump true
  complete m .primitiveType

/-- Further segments of a name. A segment in front of `(` is left for a call. -/
def nameSegments : Nat → Recording Unit
  | 0 => tooDeep
  | depth + 1 => do
    if (← kindAt 0) == .dot && (← kindAt 1) == .ident && (← kindAt 2) != .leftParen then
      bump true
      bump true
      nameSegments depth

def ambiguousName (depth : Nat) : Recording CompletedMarker := do
  assertAt 0 .ident
  let m ← start
  bump true
  nameSegments depth
  complete m .ambiguousName

/-- A keyword that no point can come before is still taken with it. -/
def danglingKeyword : Recording Unit := do
  let next ← kindAt 0
  if next == .classKw || next == .thisKw then bump false

def danglingPoint : Recording Unit := do
  let m ← start
  report .memberName
  bump false
  danglingKeyword
  let _ ← complete m .error

def referenceName : Recording Unit := do
  if (← isAt .ident) || (← isAt .newKw) then bump true
  else report .methodName

/-- Lists in brackets, with commas between the elements. -/
inductive Listing where
  | arguments
  | typeArguments

namespace Listing

def opening : Listing → Kind
  | .arguments => .leftParen
  | .typeArguments => .lt

def closing : Listing → Kind
  | .arguments => .rightParen
  | .typeArguments => .gt

end Listing

def afterPrimitive : Recording Unit := do
  unless (← isAt .colonColon) || (← isAt .dot) && (← kindAt 1) == .classKw do report .afterPrimitive

def literal : Recording CompletedMarker := do
  let m ← start
  bump true
  complete m .literal

def receiver : Recording CompletedMarker := do
  let m ← start
  bump false
  complete m .thisExpression

mutual

def type (varargs : Bool) : Nat → Recording (Option CompletedMarker)
  | 0 => tooDeep
  | depth + 1 => do
    if ← isAtAny primitiveKeywords then return some (← withDimensions varargs depth (← primitiveType))
    else if ← isAt .ident then return some (← withDimensions varargs depth (← classType depth))
    else
      report .type
      return none

def classType : Nat → Recording CompletedMarker
  | 0 => tooDeep
  | depth + 1 => do
    let m ← start
    qualifiedName depth
    typeArguments? depth
    complete m .classType

def typeArguments? : Nat → Recording Unit
  | 0 => tooDeep
  | depth + 1 => do
    if ← isAt .lt then typeArguments depth

def typeArguments : Nat → Recording Unit
  | 0 => tooDeep
  | depth + 1 => do
    let m ← start
    delimited .typeArguments depth
    let _ ← complete m .typeArguments

def argumentList : Nat → Recording Unit
  | 0 => tooDeep
  | depth + 1 => do
    let m ← start
    delimited .arguments depth
    let _ ← complete m .argumentList

def delimited (list : Listing) : Nat → Recording Unit
  | 0 => tooDeep
  | depth + 1 => do
    assertAt 0 list.opening
    bump false
    elements list depth
    expect list.closing

/-- Elements up to the closing bracket, or to the first that makes no progress or has no comma after it. -/
def elements (list : Listing) : Nat → Recording Unit
  | 0 => tooDeep
  | depth + 1 => do
    if !(← isAt list.closing) && !(← isAt .eof) then
      if ← element list depth then
        if ← eat .comma then elements list depth

def element : Listing → Nat → Recording Bool
  | _, 0 => tooDeep
  | .arguments, depth + 1 => return (← expr depth).isSome
  | .typeArguments, depth + 1 => return (← type false depth).isSome

def expr : Nat → Recording (Option CompletedMarker)
  | 0 => tooDeep
  | depth + 1 => do
    let some target ← binary 1 depth | return none
    return some (← assignment depth target)

def assignment : Nat → CompletedMarker → Recording CompletedMarker
  | 0, _ => tooDeep
  | depth + 1, target => do
    if isAssignment (← kindAt 0) then
      let m ← precede target
      bump true
      let _ ← expr depth
      complete m .assignmentExpression
    else return target

def binary (weakest : Nat) : Nat → Recording (Option CompletedMarker)
  | 0 => tooDeep
  | depth + 1 => do
    let some left ← unary depth | return none
    return some (← binaryTail weakest depth left)

def binaryTail (weakest : Nat) : Nat → CompletedMarker → Recording CompletedMarker
  | 0, _ => tooDeep
  | depth + 1, left => do
    match precedence? (← kindAt 0) with
    | none => return left
    | some strength =>
      if strength < weakest then return left
      else
        let m ← precede left
        bump true
        let _ ← binary (strength + 1) depth
        binaryTail weakest depth (← complete m .infixExpression)

def unary : Nat → Recording (Option CompletedMarker)
  | 0 => tooDeep
  | depth + 1 => do
    if (← isAt .bang) || (← isAt .minus) then
      let m ← start
      bump true
      let _ ← unary depth
      return some (← complete m .unaryExpression)
    else suffixed depth

def suffixed : Nat → Recording (Option CompletedMarker)
  | 0 => tooDeep
  | depth + 1 => do
    let some operand ← primary depth | return none
    return some (← suffixes depth operand)

/-- The selections, calls and method references after an operand. -/
def suffixes : Nat → CompletedMarker → Recording CompletedMarker
  | 0, _ => tooDeep
  | depth + 1, operand => do
    let first ← kindAt 0
    let second ← kindAt 1
    if first == .dot && second == .ident then
      if (← kindAt 2) == .leftParen then
        let m ← precede operand
        bump false
        bump true
        argumentList depth
        suffixes depth (← complete m .methodCall)
      else
        let m ← precede operand
        bump false
        bump true
        suffixes depth (← complete m .fieldAccess)
    else if first == .dot && second == .classKw && (operand.kind == .ambiguousName || operand.kind.isType) then
      let m ← precede operand
      bump false
      bump false
      suffixes depth (← complete m .classLiteral)
    else if first == .dot && second == .thisKw && operand.kind == .ambiguousName then
      let m ← precede operand
      bump false
      bump false
      suffixes depth (← complete m .thisExpression)
    else if first == .colonColon then
      suffixes depth (← methodReference depth operand)
    else if first == .dot then
      danglingPoint
      return operand
    else return operand

def methodReference : Nat → CompletedMarker → Recording CompletedMarker
  | 0, _ => tooDeep
  | depth + 1, operand => do
    assertAt 0 .colonColon
    let m ← precede operand
    bump false
    typeArguments? depth
    referenceName
    complete m .methodReference

def primary : Nat → Recording (Option CompletedMarker)
  | 0 => tooDeep
  | depth + 1 => do
    let kind ← kindAt 0
    if literalTokens.contains kind then return some (← literal)
    else if kind == .ident then
      if (← kindAt 1) == .leftParen then return some (← call depth)
      else if ← atExplicitTypeQualifier depth then type false depth
      else return some (← ambiguousName depth)
    else if primitiveKeywords.contains kind then primitiveOperand depth
    else if kind == .thisKw then return some (← receiver)
    else if kind == .leftParen then return some (← parenthesized depth)
    else if kind == .newKw then return some (← construction depth)
    else if expressionRecovery.contains kind then
      report .expression
      return none
    else
      skip .expression
      return none

def call : Nat → Recording CompletedMarker
  | 0 => tooDeep
  | depth + 1 => do
    let m ← start
    bump true
    argumentList depth
    complete m .methodCall

/-- A primitive type in expression position, which only `::` or `.class` makes meaningful. -/
def primitiveOperand : Nat → Recording (Option CompletedMarker)
  | 0 => tooDeep
  | depth + 1 => do
    let operand ← type false depth
    afterPrimitive
    return operand

def parenthesized : Nat → Recording CompletedMarker
  | 0 => tooDeep
  | depth + 1 => do
    let m ← start
    bump false
    let _ ← expr depth
    expect .rightParen
    complete m .parenthesizedExpression

def construction : Nat → Recording CompletedMarker
  | 0 => tooDeep
  | depth + 1 => do
    let m ← start
    bump false
    constructedClass depth
    constructorArguments depth
    complete m .constructorCall

def constructedClass : Nat → Recording Unit
  | 0 => tooDeep
  | depth + 1 => do
    if ← isAt .ident then let _ ← classType depth else report .className

def constructorArguments : Nat → Recording Unit
  | 0 => tooDeep
  | depth + 1 => do
    if ← isAt .leftParen then argumentList depth else report (.token .leftParen)

end

end JavaSyntax.Recording
