import Mathlib.Computability.Language
import JavaSyntax.Proofs.Grammar.Proper
import JavaSyntax.View.Category

namespace JavaSyntax

open Computability

/-- What a piece is to the node around it. -/
inductive Symbol where
  | token (kind : Kind) (inImage : Bool)
  | node (kind : Kind)
  deriving DecidableEq

namespace Piece

def symbol : Piece → Symbol
  | .token t inImage => .token t.kind inImage
  | .node k _ => .node k

def symbols (ps : List Piece) : List Symbol := ps.map symbol

theorem symbols_append (ps qs : List Piece) :
    symbols (ps ++ qs) = symbols ps ++ symbols qs :=
  List.map_append

end Piece

namespace Content

/-- A token that leaves no trace in the payload. -/
def mark (k : Kind) : Language Symbol := {[.token k false]}

/-- A token that the payload is made of. -/
def word (k : Kind) : Language Symbol := {[.token k true]}

/-- Any tokens that leave no trace in the payload. -/
def marks : Language Symbol := {w | ∀ s ∈ w, ∃ k, s = .token k false}

def wordOf (P : Kind → Bool) : Language Symbol := {w | ∃ k, P k = true ∧ w = [.token k true]}

def one (k : Kind) : Language Symbol := {[.node k]}

def nodeOf (P : Kind → Bool) : Language Symbol := {w | ∃ k, P k = true ∧ w = [.node k]}

/-- A dotted name. -/
def dotted : Language Symbol := word .ident * (word .dot * word .ident)∗

/-- Any number of items with commas between them, and perhaps one more behind the last. -/
def listed (item : Language Symbol) : Language Symbol := (item * mark .comma)∗ * (1 + item)

/-- The kinds of nodes that expressions are made of while they are read. A type is one in front of
`::` and `.class`. -/
def isOperand (k : Kind) : Bool := Category.expr.contains k || k.isType

/-- The operators that stand in front of their operand. -/
def isPrefix (k : Kind) : Bool := k == .bang || k == .minus

section

variable (clean : Bool)

/-- What only a text with errors has. -/
def broken (l : Language Symbol) : Language Symbol := if clean then 0 else l

/-- What only a text with errors can lack. -/
def due (l : Language Symbol) : Language Symbol := l + broken clean 1

/-- Tokens that fit nowhere. -/
def junk : Language Symbol := broken clean (one .error)

/-- The kinds of nodes that operators are put around. -/
def isValue (k : Kind) : Bool := if clean then Category.expr.contains k else isOperand k

/-- An expression or what was taken for one. Behind it can stand a point that leads nowhere. -/
def operand : Language Symbol := nodeOf (isValue clean) * (1 + junk clean)

/-- A place for an expression. -/
def value : Language Symbol := due clean (nodeOf (isValue clean)) * (1 + junk clean)

/-- A place for a type. -/
def typed : Language Symbol := due clean (nodeOf Kind.isType)

def semicolon : Language Symbol := due clean (mark .semicolon)

def statement : Language Symbol :=
  nodeOf Category.statement.contains + mark .semicolon + junk clean

def condition : Language Symbol :=
  due clean (mark .leftParen) * value clean * due clean (mark .rightParen)

def declarators : Language Symbol :=
  one .variableDeclarator * (mark .comma * one .variableDeclarator)∗

/-- What stands behind the `(` of a method. -/
def parameters : Language Symbol :=
  (one .formalParameter * mark .comma + junk clean)∗ * (1 + one .formalParameter) *
    due clean (mark .rightParen)

/-- The type in front of a field or a method. -/
def resultType : Language Symbol := one .voidType + typed clean

end

end Content

open Content in
/-- What stands in a node of each kind. -/
def content (clean : Bool) : Kind → Language Symbol
  | .compilationUnit => (one .classDeclaration + junk clean)∗
  | .classDeclaration =>
    one .modifierList * due clean (mark .classKw) * due clean (word .ident) *
      due clean (one .classBody)
  | .classBody =>
    mark .leftBrace * (nodeOf Category.member.contains + mark .semicolon + junk clean)∗ *
      due clean (mark .rightBrace)
  | .modifierList => (one .modifier + one .annotationUse)∗
  | .modifier => wordOf Grammar.modifierKeywords.contains
  | .annotationUse => mark .at * due clean dotted
  | .fieldDeclaration => one .modifierList * resultType clean * declarators * semicolon clean
  | .methodDeclaration =>
    one .modifierList * resultType clean * word .ident * one .formalParameters *
      (one .block + semicolon clean)
  | .formalParameters => mark .leftParen * parameters clean
  | .formalParameter | .catchParameter =>
    one .modifierList * typed clean * one .variableDeclaratorId
  | .variableDeclarator => one .variableDeclaratorId * (1 + mark .eq * value clean)
  | .variableDeclaratorId => due clean (word .ident)
  | .primitiveType => wordOf Grammar.primitiveKeywords.contains
  | .classType => dotted * (1 + one .typeArguments)
  | .arrayType => (one .primitiveType + one .classType) * one .arrayDimensions
  | .arrayDimensions => one .arrayTypeDim * (one .arrayTypeDim)∗
  | .arrayTypeDim => word .leftBracket * word .rightBracket + word .ellipsis
  | .typeArguments => mark .lt * listed (typed clean) * due clean (mark .gt)
  | .voidType => word .voidKw
  | .block => mark .leftBrace * (statement clean)∗ * due clean (mark .rightBrace)
  | .localVariableDeclaration =>
    one .modifierList * typed clean * (declarators * semicolon clean + one .variableDeclarator)
  | .expressionStatement => value clean * (semicolon clean + (junk clean)∗)
  | .returnStatement => mark .returnKw * (1 + value clean) * semicolon clean
  | .ifStatement =>
    mark .ifKw * condition clean * due clean (statement clean) *
      (1 + mark .elseKw * due clean (statement clean))
  | .whileStatement => mark .whileKw * condition clean * due clean (statement clean)
  | .foreachStatement =>
    mark .forKw * due clean (mark .leftParen) * one .localVariableDeclaration *
      due clean (mark .colon) * value clean * due clean (mark .rightParen) *
      due clean (statement clean)
  | .tryStatement =>
    mark .tryKw * due clean (one .block) * due clean (one .catchClause * (one .catchClause)∗)
  | .catchClause =>
    mark .catchKw * due clean (mark .leftParen) * one .catchParameter *
      due clean (mark .rightParen) * due clean (one .block)
  | .assignmentExpression => operand clean * wordOf Grammar.isAssignment * value clean
  | .infixExpression =>
    operand clean * wordOf (fun k => (Grammar.precedence? k).isSome) * value clean
  | .unaryExpression => wordOf isPrefix * value clean
  | .parenthesizedExpression => mark .leftParen * value clean * due clean (mark .rightParen)
  | .literal => wordOf Grammar.literalTokens.contains
  | .ambiguousName => dotted
  | .fieldAccess => nodeOf (isValue clean) * mark .dot * word .ident
  | .methodCall =>
    (1 + nodeOf (isValue clean) * mark .dot) * word .ident * due clean (one .argumentList)
  | .argumentList => mark .leftParen * listed (value clean) * due clean (mark .rightParen)
  | .constructorCall =>
    mark .newKw * due clean (one .classType) * due clean (one .argumentList)
  | .methodReference =>
    nodeOf isOperand * mark .colonColon * (1 + one .typeArguments) *
      due clean (word .ident + word .newKw)
  | .classLiteral => (one .ambiguousName + nodeOf Kind.isType) * mark .dot * mark .classKw
  | .thisExpression => mark .thisKw + one .ambiguousName * mark .dot * mark .thisKw
  | .error => broken clean marks
  | _ => 0

namespace Piece

/-- How strongly an expression holds together: an assignment least, then the binary operators, the
unary ones, and what is joined by points and brackets alone. -/
def level : Piece → Nat
  | .node .assignmentExpression _ => 0
  | .node .infixExpression ps =>
    ((direct ps).head?.bind fun t => Grammar.precedence? t.1.kind).getD 0
  | .node .unaryExpression _ => 7
  | _ => 8

/-- Operands hold together more strongly than the operator around them. Operators of one strength are
grouped from the left. -/
def Ranked (k : Kind) (ps : List Piece) : Prop :=
  match k with
  | .infixExpression => ∃ left op right strength, ps = [left, .token op true, right] ∧
    Grammar.precedence? op.kind = some strength ∧ strength ≤ left.level ∧ strength < right.level
  | .assignmentExpression => ∃ left op right, ps = [left, .token op true, right] ∧ 1 ≤ left.level
  | .unaryExpression => ∃ op operand, ps = [.token op true, operand] ∧ 7 ≤ operand.level
  | .fieldAccess | .methodCall | .methodReference =>
    ∀ p, ps.find? isNode = some p → 8 ≤ p.level
  | _ => True

mutual

/-- Every node of the piece has the content of its kind. In a clean text its operands are ranked. -/
def Formed (clean : Bool) : Piece → Prop
  | .token _ _ => True
  | .node k parts =>
    (symbols parts ∈ content clean k ∧ (clean = true → Ranked k parts)) ∧ AllFormed clean parts

def AllFormed (clean : Bool) : List Piece → Prop
  | [] => True
  | p :: ps => p.Formed clean ∧ AllFormed clean ps

end

theorem allFormed_append {clean : Bool} {ps qs : List Piece} :
    AllFormed clean (ps ++ qs) ↔ AllFormed clean ps ∧ AllFormed clean qs := by
  induction ps with
  | nil => simp [AllFormed]
  | cons p ps ih => simp only [List.cons_append, AllFormed, ih, and_assoc]

end Piece

end JavaSyntax
