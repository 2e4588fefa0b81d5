import JavaSyntax.Kind
import JavaSyntax.Text.Split

namespace JavaSyntax

/-- What a node can be viewed as: its own kind, or one of the groups that kinds belong to. -/
inductive Category where
  | only (kind : Kind)
  | expr
  | type
  | statement
  | member
  deriving DecidableEq

namespace Category

def exprKinds : List Kind :=
  [.assignmentExpression, .infixExpression, .unaryExpression, .parenthesizedExpression, .literal,
   .ambiguousName, .fieldAccess, .methodCall, .constructorCall, .methodReference, .typeExpression,
   .classLiteral, .thisExpression]

/-- Types that can be written for a variable, so without `void`. -/
def typeKinds : List Kind := [.primitiveType, .classType, .arrayType]

def statementKinds : List Kind :=
  [.localVariableDeclaration, .expressionStatement, .returnStatement, .ifStatement,
   .whileStatement, .foreachStatement, .tryStatement, .block]

def memberKinds : List Kind := [.fieldDeclaration, .methodDeclaration]

def contains : Category → Kind → Bool
  | .only k, kind => kind == k
  | .expr, kind => exprKinds.contains kind
  | .type, kind => typeKinds.contains kind
  | .statement, kind => statementKinds.contains kind
  | .member, kind => memberKinds.contains kind

def groups : List Category := [.expr, .type, .statement, .member]

/-- The first group a kind belongs to. -/
def group? (k : Kind) : Option Category := groups.find? (·.contains k)

/-- A node of these kinds has a view of its own. -/
def hasView (k : Kind) : Bool :=
  k.isNode && !([.modifier, .error, .tombstone] : List Kind).contains k

def viewKinds : List Kind := Kind.all.filter hasView

/-- Words joined by underscores, each written with one capital instead. -/
def camelCase (s : String) : String :=
  String.join ((Text.splitText '_' s).map fun word => word.toLower.capitalize)

def name : Category → String
  | .only k => camelCase k.name
  | .expr => "Expr"
  | .type => "Type"
  | .statement => "Statement"
  | .member => "Member"

def all : List Category := viewKinds.map .only ++ groups

def ofName? (s : String) : Option Category := all.find? (·.name = s)

/-- Everything a node of a kind can be viewed as, its own view first. -/
def casts (k : Kind) : List Category := all.filter (·.contains k)

end Category

end JavaSyntax
