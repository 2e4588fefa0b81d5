import JavaSyntax.Operator
import JavaSyntax.View.Type

namespace JavaSyntax

variable {t : Tree}

abbrev AssignmentExpression (t : Tree) := View t (.only .assignmentExpression)

abbrev InfixExpression (t : Tree) := View t (.only .infixExpression)

abbrev UnaryExpression (t : Tree) := View t (.only .unaryExpression)

abbrev ParenthesizedExpression (t : Tree) := View t (.only .parenthesizedExpression)

abbrev Literal (t : Tree) := View t (.only .literal)

abbrev AmbiguousName (t : Tree) := View t (.only .ambiguousName)

abbrev FieldAccess (t : Tree) := View t (.only .fieldAccess)

abbrev MethodCall (t : Tree) := View t (.only .methodCall)

abbrev ArgumentList (t : Tree) := View t (.only .argumentList)

abbrev ConstructorCall (t : Tree) := View t (.only .constructorCall)

abbrev MethodReference (t : Tree) := View t (.only .methodReference)

abbrev TypeExpression (t : Tree) := View t (.only .typeExpression)

abbrev ClassLiteral (t : Tree) := View t (.only .classLiteral)

abbrev ThisExpression (t : Tree) := View t (.only .thisExpression)

namespace View

variable {c : Category}

def left (v : View t c) : Option (Expr t) := v.childAt 0 _

def right (v : View t c) : Option (Expr t) := v.childAt 1 _

/-- The expression in front of the point, as in `a.b()` and `Outer.this`. -/
def qualifier (v : View t c) : Option (Expr t) := v.childAt 0 _

end View

def AssignmentExpression.operator (v : AssignmentExpression t) : Option AssignmentOperator :=
  v.image.bind AssignmentOperator.ofToken?

def InfixExpression.operator (v : InfixExpression t) : Option BinaryOperator :=
  v.image.bind BinaryOperator.ofToken?

namespace UnaryExpression

def operator (v : UnaryExpression t) : Option UnaryOperator := v.image.bind UnaryOperator.ofToken?

def operand (v : UnaryExpression t) : Option (Expr t) := v.child _

end UnaryExpression

def ParenthesizedExpression.inner (v : ParenthesizedExpression t) : Option (Expr t) := v.child _

/-- An expression without the parentheses around it. Empty parentheses stay. -/
def Expr.unparenthesized (v : Expr t) : Expr t :=
  if t.kind v.node = .parenthesizedExpression then
    match _h : View.firstUnder t v.node .expr with
    | none => v
    | some inner =>
      have := Tree.lt_of_mem_children (View.mem_of_firstUnder _h)
      unparenthesized inner
  else v
termination_by t.size - v.node

inductive LiteralKind where
  | int
  | long
  | float
  | double
  | char
  | string
  | boolean
  | null
  deriving DecidableEq

namespace LiteralKind

/-- A text that ends in one of the characters. -/
def endsIn (ends cs : List Char) : Bool := cs.getLast?.any ends.contains

/-- The kind of a literal from its text alone. A hexadecimal number is never a float, whatever its
last digit. -/
def ofText (text : String) : LiteralKind :=
  let cs := text.toList
  if text = "true" ∨ text = "false" then .boolean
  else if text = "null" then .null
  else if cs.head? = some '"' then .string
  else if cs.head? = some '\'' then .char
  else if endsIn ['l', 'L'] cs then .long
  else if cs.take 2 = ['0', 'x'] ∨ cs.take 2 = ['0', 'X'] then .int
  else if endsIn ['f', 'F'] cs then .float
  else if endsIn ['d', 'D'] cs || cs.any ['.', 'e', 'E'].contains then .double
  else .int

end LiteralKind

namespace Literal

/-- The literal as written. -/
def value (v : Literal t) : String := v.image.getD ""

def kind (v : Literal t) : LiteralKind := .ofText (value v)

end Literal

namespace AmbiguousName

/-- The dotted name as written. -/
def name (v : AmbiguousName t) : String := v.image.getD ""

def segments (v : AmbiguousName t) : List String := JavaSyntax.segments (name v)

def lastSegment (v : AmbiguousName t) : String := JavaSyntax.lastSegment (name v)

end AmbiguousName

namespace ArgumentList

def args (v : ArgumentList t) : List (Expr t) := v.children _

end ArgumentList

/-- The arguments of a call or of a constructor call. -/
def View.arguments {c : Category} (v : View t c) : Option (ArgumentList t) := v.child _

def ConstructorCall.classType (v : ConstructorCall t) : Option (ClassType t) := v.child _

namespace MethodReference

/-- What stands left of `::`. An explicit type is wrapped there, so this is always an expression. -/
def operand (v : MethodReference t) : Except Absence (Expr t) :=
  match v.qualifier with
  | none => .error (.qualifier v.node)
  | some e => .ok e

/-- `Foo::new`. -/
def isConstructor (v : MethodReference t) : Bool := v.image == some "new"

/-- The name of the method, which a constructor does not have. -/
def methodName (v : MethodReference t) : Option String :=
  if isConstructor v then none else v.image

def typeArguments (v : MethodReference t) : Option (TypeArguments t) := v.child _

end MethodReference

/-- The type that a type expression or a class literal names. -/
def View.namedType {c : Category} (v : View t c) : Except Absence (WrittenType t) := v.firstAs _

end JavaSyntax
