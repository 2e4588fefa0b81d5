import JavaSyntax.View.Declaration
import JavaSyntax.View.Expression

namespace JavaSyntax

variable {t : Tree}

abbrev Block (t : Tree) := View t (.only .block)

abbrev ExpressionStatement (t : Tree) := View t (.only .expressionStatement)

abbrev ReturnStatement (t : Tree) := View t (.only .returnStatement)

abbrev IfStatement (t : Tree) := View t (.only .ifStatement)

abbrev WhileStatement (t : Tree) := View t (.only .whileStatement)

abbrev ForeachStatement (t : Tree) := View t (.only .foreachStatement)

abbrev TryStatement (t : Tree) := View t (.only .tryStatement)

abbrev CatchClause (t : Tree) := View t (.only .catchClause)

def Block.statements (v : Block t) : List (Statement t) := v.children _

def ExpressionStatement.expression (v : ExpressionStatement t) : Option (Expr t) := v.child _

def ReturnStatement.expression (v : ReturnStatement t) : Option (Expr t) := v.child _

namespace IfStatement

def condition (v : IfStatement t) : Option (Expr t) := v.childAt 0 _

def thenBranch (v : IfStatement t) : Option (Statement t) := v.childAt 1 _

def elseBranch (v : IfStatement t) : Option (Statement t) := v.childAt 2 _

end IfStatement

namespace WhileStatement

def condition (v : WhileStatement t) : Option (Expr t) := v.childAt 0 _

def body (v : WhileStatement t) : Option (Statement t) := v.childAt 1 _

end WhileStatement

namespace ForeachStatement

/-- The declaration of the loop variable, `String s` in `for (String s : list)`. -/
def element (v : ForeachStatement t) : Option (LocalVariableDeclaration t) := v.childAt 0 _

def iterable (v : ForeachStatement t) : Option (Expr t) := v.childAt 1 _

def body (v : ForeachStatement t) : Option (Statement t) := v.childAt 2 _

def variableId (v : ForeachStatement t) : Except Absence (VariableDeclaratorId t) :=
  match (element v).bind fun d => d.variableIds.head? with
  | none => .error (.variableId v.node)
  | some id => .ok id

end ForeachStatement

namespace TryStatement

def body (v : TryStatement t) : Option (Block t) := v.child _

def catchClauses (v : TryStatement t) : List (CatchClause t) := v.children _

end TryStatement

namespace CatchClause

def parameter (v : CatchClause t) : Option (CatchParameter t) := v.child _

def body (v : CatchClause t) : Option (Block t) := v.child _

end CatchClause

def MethodDeclaration.body (v : MethodDeclaration t) : Option (Block t) := v.child _

end JavaSyntax
