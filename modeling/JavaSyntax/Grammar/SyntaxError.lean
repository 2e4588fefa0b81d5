import JavaSyntax.Token

namespace JavaSyntax

/-- What the grammar misses at some token. -/
inductive SyntaxError where
  | token (kind : Kind)
  | annotationName
  | variableName
  | classDeclaration
  | className
  | classBody
  | member
  | parameter
  | block
  | statement
  | catchClause
  | type
  | expression
  | memberName
  | methodName
  | afterPrimitive
  | endOfExpression
  deriving DecidableEq

namespace SyntaxError

/-- Only some tokens are ever asked for by name. -/
def describe : Kind → String
  | .leftParen => "'('"
  | .rightParen => "')'"
  | .leftBrace => "'\x7b'"
  | .rightBrace => "'\x7d'"
  | .rightBracket => "']'"
  | .gt => "'>'"
  | .semicolon => "';'"
  | .colon => "':'"
  | .classKw => "'class'"
  | .ident => "an identifier"
  | _ => "a token"

def message : SyntaxError → String
  | .token k => "expected " ++ describe k
  | .annotationName => "expected an annotation name"
  | .variableName => "expected a variable name"
  | .classDeclaration => "expected a class declaration"
  | .className => "expected a class name"
  | .classBody => "expected a class body"
  | .member => "expected a field or method declaration"
  | .parameter => "expected a parameter"
  | .block => "expected a block"
  | .statement => "expected a statement"
  | .catchClause => "expected 'catch'"
  | .type => "expected a type"
  | .expression => "expected an expression"
  | .memberName => "expected a member name"
  | .methodName => "expected a method name or 'new'"
  | .afterPrimitive => "expected '::' or '.class' after a primitive type"
  | .endOfExpression => "unexpected input after the expression"

end SyntaxError

/-- An error together with the token it was reported at, if the input had not ended. -/
structure Problem where
  error : SyntaxError
  found : Option Token
  deriving DecidableEq

end JavaSyntax
