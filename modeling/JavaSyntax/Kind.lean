namespace JavaSyntax

/-- The kinds of tokens and of tree nodes, in one fixed order: punctuation, keywords, the other
tokens, then the node kinds. `error` nodes hold tokens no rule accepts; `tombstone` nodes are
placeholders that never reach a finished tree by themselves. -/
inductive Kind where
  | leftParen | rightParen | leftBracket | rightBracket | leftBrace | rightBrace | lt | gt
  | ltEq | gtEq | eq | eqEq | bang | bangEq | plus | minus | star | slash | percent | ampAmp
  | pipePipe | plusEq | minusEq | comma | semicolon | dot | ellipsis | colon | colonColon | at
  | question
  | abstractKw | booleanKw | byteKw | catchKw | charKw | classKw | doubleKw | elseKw | falseKw
  | finalKw | floatKw | forKw | ifKw | intKw | longKw | newKw | nullKw | privateKw
  | protectedKw | publicKw | returnKw | shortKw | staticKw | thisKw | trueKw | tryKw | voidKw
  | whileKw
  | ident | intLiteral | floatLiteral | stringLiteral | charLiteral | unknown | eof
  | compilationUnit | classDeclaration | classBody | modifierList | modifier | annotationUse
  | fieldDeclaration | methodDeclaration | formalParameters | formalParameter
  | variableDeclarator | variableDeclaratorId
  | primitiveType | classType | arrayType | arrayDimensions | arrayTypeDim | typeArguments
  | voidType
  | block | localVariableDeclaration | expressionStatement | returnStatement | ifStatement
  | whileStatement | foreachStatement | tryStatement | catchClause | catchParameter
  | assignmentExpression | infixExpression | unaryExpression | parenthesizedExpression
  | literal | ambiguousName | fieldAccess | methodCall | argumentList | constructorCall
  | methodReference | typeExpression | classLiteral | thisExpression
  | error | tombstone
  deriving DecidableEq, Inhabited

namespace Kind

/-- Every kind once, in the order of declaration. -/
def all : List Kind :=
  [.leftParen, .rightParen, .leftBracket, .rightBracket, .leftBrace, .rightBrace, .lt, .gt,
   .ltEq, .gtEq, .eq, .eqEq, .bang, .bangEq, .plus, .minus, .star, .slash, .percent, .ampAmp,
   .pipePipe, .plusEq, .minusEq, .comma, .semicolon, .dot, .ellipsis, .colon, .colonColon, .at,
   .question, .abstractKw, .booleanKw, .byteKw, .catchKw, .charKw, .classKw, .doubleKw, .elseKw,
   .falseKw, .finalKw, .floatKw, .forKw, .ifKw, .intKw, .longKw, .newKw, .nullKw, .privateKw,
   .protectedKw, .publicKw, .returnKw, .shortKw, .staticKw, .thisKw, .trueKw, .tryKw, .voidKw,
   .whileKw, .ident, .intLiteral, .floatLiteral, .stringLiteral, .charLiteral, .unknown, .eof,
   .compilationUnit, .classDeclaration, .classBody, .modifierList, .modifier, .annotationUse,
   .fieldDeclaration, .methodDeclaration, .formalParameters, .formalParameter,
   .variableDeclarator, .variableDeclaratorId, .primitiveType, .classType, .arrayType,
   .arrayDimensions, .arrayTypeDim, .typeArguments, .voidType, .block,
   .localVariableDeclaration, .expressionStatement, .returnStatement, .ifStatement,
   .whileStatement, .foreachStatement, .tryStatement, .catchClause, .catchParameter,
   .assignmentExpression, .infixExpression, .unaryExpression, .parenthesizedExpression,
   .literal, .ambiguousName, .fieldAccess, .methodCall, .argumentList, .constructorCall,
   .methodReference, .typeExpression, .classLiteral, .thisExpression, .error, .tombstone]

/-- The spelling used in dumps and messages. -/
def name : Kind → String
  | .leftParen => "LEFT_PAREN"
  | .rightParen => "RIGHT_PAREN"
  | .leftBracket => "LEFT_BRACKET"
  | .rightBracket => "RIGHT_BRACKET"
  | .leftBrace => "LEFT_BRACE"
  | .rightBrace => "RIGHT_BRACE"
  | .lt => "LT"
  | .gt => "GT"
  | .ltEq => "LT_EQ"
  | .gtEq => "GT_EQ"
  | .eq => "EQ"
  | .eqEq => "EQ_EQ"
  | .bang => "BANG"
  | .bangEq => "BANG_EQ"
  | .plus => "PLUS"
  | .minus => "MINUS"
  | .star => "STAR"
  | .slash => "SLASH"
  | .percent => "PERCENT"
  | .ampAmp => "AMP_AMP"
  | .pipePipe => "PIPE_PIPE"
  | .plusEq => "PLUS_EQ"
  | .minusEq => "MINUS_EQ"
  | .comma => "COMMA"
  | .semicolon => "SEMICOLON"
  | .dot => "DOT"
  | .ellipsis => "ELLIPSIS"
  | .colon => "COLON"
  | .colonColon => "COLON_COLON"
  | .at => "AT"
  | .question => "QUESTION"
  | .abstractKw => "ABSTRACT_KW"
  | .booleanKw => "BOOLEAN_KW"
  | .byteKw => "BYTE_KW"
  | .catchKw => "CATCH_KW"
  | .charKw => "CHAR_KW"
  | .classKw => "CLASS_KW"
  | .doubleKw => "DOUBLE_KW"
  | .elseKw => "ELSE_KW"
  | .falseKw => "FALSE_KW"
  | .finalKw => "FINAL_KW"
  | .floatKw => "FLOAT_KW"
  | .forKw => "FOR_KW"
  | .ifKw => "IF_KW"
  | .intKw => "INT_KW"
  | .longKw => "LONG_KW"
  | .newKw => "NEW_KW"
  | .nullKw => "NULL_KW"
  | .privateKw => "PRIVATE_KW"
  | .protectedKw => "PROTECTED_KW"
  | .publicKw => "PUBLIC_KW"
  | .returnKw => "RETURN_KW"
  | .shortKw => "SHORT_KW"
  | .staticKw => "STATIC_KW"
  | .thisKw => "THIS_KW"
  | .trueKw => "TRUE_KW"
  | .tryKw => "TRY_KW"
  | .voidKw => "VOID_KW"
  | .whileKw => "WHILE_KW"
  | .ident => "IDENT"
  | .intLiteral => "INT_LITERAL"
  | .floatLiteral => "FLOAT_LITERAL"
  | .stringLiteral => "STRING_LITERAL"
  | .charLiteral => "CHAR_LITERAL"
  | .unknown => "UNKNOWN"
  | .eof => "EOF"
  | .compilationUnit => "COMPILATION_UNIT"
  | .classDeclaration => "CLASS_DECLARATION"
  | .classBody => "CLASS_BODY"
  | .modifierList => "MODIFIER_LIST"
  | .modifier => "MODIFIER"
  | .annotationUse => "ANNOTATION"
  | .fieldDeclaration => "FIELD_DECLARATION"
  | .methodDeclaration => "METHOD_DECLARATION"
  | .formalParameters => "FORMAL_PARAMETERS"
  | .formalParameter => "FORMAL_PARAMETER"
  | .variableDeclarator => "VARIABLE_DECLARATOR"
  | .variableDeclaratorId => "VARIABLE_DECLARATOR_ID"
  | .primitiveType => "PRIMITIVE_TYPE"
  | .classType => "CLASS_TYPE"
  | .arrayType => "ARRAY_TYPE"
  | .arrayDimensions => "ARRAY_DIMENSIONS"
  | .arrayTypeDim => "ARRAY_TYPE_DIM"
  | .typeArguments => "TYPE_ARGUMENTS"
  | .voidType => "VOID_TYPE"
  | .block => "BLOCK"
  | .localVariableDeclaration => "LOCAL_VARIABLE_DECLARATION"
  | .expressionStatement => "EXPRESSION_STATEMENT"
  | .returnStatement => "RETURN_STATEMENT"
  | .ifStatement => "IF_STATEMENT"
  | .whileStatement => "WHILE_STATEMENT"
  | .foreachStatement => "FOREACH_STATEMENT"
  | .tryStatement => "TRY_STATEMENT"
  | .catchClause => "CATCH_CLAUSE"
  | .catchParameter => "CATCH_PARAMETER"
  | .assignmentExpression => "ASSIGNMENT_EXPRESSION"
  | .infixExpression => "INFIX_EXPRESSION"
  | .unaryExpression => "UNARY_EXPRESSION"
  | .parenthesizedExpression => "PARENTHESIZED_EXPRESSION"
  | .literal => "LITERAL"
  | .ambiguousName => "AMBIGUOUS_NAME"
  | .fieldAccess => "FIELD_ACCESS"
  | .methodCall => "METHOD_CALL"
  | .argumentList => "ARGUMENT_LIST"
  | .constructorCall => "CONSTRUCTOR_CALL"
  | .methodReference => "METHOD_REFERENCE"
  | .typeExpression => "TYPE_EXPRESSION"
  | .classLiteral => "CLASS_LITERAL"
  | .thisExpression => "THIS_EXPRESSION"
  | .error => "ERROR"
  | .tombstone => "TOMBSTONE"

def ofName? (s : String) : Option Kind :=
  all.find? (fun k => k.name == s)

/-- Position in the order of declaration. -/
def number (k : Kind) : Nat := k.ctorIdx

/-- Node kinds follow all token kinds. -/
def isNode (k : Kind) : Bool := compilationUnit.number ≤ k.number

def isKeyword (k : Kind) : Bool :=
  abstractKw.number ≤ k.number && k.number ≤ whileKw.number

def isPrimitiveKeyword : Kind → Bool
  | .booleanKw | .byteKw | .charKw | .shortKw | .intKw | .longKw | .floatKw | .doubleKw => true
  | _ => false

def isModifierKeyword : Kind → Bool
  | .abstractKw | .finalKw | .privateKw | .protectedKw | .publicKw | .staticKw => true
  | _ => false

/-- Type nodes that may stand alone, for instance left of `::`. `void` is not one of them. -/
def isType : Kind → Bool
  | .primitiveType | .classType | .arrayType => true
  | _ => false

def ofKeyword? : String → Option Kind
  | "abstract" => some .abstractKw
  | "boolean" => some .booleanKw
  | "byte" => some .byteKw
  | "catch" => some .catchKw
  | "char" => some .charKw
  | "class" => some .classKw
  | "double" => some .doubleKw
  | "else" => some .elseKw
  | "false" => some .falseKw
  | "final" => some .finalKw
  | "float" => some .floatKw
  | "for" => some .forKw
  | "if" => some .ifKw
  | "int" => some .intKw
  | "long" => some .longKw
  | "new" => some .newKw
  | "null" => some .nullKw
  | "private" => some .privateKw
  | "protected" => some .protectedKw
  | "public" => some .publicKw
  | "return" => some .returnKw
  | "short" => some .shortKw
  | "static" => some .staticKw
  | "this" => some .thisKw
  | "true" => some .trueKw
  | "try" => some .tryKw
  | "void" => some .voidKw
  | "while" => some .whileKw
  | _ => none

end Kind

end JavaSyntax
