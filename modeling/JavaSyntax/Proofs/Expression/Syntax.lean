import JavaSyntax.Keyword
import JavaSyntax.Operator
import JavaSyntax.Parse

namespace JavaSyntax

/-- A token as it is written, wherever it stands. -/
structure Word where
  kind : Kind
  text : String
  deriving DecidableEq

namespace Word

/-- The tokens are these words, wherever they stand. -/
def Spelled (ws : List Word) (ts : List Token) : Prop :=
  ts.map (fun t => (⟨t.kind, t.text⟩ : Word)) = ws

/-- The text of the word is one token of its kind. -/
def Lexes (w : Word) : Prop := Spelled [w] (significantTokens w.text)

abbrev dot : Word := ⟨.dot, "."⟩

abbrev comma : Word := ⟨.comma, ","⟩

abbrev leftParen : Word := ⟨.leftParen, "("⟩

abbrev rightParen : Word := ⟨.rightParen, ")"⟩

abbrev leftBracket : Word := ⟨.leftBracket, "["⟩

abbrev rightBracket : Word := ⟨.rightBracket, "]"⟩

abbrev lt : Word := ⟨.lt, "<"⟩

abbrev gt : Word := ⟨.gt, ">"⟩

abbrev colonColon : Word := ⟨.colonColon, "::"⟩

abbrev thisKw : Word := ⟨.thisKw, "this"⟩

abbrev classKw : Word := ⟨.classKw, "class"⟩

abbrev newKw : Word := ⟨.newKw, "new"⟩

/-- The words with a space between each and the next. -/
def spaced : List Word → String
  | [] => ""
  | [w] => w.text
  | w :: v :: ws => w.text ++ " " ++ spaced (v :: ws)

end Word

/-- A text that is one identifier. -/
structure Identifier where
  text : String
  lexes : Word.Lexes ⟨.ident, text⟩

abbrev Identifier.word (i : Identifier) : Word := ⟨.ident, i.text⟩

/-- A text that is one literal. -/
structure LiteralText where
  kind : Kind
  text : String
  isLiteral : Grammar.literalTokens.contains kind = true
  lexes : Word.Lexes ⟨kind, text⟩

abbrev LiteralText.word (l : LiteralText) : Word := ⟨l.kind, l.text⟩

/-- Identifiers with points between them. -/
structure DottedName where
  first : Identifier
  others : List Identifier

namespace DottedName

def words (n : DottedName) : List Word :=
  n.first.word :: n.others.flatMap fun i => [.dot, i.word]

/-- The name in one piece. -/
def text (n : DottedName) : String := n.others.foldl (fun s i => s ++ "." ++ i.text) n.first.text

end DottedName

def Primitive.kind : Primitive → Kind
  | .boolean => .booleanKw
  | .byte => .byteKw
  | .char => .charKw
  | .short => .shortKw
  | .int => .intKw
  | .long => .longKw
  | .float => .floatKw
  | .double => .doubleKw

abbrev Primitive.word (p : Primitive) : Word := ⟨p.kind, p.keyword⟩

def UnaryOperator.kind : UnaryOperator → Kind
  | .not => .bang
  | .neg => .minus

abbrev UnaryOperator.word (o : UnaryOperator) : Word := ⟨o.kind, o.token⟩

def BinaryOperator.kind : BinaryOperator → Kind
  | .or => .pipePipe
  | .and => .ampAmp
  | .eq => .eqEq
  | .ne => .bangEq
  | .lt => .lt
  | .gt => .gt
  | .le => .ltEq
  | .ge => .gtEq
  | .add => .plus
  | .sub => .minus
  | .mul => .star
  | .div => .slash
  | .rem => .percent

abbrev BinaryOperator.word (o : BinaryOperator) : Word := ⟨o.kind, o.token⟩

/-- How strongly an operator binds. -/
def BinaryOperator.strength : BinaryOperator → Nat
  | .or => 1
  | .and => 2
  | .eq | .ne => 3
  | .lt | .gt | .le | .ge => 4
  | .add | .sub => 5
  | .mul | .div | .rem => 6

def AssignmentOperator.kind : AssignmentOperator → Kind
  | .assign => .eq
  | .addAssign => .plusEq
  | .subAssign => .minusEq

abbrev AssignmentOperator.word (o : AssignmentOperator) : Word := ⟨o.kind, o.token⟩

mutual

/-- The branch without its places in a text. -/
def Branch.unplaced : Branch → Branch
  | ⟨kind, image, _, children⟩ => ⟨kind, image, default, Branch.unplacedAll children⟩

def Branch.unplacedAll : List Branch → List Branch
  | [] => []
  | b :: bs => b.unplaced :: Branch.unplacedAll bs

end

/-- A branch that has no place in a text. -/
def Branch.bare (kind : Kind) (image : Option String) (children : List Branch) : Branch :=
  ⟨kind, image, default, children⟩

/-- A type with its dimensions. -/
inductive TypeSyntax where
  | primitive (primitive : Primitive) (dimensions : Nat)
  | named (name : DottedName) (dimensions : Nat)
  | generic (name : DottedName) (arguments : List TypeSyntax) (dimensions : Nat)

namespace TypeSyntax

def dimensions : TypeSyntax → Nat
  | .primitive _ n | .named _ n | .generic _ _ n => n

/-- The type cannot be taken for a name. -/
def isExplicit : TypeSyntax → Bool
  | .primitive _ _ | .generic _ _ _ => true
  | .named _ n => n != 0

/-- The type may stand in front of `.class`, where a name is an expression. -/
def hasClass : TypeSyntax → Bool
  | .primitive _ _ => true
  | .named _ n | .generic _ _ n => n != 0

/-- The words of some dimensions. -/
def dimensionWords : Nat → List Word
  | 0 => []
  | n + 1 => .leftBracket :: .rightBracket :: dimensionWords n

mutual

def words : TypeSyntax → List Word
  | .primitive p n => p.word :: dimensionWords n
  | .named name n => name.words ++ dimensionWords n
  | .generic name arguments n =>
    name.words ++ (.lt :: argumentWords arguments ++ .gt :: dimensionWords n)

def argumentWords : List TypeSyntax → List Word
  | [] => []
  | t :: ts => t.words ++ moreWords ts

/-- Further arguments, each after a comma. -/
def moreWords : List TypeSyntax → List Word
  | [] => []
  | t :: ts => .comma :: (t.words ++ moreWords ts)

end

/-- An element type with its dimensions around it. -/
def withDimensions (element : Branch) (n : Nat) : Branch :=
  if n = 0 then element
  else .bare .arrayType none
    [element, .bare .arrayDimensions none (List.replicate n (.bare .arrayTypeDim (some "[]") []))]

mutual

def tree : TypeSyntax → Branch
  | .primitive p n => withDimensions (.bare .primitiveType (some p.keyword) []) n
  | .named name n => withDimensions (.bare .classType (some name.text) []) n
  | .generic name arguments n =>
    withDimensions (.bare .classType (some name.text)
      [.bare .typeArguments none (trees arguments)]) n

def trees : List TypeSyntax → List Branch
  | [] => []
  | t :: ts => t.tree :: trees ts

end

end TypeSyntax

/-- Type arguments, where there are any. -/
abbrev GenericArguments := Option (List TypeSyntax)

namespace GenericArguments

def words : GenericArguments → List Word
  | none => []
  | some ts => .lt :: TypeSyntax.argumentWords ts ++ [.gt]

def trees : GenericArguments → List Branch
  | none => []
  | some ts => [.bare .typeArguments none (TypeSyntax.trees ts)]

end GenericArguments

/-- What a method reference refers to. -/
inductive ReferenceTarget where
  | method (name : Identifier)
  | constructor

def ReferenceTarget.word : ReferenceTarget → Word
  | .method name => name.word
  | .constructor => .newKw

/-- An expression. -/
inductive Term where
  | literal (literal : LiteralText)
  | this
  | name (name : DottedName)
  | outerThis (name : DottedName)
  | nameClass (name : DottedName)
  | typeClass (type : TypeSyntax)
  | parens (inner : Term)
  | construct (name : DottedName) (typeArguments : GenericArguments) (arguments : List Term)
  | call (name : Identifier) (arguments : List Term)
  | callOn (qualifier : Term) (name : Identifier) (arguments : List Term)
  | field (qualifier : Term) (name : Identifier)
  | reference (qualifier : Term) (typeArguments : GenericArguments) (target : ReferenceTarget)
  | typeReference (type : TypeSyntax) (typeArguments : GenericArguments) (target : ReferenceTarget)
  | unary (operator : UnaryOperator) (operand : Term)
  | binary (operator : BinaryOperator) (left right : Term)
  | assign (operator : AssignmentOperator) (target value : Term)

namespace Term

/-- How strongly the outermost operator of the term binds. -/
def level : Term → Nat
  | .assign _ _ _ => 0
  | .binary o _ _ => o.strength
  | .unary _ _ => 7
  | _ => 8

def isName : Term → Bool
  | .name _ => true
  | _ => false

mutual

/-- Operands bind more strongly than the operator they stand next to, or have parentheses. Names are as
long as they can be, so a name has no field. -/
def WellFormed : Term → Prop
  | .literal _ | .this | .name _ | .outerThis _ | .nameClass _ => True
  | .typeClass type => type.hasClass = true
  | .parens inner => inner.WellFormed
  | .construct _ _ arguments | .call _ arguments => AllWellFormed arguments
  | .callOn qualifier _ arguments =>
    qualifier.WellFormed ∧ qualifier.level = 8 ∧ AllWellFormed arguments
  | .field qualifier _ =>
    qualifier.WellFormed ∧ qualifier.level = 8 ∧ qualifier.isName = false
  | .reference qualifier _ _ => qualifier.WellFormed ∧ qualifier.level = 8
  | .typeReference type _ _ => type.isExplicit = true
  | .unary _ operand => operand.WellFormed ∧ 7 ≤ operand.level
  | .binary o left right =>
    left.WellFormed ∧ right.WellFormed ∧ o.strength ≤ left.level ∧ o.strength < right.level
  | .assign _ target value => target.WellFormed ∧ value.WellFormed ∧ 1 ≤ target.level

def AllWellFormed : List Term → Prop
  | [] => True
  | e :: es => e.WellFormed ∧ AllWellFormed es

end

mutual

/-- The words of a term, in the order in which they are written. -/
def words : Term → List Word
  | .literal l => [l.word]
  | .this => [.thisKw]
  | .name n => n.words
  | .outerThis n => n.words ++ [.dot, .thisKw]
  | .nameClass n => n.words ++ [.dot, .classKw]
  | .typeClass t => t.words ++ [.dot, .classKw]
  | .parens e => .leftParen :: e.words ++ [.rightParen]
  | .construct n typeArguments arguments =>
    .newKw :: (n.words ++ (typeArguments.words ++
      (.leftParen :: argumentWords arguments ++ [.rightParen])))
  | .call f arguments => f.word :: .leftParen :: argumentWords arguments ++ [.rightParen]
  | .callOn q f arguments =>
    q.words ++ (.dot :: f.word :: .leftParen :: argumentWords arguments ++ [.rightParen])
  | .field q f => q.words ++ [.dot, f.word]
  | .reference q typeArguments target =>
    q.words ++ .colonColon :: (typeArguments.words ++ [target.word])
  | .typeReference t typeArguments target =>
    t.words ++ .colonColon :: (typeArguments.words ++ [target.word])
  | .unary o e => o.word :: e.words
  | .binary o l r => l.words ++ o.word :: r.words
  | .assign o l r => l.words ++ o.word :: r.words

def argumentWords : List Term → List Word
  | [] => []
  | e :: es => e.words ++ moreWords es

/-- Further arguments, each after a comma. -/
def moreWords : List Term → List Word
  | [] => []
  | e :: es => .comma :: (e.words ++ moreWords es)

end

/-- The name of a type in expression position. -/
def typeName (n : DottedName) : Branch :=
  .bare .typeExpression none [.bare .classType (some n.text) []]

/-- What stands in front of `::`. In front of `:: new` a name can only be that of a type. -/
def qualifierTree (target : ReferenceTarget) (qualifier : Term) (tree : Branch) : Branch :=
  match target, qualifier with
  | .constructor, .name n => typeName n
  | _, _ => tree

mutual

/-- The tree of a term, with the names settled that their surroundings settle. -/
def tree : Term → Branch
  | .literal l => .bare .literal (some l.text) []
  | .this => .bare .thisExpression none []
  | .name n => .bare .ambiguousName (some n.text) []
  | .outerThis n => .bare .thisExpression none [typeName n]
  | .nameClass n => .bare .classLiteral none [.bare .classType (some n.text) []]
  | .typeClass t => .bare .classLiteral none [t.tree]
  | .parens e => .bare .parenthesizedExpression none [e.tree]
  | .construct n typeArguments arguments =>
    .bare .constructorCall none [.bare .classType (some n.text) typeArguments.trees,
      .bare .argumentList none (trees arguments)]
  | .call f arguments => .bare .methodCall (some f.text) [.bare .argumentList none (trees arguments)]
  | .callOn q f arguments =>
    .bare .methodCall (some f.text) [q.tree, .bare .argumentList none (trees arguments)]
  | .field q f => .bare .fieldAccess (some f.text) [q.tree]
  | .reference q typeArguments target =>
    .bare .methodReference (some target.word.text)
      (qualifierTree target q q.tree :: typeArguments.trees)
  | .typeReference t typeArguments target =>
    .bare .methodReference (some target.word.text)
      (.bare .typeExpression none [t.tree] :: typeArguments.trees)
  | .unary o e => .bare .unaryExpression (some o.token) [e.tree]
  | .binary o l r => .bare .infixExpression (some o.token) [l.tree, r.tree]
  | .assign o l r => .bare .assignmentExpression (some o.token) [l.tree, r.tree]

def trees : List Term → List Branch
  | [] => []
  | e :: es => e.tree :: trees es

end

/-- The words with single spaces between them. -/
def print (e : Term) : String := Word.spaced e.words

end Term

end JavaSyntax
