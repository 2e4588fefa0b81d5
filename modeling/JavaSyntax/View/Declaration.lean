import JavaSyntax.View.Type

namespace JavaSyntax

variable {t : Tree}

abbrev CompilationUnit (t : Tree) := View t (.only .compilationUnit)

abbrev ClassDeclaration (t : Tree) := View t (.only .classDeclaration)

abbrev ClassBody (t : Tree) := View t (.only .classBody)

abbrev ModifierList (t : Tree) := View t (.only .modifierList)

abbrev AnnotationUse (t : Tree) := View t (.only .annotationUse)

abbrev FieldDeclaration (t : Tree) := View t (.only .fieldDeclaration)

abbrev LocalVariableDeclaration (t : Tree) := View t (.only .localVariableDeclaration)

abbrev MethodDeclaration (t : Tree) := View t (.only .methodDeclaration)

abbrev FormalParameters (t : Tree) := View t (.only .formalParameters)

abbrev FormalParameter (t : Tree) := View t (.only .formalParameter)

abbrev CatchParameter (t : Tree) := View t (.only .catchParameter)

abbrev VariableDeclarator (t : Tree) := View t (.only .variableDeclarator)

abbrev VariableDeclaratorId (t : Tree) := View t (.only .variableDeclaratorId)

namespace ModifierList

/-- The modifiers in source order. Annotations are none. -/
def modifiers (v : ModifierList t) : List Modifier :=
  ((t.children v.node).filter (t.kind · = .modifier)).filterMap fun n =>
    (t.image n).bind Modifier.ofKeyword?

def annotations (v : ModifierList t) : List (AnnotationUse t) := v.children _

end ModifierList

namespace AnnotationUse

/-- The name as written, perhaps qualified. -/
def name (v : AnnotationUse t) : Option String := v.image

def simpleName (v : AnnotationUse t) : Option String := (name v).map lastSegment

end AnnotationUse

namespace View

variable {c : Category}

/-- The modifiers of a declaration. -/
def modifierList (v : View t c) : Option (ModifierList t) := v.child _

def modifiers (v : View t c) : List Modifier := v.modifierList.elim [] ModifierList.modifiers

def hasModifier (v : View t c) (m : Modifier) : Bool := v.modifiers.contains m

def annotations (v : View t c) : List (AnnotationUse t) :=
  v.modifierList.elim [] ModifierList.annotations

/-- An annotation is found by its name as written or by the last part of it. -/
def isAnnotated (v : View t c) (name : String) : Bool :=
  v.annotations.any fun a =>
    AnnotationUse.name a = some name || AnnotationUse.simpleName a = some name

/-- The type in front of the name or names that a declaration introduces. -/
def typeNode (v : View t c) : Option (WrittenType t) := v.child _

/-- The variable that a parameter or a declarator introduces. -/
def variableId (v : View t c) : Except Absence (VariableDeclaratorId t) :=
  match v.child _ with
  | none => .error (.variableId v.node)
  | some id => .ok id

/-- The declarators of a field or of a local variable. -/
def declarators (v : View t c) : List (VariableDeclarator t) := v.children _

/-- The variables that a field or a local variable declaration introduces. -/
def variableIds (v : View t c) : List (VariableDeclaratorId t) :=
  v.declarators.flatMap fun d => d.children _

end View

def VariableDeclarator.initializer (v : VariableDeclarator t) : Option (View t .expr) :=
  v.childAt 1 _

namespace ClassBody

def members (v : ClassBody t) : List (Member t) := v.children _

def fields (v : ClassBody t) : List (FieldDeclaration t) := v.children _

def methods (v : ClassBody t) : List (MethodDeclaration t) := v.children _

end ClassBody

namespace ClassDeclaration

def name (v : ClassDeclaration t) : Option String := v.image

def body (v : ClassDeclaration t) : Option (ClassBody t) := v.child _

def members (v : ClassDeclaration t) : List (Member t) := (body v).elim [] ClassBody.members

end ClassDeclaration

def CompilationUnit.classes (v : CompilationUnit t) : List (ClassDeclaration t) := v.children _

/-- The last dimension of the type is written `...`. -/
def FormalParameter.isVarargs (v : FormalParameter t) : Except Absence Bool :=
  match v.typeNode.bind fun ty => View.of? t (.only .arrayType) ty.node with
  | none => .ok false
  | some array => ArrayType.isVarargs array

def FormalParameters.parameters (v : FormalParameters t) : List (FormalParameter t) := v.children _

namespace MethodDeclaration

def name (v : MethodDeclaration t) : Option String := v.image

/-- The type of the result. `void` is not a type. -/
def resultType (v : MethodDeclaration t) : Option (WrittenType t) := v.child _

def isVoid (v : MethodDeclaration t) : Bool := (v.child (.only .voidType)).isSome

def formalParameters (v : MethodDeclaration t) : Option (FormalParameters t) := v.child _

def parameters (v : MethodDeclaration t) : List (FormalParameter t) :=
  (formalParameters v).elim [] FormalParameters.parameters

def isVarargs (v : MethodDeclaration t) : Except Absence Bool :=
  match (parameters v).getLast? with
  | none => .ok false
  | some p => FormalParameter.isVarargs p

end MethodDeclaration

namespace VariableDeclaratorId

def name (v : VariableDeclaratorId t) : Option String := v.image

/-- The declaration the variable belongs to: a parameter, or what is around its declarator. -/
def owner (v : VariableDeclaratorId t) : Option NodeId :=
  match t.parent v.node with
  | none => none
  | some p => if t.kind p = .variableDeclarator then t.parent p else some p

def ownerIs (v : VariableDeclaratorId t) (k : Kind) : Bool := (owner v).any (t.kind · = k)

/-- The type written in the declaration of the variable. -/
def declaredType (v : VariableDeclaratorId t) : Option (WrittenType t) :=
  match owner v with
  | none => none
  | some o =>
    if ([.formalParameter, .catchParameter, .localVariableDeclaration, .fieldDeclaration] :
        List Kind).contains (t.kind o) then View.firstUnder t o .type
    else none

def isFormalParameter (v : VariableDeclaratorId t) : Bool := ownerIs v .formalParameter

def isCatchParameter (v : VariableDeclaratorId t) : Bool := ownerIs v .catchParameter

def isField (v : VariableDeclaratorId t) : Bool := ownerIs v .fieldDeclaration

def isLocalVariable (v : VariableDeclaratorId t) : Bool := ownerIs v .localVariableDeclaration

/-- The variable of an enhanced `for` loop. -/
def isForeachVariable (v : VariableDeclaratorId t) : Bool :=
  ((owner v).bind t.parent).any (t.kind · = .foreachStatement)

end VariableDeclaratorId

end JavaSyntax
