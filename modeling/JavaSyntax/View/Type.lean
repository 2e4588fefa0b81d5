import JavaSyntax.TypeInfo
import JavaSyntax.View

namespace JavaSyntax

variable {t : Tree}

abbrev PrimitiveType (t : Tree) := View t (.only .primitiveType)

abbrev ClassType (t : Tree) := View t (.only .classType)

abbrev ArrayType (t : Tree) := View t (.only .arrayType)

abbrev ArrayDimensions (t : Tree) := View t (.only .arrayDimensions)

abbrev ArrayTypeDim (t : Tree) := View t (.only .arrayTypeDim)

abbrev TypeArguments (t : Tree) := View t (.only .typeArguments)

abbrev VoidType (t : Tree) := View t (.only .voidType)

def PrimitiveType.primitive? (v : PrimitiveType t) : Option Primitive :=
  v.image.bind Primitive.ofKeyword?

namespace TypeArguments

def types (v : TypeArguments t) : List (WrittenType t) := v.children .type

def isDiamond (v : TypeArguments t) : Bool := v.count == 0

end TypeArguments

namespace ClassType

/-- The name as written, perhaps qualified. -/
def name (v : ClassType t) : Option String := v.image

def simpleName (v : ClassType t) : Option String := (name v).map lastSegment

def typeArguments (v : ClassType t) : Option (TypeArguments t) := v.child _

def isDiamond (v : ClassType t) : Bool := (typeArguments v).any TypeArguments.isDiamond

end ClassType

/-- The last dimension of a variable number of arguments is written `...`. -/
def ArrayTypeDim.isVarargs (v : ArrayTypeDim t) : Bool := v.image == some "..."

namespace ArrayDimensions

def dims (v : ArrayDimensions t) : List (ArrayTypeDim t) := v.children _

end ArrayDimensions

namespace ArrayType

def elementType (v : ArrayType t) : Option (WrittenType t) := v.child _

def dimensions (v : ArrayType t) : Option (ArrayDimensions t) := v.child _

def depth (v : ArrayType t) : Nat := (dimensions v).elim 0 View.count

def isVarargs (v : ArrayType t) : Except Absence Bool :=
  match dimensions v with
  | none => .ok false
  | some dims => return ArrayTypeDim.isVarargs (← dims.lastAs (.only .arrayTypeDim))

end ArrayType

/-- The type that a type node spells, without any resolution of names. Other nodes spell none. -/
def writtenType (t : Tree) (n : NodeId) : TypeInfo :=
  match t.kind n with
  | .primitiveType =>
    (((t.image n).bind Primitive.ofKeyword?).map TypeInfo.primitive).getD .unknown
  | .classType =>
    match t.image n with
    | none => .unknown
    | some name =>
      match _h : View.firstUnder t n (.only .typeArguments) with
      | none => .classType name []
      | some arguments =>
        .classType name ((View.allUnder t arguments.node .type).attach.map fun argument =>
          have := Tree.lt_of_mem_children (View.mem_of_allUnder argument.2)
          have := Tree.lt_of_mem_children (View.mem_of_firstUnder _h)
          writtenType t argument.1.node)
  | .arrayType =>
    match _h : View.firstUnder t n .type with
    | none => .unknown
    | some element =>
      have := Tree.lt_of_mem_children (View.mem_of_firstUnder _h)
      .nested ((View.firstUnder t n (.only .arrayDimensions)).elim 0 View.count)
        (writtenType t element.node)
  | _ => .unknown
termination_by t.size - n
decreasing_by all_goals omega

end JavaSyntax
