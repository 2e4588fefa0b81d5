import JavaSyntax.View.Declaration

namespace JavaSyntax

/-- The types found so far, by node. -/
structure Slots where
  typeOf : NodeId → Option TypeInfo

namespace Slots

def empty : Slots := ⟨fun _ => none⟩

def put (s : Slots) (n : NodeId) (ty : TypeInfo) : Slots :=
  ⟨fun m => if m = n then some ty else s.typeOf m⟩

end Slots

/-- What a request for a type led to: the type, and the node it had to be computed for, if any. -/
structure Resolved where
  type : TypeInfo
  computed : Option NodeId
  slots : Slots

namespace Tree

def isParameter (t : Tree) (n : NodeId) : Bool :=
  t.kind n = .formalParameter || t.kind n = .catchParameter

/-- The node whose slot answers for `n`. -/
def typeOwner (t : Tree) (n : NodeId) : NodeId :=
  if t.isParameter n then
    ((t.children n).find? (t.kind · = .variableDeclaratorId)).getD n
  else n

/-- The type of a node, which `resolve` computes when it is asked for first. -/
def typeInfo (t : Tree) (resolve : NodeId → TypeInfo) (s : Slots) (n : NodeId) : Resolved :=
  let owner := t.typeOwner n
  match s.typeOf owner with
  | some ty => ⟨ty, none, s⟩
  | none => ⟨resolve owner, some owner, s.put owner (resolve owner)⟩

def cachedType (t : Tree) (s : Slots) (n : NodeId) : Option TypeInfo := s.typeOf (t.typeOwner n)

/-- Stores a type, unless there is one. Parameters never hold a type of their own. -/
def setType (t : Tree) (s : Slots) (n : NodeId) (ty : TypeInfo) : Bool × Slots :=
  if t.isParameter n || (s.typeOf n).isSome then (false, s) else (true, s.put n ty)

end Tree

/-- The type that the text gives a node: a type node spells one, and a variable has the one of its
declaration. -/
def writtenTypeOf (t : Tree) (n : NodeId) : TypeInfo :=
  match View.of? t (.only .variableDeclaratorId) n with
  | some v => (VariableDeclaratorId.declaredType v).elim .unknown fun ty => writtenType t ty.node
  | none => writtenType t n

/-- Only some nodes have a type at all. -/
def hasType (k : Kind) : Bool :=
  Category.expr.contains k || Category.type.contains k ||
    ([.variableDeclaratorId, .formalParameter, .catchParameter] : List Kind).contains k

end JavaSyntax
