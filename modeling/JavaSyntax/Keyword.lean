namespace JavaSyntax

inductive Modifier where
  | publicAccess
  | protectedAccess
  | privateAccess
  | static
  | final
  | abstract
  deriving DecidableEq

namespace Modifier

def all : List Modifier :=
  [.publicAccess, .protectedAccess, .privateAccess, .static, .final, .abstract]

def keyword : Modifier → String
  | .publicAccess => "public"
  | .protectedAccess => "protected"
  | .privateAccess => "private"
  | .static => "static"
  | .final => "final"
  | .abstract => "abstract"

def ofKeyword? (word : String) : Option Modifier := all.find? (·.keyword = word)

end Modifier

inductive Primitive where
  | boolean
  | byte
  | char
  | short
  | int
  | long
  | float
  | double
  deriving DecidableEq

namespace Primitive

def all : List Primitive := [.boolean, .byte, .char, .short, .int, .long, .float, .double]

def keyword : Primitive → String
  | .boolean => "boolean"
  | .byte => "byte"
  | .char => "char"
  | .short => "short"
  | .int => "int"
  | .long => "long"
  | .float => "float"
  | .double => "double"

def ofKeyword? (word : String) : Option Primitive := all.find? (·.keyword = word)

def isNumeric (p : Primitive) : Bool := p != .boolean

end Primitive

end JavaSyntax
