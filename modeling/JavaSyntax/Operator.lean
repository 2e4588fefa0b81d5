namespace JavaSyntax

inductive BinaryOperator where
  | or
  | and
  | eq
  | ne
  | lt
  | gt
  | le
  | ge
  | add
  | sub
  | mul
  | div
  | rem
  deriving DecidableEq

namespace BinaryOperator

def all : List BinaryOperator :=
  [.or, .and, .eq, .ne, .lt, .gt, .le, .ge, .add, .sub, .mul, .div, .rem]

def token : BinaryOperator → String
  | .or => "||"
  | .and => "&&"
  | .eq => "=="
  | .ne => "!="
  | .lt => "<"
  | .gt => ">"
  | .le => "<="
  | .ge => ">="
  | .add => "+"
  | .sub => "-"
  | .mul => "*"
  | .div => "/"
  | .rem => "%"

def ofToken? (token : String) : Option BinaryOperator := all.find? (·.token = token)

/-- Some operators make a `boolean` of operands of any type. -/
def isBoolean : BinaryOperator → Bool
  | .or | .and | .eq | .ne | .lt | .gt | .le | .ge => true
  | .add | .sub | .mul | .div | .rem => false

end BinaryOperator

inductive AssignmentOperator where
  | assign
  | addAssign
  | subAssign
  deriving DecidableEq

namespace AssignmentOperator

def all : List AssignmentOperator := [.assign, .addAssign, .subAssign]

def token : AssignmentOperator → String
  | .assign => "="
  | .addAssign => "+="
  | .subAssign => "-="

def ofToken? (token : String) : Option AssignmentOperator := all.find? (·.token = token)

def isCompound (o : AssignmentOperator) : Bool := o != .assign

end AssignmentOperator

inductive UnaryOperator where
  | not
  | neg
  deriving DecidableEq

namespace UnaryOperator

def all : List UnaryOperator := [.not, .neg]

def token : UnaryOperator → String
  | .not => "!"
  | .neg => "-"

def ofToken? (token : String) : Option UnaryOperator := all.find? (·.token = token)

end UnaryOperator

end JavaSyntax
