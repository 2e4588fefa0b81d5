import JavaSyntax.Keyword

namespace JavaSyntax

/-- The type of a node. `unknown` is an ordinary answer: a class may not be at hand. -/
inductive TypeInfo where
  | unknown
  | void
  | null
  | primitive (primitive : Primitive)
  | classType (name : String) (arguments : List TypeInfo)
  | array (element : TypeInfo) (dimensions : Nat)

namespace TypeInfo

mutual

def same : TypeInfo → TypeInfo → Bool
  | .unknown, .unknown | .void, .void | .null, .null => true
  | .primitive p, .primitive q => p == q
  | .classType n as, .classType m bs => n == m && sameAll as bs
  | .array a n, .array b m => n == m && same a b
  | _, _ => false

def sameAll : List TypeInfo → List TypeInfo → Bool
  | [], [] => true
  | a :: as, b :: bs => same a b && sameAll as bs
  | _, _ => false

end

mutual

theorem same_iff : (a b : TypeInfo) → (same a b ↔ a = b)
  | .classType n as, b => by
    cases b <;> simp [same]
    rw [sameAll_iff as]
    simp
  | .array a n, b => by
    cases b <;> simp [same]
    rw [same_iff a]
    simp [and_comm]
  | .unknown, b => by cases b <;> simp [same]
  | .void, b => by cases b <;> simp [same]
  | .null, b => by cases b <;> simp [same]
  | .primitive p, b => by cases b <;> simp [same]

theorem sameAll_iff : (as bs : List TypeInfo) → (sameAll as bs ↔ as = bs)
  | [], bs => by cases bs <;> simp [sameAll]
  | a :: as, bs => by
    cases bs <;> simp [sameAll]
    rw [same_iff a, sameAll_iff as]

end

instance : DecidableEq TypeInfo := fun a b => decidable_of_iff _ (same_iff a b)

def isUnknown (t : TypeInfo) : Bool := t = .unknown

def isArray : TypeInfo → Bool
  | .array .. => true
  | _ => false

/-- Arrays of arrays are one array with more dimensions. -/
def nested (dimensions : Nat) : TypeInfo → TypeInfo
  | .array element inner => .array element (inner + dimensions)
  | element => if dimensions = 0 then element else .array element dimensions

/-- The number of dimensions is a 32-bit word. -/
def dimensionLimit : Nat := 0x100000000

/-- An array of this type, unless there would be too many dimensions. -/
def arrayOf? (t : TypeInfo) (dimensions : Nat) : Option TypeInfo :=
  match nested dimensions t with
  | .array element n => if n < dimensionLimit then some (.array element n) else none
  | element => some element

mutual

/-- The type as it is written in source, except that an unknown type is `?`. -/
def written : TypeInfo → String
  | .unknown => "?"
  | .void => "void"
  | .null => "null"
  | .primitive p => p.keyword
  | .classType name [] => name
  | .classType name (a :: as) => name ++ "<" ++ written a ++ writtenMore as ++ ">"
  | .array element dimensions =>
    written element ++ String.join (List.replicate dimensions "[]")

def writtenMore : List TypeInfo → String
  | [] => ""
  | a :: as => ", " ++ written a ++ writtenMore as

end

end TypeInfo

end JavaSyntax
