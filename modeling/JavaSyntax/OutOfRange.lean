namespace JavaSyntax

/-- A position that a list of some length does not have. -/
structure OutOfRange where
  count : Nat
  position : Nat
  deriving DecidableEq

namespace OutOfRange

def message (e : OutOfRange) : String :=
  "index out of bounds: the len is " ++ toString e.count ++ " but the index is " ++
    toString e.position

end OutOfRange

/-- The entry at a position that should exist. -/
def entryAt {α : Type} (entries : List α) (position : Nat) : Except OutOfRange α :=
  match entries[position]? with
  | none => .error ⟨entries.length, position⟩
  | some a => .ok a

end JavaSyntax
