namespace JavaSyntax.Text

/-- The parts between the occurrences of a separator. There is one part more than there are
separators, so an empty list has one empty part. -/
def split (separator : Char) : List Char → List (List Char)
  | [] => [[]]
  | c :: cs =>
    if c = separator then [] :: split separator cs
    else
      match split separator cs with
      | [] => [[c]]
      | part :: parts => (c :: part) :: parts

def splitText (separator : Char) (text : String) : List String :=
  (split separator text.toList).map String.ofList

theorem split_of_not_mem {separator : Char} {cs : List Char} (h : separator ∉ cs) :
    split separator cs = [cs] := by
  induction cs with
  | nil => rfl
  | cons c cs ih =>
    rw [List.mem_cons, not_or] at h
    rw [split, if_neg (Ne.symm h.1), ih h.2]

/-- The first part ends at the first separator. -/
theorem split_append {separator : Char} {cs : List Char} (h : separator ∉ cs) (r : List Char) :
    split separator (cs ++ separator :: r) = cs :: split separator r := by
  induction cs with
  | nil => rw [List.nil_append, split, if_pos rfl]
  | cons c cs ih =>
    rw [List.mem_cons, not_or] at h
    rw [List.cons_append, split, if_neg (Ne.symm h.1), ih h.2]

/-- A position as line and byte column, both from zero. -/
structure LineColumn where
  line : Nat
  column : Nat
  deriving DecidableEq

namespace LineColumn

/-- Walks some bytes on from a known position. There is no answer inside a character or past the
end. -/
def advance : Nat → List Char → LineColumn → Option LineColumn
  | 0, _, place => some place
  | _ + 1, [], _ => none
  | n + 1, c :: cs, place =>
    if n + 1 < c.utf8Size then none
    else
      advance (n + 1 - c.utf8Size) cs
        (if c = '\n' then ⟨place.line + 1, 0⟩ else ⟨place.line, place.column + c.utf8Size⟩)

def ofOffset? (text : String) (offset : Nat) : Option LineColumn :=
  advance offset text.toList ⟨0, 0⟩

end LineColumn

/-- A carriage return before a newline belongs to the end of the line. -/
def dropReturn (line : List Char) : List Char :=
  if line.getLast? = some '\r' then line.dropLast else line

/-- The lines among the parts between newlines. What follows the last newline counts only when it is
not empty. -/
def closeLines : List (List Char) → List (List Char)
  | [] => []
  | [last] => if last.isEmpty then [] else [last]
  | part :: parts => dropReturn part :: closeLines parts

/-- The lines without their ends. -/
def lines (cs : List Char) : List (List Char) := closeLines (split '\n' cs)

end JavaSyntax.Text
