namespace JavaSyntax

/-- A list of characters split in two. Reading steps return one, so nothing read is ever lost. -/
structure Cut (cs : List Char) where
  taken : List Char
  rest : List Char
  taken_append_rest : taken ++ rest = cs

namespace Cut

/-- Nothing is taken. -/
def before (cs : List Char) : Cut cs := ⟨[], cs, rfl⟩

/-- One more character in front of what is taken. -/
def cons (c : Char) {cs : List Char} (cut : Cut cs) : Cut (c :: cs) :=
  ⟨c :: cut.taken, cut.rest, by simp [cut.taken_append_rest]⟩

/-- The second cut continues where the first one stopped. -/
def andThen {cs : List Char} (a : Cut cs) (b : Cut a.rest) : Cut cs :=
  ⟨a.taken ++ b.taken, b.rest, by
    rw [List.append_assoc, b.taken_append_rest, a.taken_append_rest]⟩

/-- Takes the longest run of characters that satisfy `p`. -/
def span (p : Char → Bool) (cs : List Char) : Cut cs :=
  ⟨cs.takeWhile p, cs.dropWhile p, List.takeWhile_append_dropWhile⟩

/-- Takes one character if it satisfies `p`. -/
def one (p : Char → Bool) : (cs : List Char) → Cut cs
  | [] => before []
  | c :: r => if p c then (before r).cons c else before (c :: r)

/-- The cut found, or none at all. -/
def orNothing {cs : List Char} (cut : Option (Cut cs)) : Cut cs := cut.getD (before cs)

@[simp, grind =] theorem rest_cons (c : Char) {cs : List Char} (cut : Cut cs) :
    (cut.cons c).rest = cut.rest := rfl

@[simp, grind =] theorem rest_andThen {cs : List Char} (a : Cut cs) (b : Cut a.rest) :
    (a.andThen b).rest = b.rest := rfl

theorem length_rest_le {cs : List Char} (cut : Cut cs) :
    cut.rest.length ≤ cs.length := by
  have h := congrArg List.length cut.taken_append_rest
  simp only [List.length_append] at h
  omega

grind_pattern length_rest_le => cut.rest

end Cut

end JavaSyntax
