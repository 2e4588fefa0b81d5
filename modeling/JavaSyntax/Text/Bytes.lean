import JavaSyntax.Span

namespace JavaSyntax.Text

/-- The number of bytes in the UTF-8 form. -/
def utf8Length : List Char → Nat
  | [] => 0
  | c :: cs => c.utf8Size + utf8Length cs

/-- What follows the first bytes, unless they end inside a character or there are too few. -/
def dropBytes : Nat → List Char → Option (List Char)
  | 0, cs => some cs
  | _ + 1, [] => none
  | n + 1, c :: cs => if n + 1 < c.utf8Size then none else dropBytes (n + 1 - c.utf8Size) cs

/-- The first bytes, unless they end inside a character or there are too few. -/
def takeBytes : Nat → List Char → Option (List Char)
  | 0, _ => some []
  | _ + 1, [] => none
  | n + 1, c :: cs =>
    if n + 1 < c.utf8Size then none else (takeBytes (n + 1 - c.utf8Size) cs).map (c :: ·)

/-- The part of a text inside a span, unless the span leaves the text or cuts a character. -/
def slice? (text : String) (span : Span) : Option String :=
  ((dropBytes span.start text.toList).bind (takeBytes span.length)).map String.ofList

theorem utf8Length_append (as bs : List Char) :
    utf8Length (as ++ bs) = utf8Length as + utf8Length bs := by
  induction as with
  | nil => simp [utf8Length]
  | cons a as ih => simp only [List.cons_append, utf8Length, ih, Nat.add_assoc]

end JavaSyntax.Text
