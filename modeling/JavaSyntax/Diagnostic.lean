import JavaSyntax.Span

namespace JavaSyntax

/-- A message about a part of a text. -/
structure Diagnostic where
  message : String
  span : Span
  deriving DecidableEq

end JavaSyntax
