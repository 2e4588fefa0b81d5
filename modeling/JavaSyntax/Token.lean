import JavaSyntax.Kind
import JavaSyntax.Span

namespace JavaSyntax

/-- A token carries its own text, so its end follows from its start. -/
structure Token where
  kind : Kind
  text : String
  start : Nat
  deriving DecidableEq

namespace Token

def span (t : Token) : Span := .ofLength t.start t.text.utf8ByteSize

def stop (t : Token) : Nat := t.start + t.text.utf8ByteSize

/-- The end of the input as a token without text. -/
def endOfInput (offset : Nat) : Token := ⟨.eof, "", offset⟩

end Token

end JavaSyntax
