import JavaSyntax.Diagnostic
import JavaSyntax.Event
import JavaSyntax.Grammar.Declaration
import JavaSyntax.Token.Reader

namespace JavaSyntax

/-- A finished tree with the errors found on the way, in the order they were found. -/
structure Parse where
  tree : Tree
  errors : List Diagnostic

namespace Parse

def hasErrors (p : Parse) : Bool := !p.errors.isEmpty

def dump (p : Parse) : String :=
  p.tree.dump ++ "Errors:\n" ++
    String.join (p.errors.map fun e => "  " ++ e.span.toString ++ " " ++ e.message ++ "\n")

end Parse

/-- What the grammar reads, which is everything but the mark of the end. -/
def significantTokens (text : String) : List Token := (tokenize text).dropLast

/-- An error at the end of the input stands at the end of the text. -/
def Grammar.Problem.diagnostic (text : String) (p : Problem) : Diagnostic :=
  ⟨p.error.message, (p.found.map Token.span).getD (.empty text.utf8ByteSize)⟩

namespace Grammar

/-- Builds the tree that a rule made of the text. -/
def Step.parse {σ : Type} {ts : List Token} (s : Step ts) (text : String) (finalizer : Finalizer σ)
    (memory : σ) : Except (Failure σ) (Parse × σ) := do
  let (tree, memory) ← buildTree text finalizer memory (Piece.eventsOfAll s.parts)
  pure (⟨tree, s.problems.map (Problem.diagnostic text)⟩, memory)

end Grammar

/-- Reads a whole file with a finalizer of one's own. -/
def parseWith {σ : Type} (text : String) (finalizer : Finalizer σ) (memory : σ) :
    Except (Failure σ) (Parse × σ) :=
  (Grammar.compilationUnit (significantTokens text)).parse text finalizer memory

/-- Reads a whole file. -/
def parse (text : String) : Except Misuse Parse :=
  ((parseWith text .disambiguate ()).map Prod.fst).mapError Failure.misuse

/-- Reads a single expression. -/
def parseExpression (text : String) : Except Misuse Parse :=
  let step := Grammar.loneExpression (significantTokens text)
  ((step.parse text .disambiguate ()).map Prod.fst).mapError Failure.misuse

end JavaSyntax
