import JavaSyntax.Proofs.Grammar.Extent
import JavaSyntax.Proofs.Recording.Declaration

namespace JavaSyntax

open Grammar Recorder

namespace Recording

variable {text : String} {rule : Nat → Recording Unit} {s : Step (significantTokens text)} {k : Kind}
  {parts : List Piece}

end Recording

end JavaSyntax
