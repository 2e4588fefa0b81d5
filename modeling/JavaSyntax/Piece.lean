import JavaSyntax.Token

namespace JavaSyntax

/-- What the grammar makes of a run of tokens: the tokens themselves and the nodes around them.
A token marked `inImage` adds its text to the payload of the node it stands in. -/
inductive Piece where
  | token (token : Token) (inImage : Bool)
  | node (kind : Kind) (parts : List Piece)

namespace Piece

def kind : Piece → Kind
  | .token t _ => t.kind
  | .node k _ => k

mutual

/-- The tokens under a piece, in source order. -/
def tokens : Piece → List Token
  | .token t _ => [t]
  | .node _ parts => tokensOfAll parts

def tokensOfAll : List Piece → List Token
  | [] => []
  | p :: ps => p.tokens ++ tokensOfAll ps

end

end Piece

end JavaSyntax
