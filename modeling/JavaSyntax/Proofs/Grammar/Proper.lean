import JavaSyntax.Grammar.Declaration

namespace JavaSyntax

namespace Piece

/-- The tokens that stand in a node itself and not in a node below it. -/
def direct : List Piece → List (Token × Bool)
  | [] => []
  | .token t inImage :: ps => (t, inImage) :: direct ps
  | .node _ _ :: ps => direct ps

def isNode : Piece → Bool
  | .token _ _ => false
  | .node _ _ => true

/-- The token a rule was called for, which then stands first among the tokens of its node. -/
def opener? : Kind → Option Kind
  | .annotationUse => some .at
  | .ambiguousName | .classType => some .ident
  | .typeArguments => some .lt
  | .argumentList | .formalParameters => some .leftParen
  | .classBody | .block => some .leftBrace
  | .foreachStatement => some .forKw
  | .tryStatement => some .tryKw
  | .catchClause => some .catchKw
  | .methodReference => some .colonColon
  | _ => none

/-- The nodes whose first child tells what it stands for only once they are closed. -/
def isQualified (k : Kind) : Bool :=
  k == .methodReference || k == .classLiteral || k == .thisExpression

/-- What the grammar promises of each node. The qualifier in front of `::`, `.class` or `.this`
holds tokens, so it has a span of its own before its parent is closed. -/
structure Fits (k : Kind) (parts : List Piece) : Prop where
  node : k.isNode = true
  ne_tombstone : k ≠ .tombstone
  opened : ∀ o, opener? k = some o → ((direct parts).head?.map fun t => t.1.kind) = some o
  plain : k = .ambiguousName → ∀ p ∈ parts, p.isNode = false
  qualified : isQualified k = true → ∀ p, parts.find? isNode = some p → p.tokens ≠ []

mutual

/-- Every node of the piece is as the grammar promises. -/
def Proper : Piece → Prop
  | .token _ _ => True
  | .node k parts => Fits k parts ∧ AllProper parts

def AllProper : List Piece → Prop
  | [] => True
  | p :: ps => p.Proper ∧ AllProper ps

end

theorem tokensOfAll_append (ps qs : List Piece) :
    tokensOfAll (ps ++ qs) = tokensOfAll ps ++ tokensOfAll qs := by
  induction ps with
  | nil => rfl
  | cons p ps ih => simp only [List.cons_append, tokensOfAll, ih, List.append_assoc]

theorem direct_append (ps qs : List Piece) : direct (ps ++ qs) = direct ps ++ direct qs := by
  induction ps with
  | nil => rfl
  | cons p ps ih => cases p <;> simp [direct, ih]

end Piece

end JavaSyntax
