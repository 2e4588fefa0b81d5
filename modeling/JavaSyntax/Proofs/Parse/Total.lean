import JavaSyntax.Proofs.Event.Built
import JavaSyntax.Proofs.Grammar.DeclarationReads
import JavaSyntax.Proofs.Token.Order

namespace JavaSyntax

open Grammar

/-- The token that an event carries. -/
def Event.token? : Event → Option Token
  | .token t _ => some t
  | _ => none

namespace Piece

mutual

theorem tokens_events : ∀ p : Piece, p.events.filterMap Event.token? = p.tokens
  | .token _ _ => rfl
  | .node _ parts => by
    rw [events, List.filterMap_append, List.filterMap_cons]
    simp [Event.token?, tokens_eventsOfAll parts, tokens]

theorem tokens_eventsOfAll : ∀ ps : List Piece,
    (eventsOfAll ps).filterMap Event.token? = tokensOfAll ps
  | [] => rfl
  | p :: ps => by
    rw [eventsOfAll, List.filterMap_append, tokens_events p, tokens_eventsOfAll ps, tokensOfAll]

end

/-- The pieces are as their rules promise, and their events carry every token but the end of the
input, each once and in order. -/
structure Records (text : String) (parts : List Piece) : Prop where
  proper : AllProper parts
  tokens : (eventsOfAll parts).filterMap Event.token? =
    (tokenize text).filter fun t => t.kind ≠ .eof

/-- A node that holds all tokens of a text, each once and in order, and is proper throughout. -/
structure Holds (text : String) (k : Kind) (parts : List Piece) : Prop where
  proper : (Piece.node k parts).Proper
  tokens : tokensOfAll parts = significantTokens text

theorem Holds.records {text : String} {k : Kind} {parts : List Piece} (h : Holds text k parts) :
    Records text [.node k parts] := by
  refine ⟨⟨h.proper, trivial⟩, ?_⟩
  rw [tokens_eventsOfAll, ← significantTokens_eq_filter, ← h.tokens]
  simp [tokensOfAll, Piece.tokens]

end Piece

/-- The parts of the node for a whole file. -/
def fileParts (text : String) : List Piece := (classDeclarations (significantTokens text)).parts

/-- The parts of the node for a single expression and what follows it. -/
def expressionParts (text : String) : List Piece :=
  let value := (expr (significantTokens text)).toStep
  (value.andThen (unexpectedRest value.rest)).parts

theorem parts_compilationUnit (text : String) :
    (compilationUnit (significantTokens text)).parts = [.node .compilationUnit (fileParts text)] :=
  rfl

theorem parts_loneExpression (text : String) :
    (loneExpression (significantTokens text)).parts =
      [.node .expressionStatement (expressionParts text)] :=
  rfl

theorem holds_fileParts (text : String) : Piece.Holds text .compilationUnit (fileParts text) := by
  have h := reads_compilationUnit (significantTokens text)
  have ht := h.tokens_eq
  rw [rest_compilationUnit, parts_compilationUnit] at ht
  refine ⟨h.parts_sound.proper.1, ?_⟩
  simpa [Piece.tokensOfAll, Piece.tokens] using ht

theorem holds_expressionParts (text : String) :
    Piece.Holds text .expressionStatement (expressionParts text) := by
  have h := reads_loneExpression (significantTokens text)
  have ht := h.tokens_eq
  rw [rest_loneExpression, parts_loneExpression] at ht
  refine ⟨h.parts_sound.proper.1, ?_⟩
  simpa [Piece.tokensOfAll, Piece.tokens] using ht

theorem Text.Cuts.le_utf8ByteSize {text : String} {o : Nat} (h : Text.Cuts 0 text.toList o) :
    o ≤ text.utf8ByteSize := by
  have := h.le
  rwa [Nat.zero_add, ← Text.utf8ByteSize_eq] at this

theorem stop_le_of_mem {text : String} {t : Token} (h : t ∈ significantTokens text) :
    t.span.stop ≤ text.utf8ByteSize :=
  ((significantTokens_covers text).cuts t h).2.le_utf8ByteSize

section

variable {σ : Type} {f : Finalizer σ} {g : Sprout → Sprout} {G : Branch → Branch}

/-- The tree of a step that makes one node of the whole text. -/
theorem Grammar.Step.parse_node (hf : f.Implements g) (hg : Sprout.Local g G) (text : String) (m : σ)
    {ts : List Token} {s : Step ts} {k : Kind} {parts : List Piece} (hs : s.parts = [.node k parts])
    (h : Piece.Holds text k parts) :
    s.parse text f m = .ok (⟨.ofBranch text ((Piece.tree k parts).rebuilt G),
      s.problems.map (Problem.diagnostic text)⟩, m) := by
  have hbuild := buildTree_proper hf hg text m h.proper fun t ht => stop_le_of_mem (h.tokens ▸ ht)
  rw [Step.parse, hs, hbuild]
  rfl

/-- The tree of a file with a finalizer of one's own. -/
theorem parseWith_eq (hf : f.Implements g) (hg : Sprout.Local g G) (text : String) (m : σ) :
    parseWith text f m =
      .ok (⟨.ofBranch text ((Piece.tree .compilationUnit (fileParts text)).rebuilt G),
        (compilationUnit (significantTokens text)).problems.map (Problem.diagnostic text)⟩, m) :=
  Step.parse_node hf hg text m (parts_compilationUnit text) (holds_fileParts text)

end

theorem parseWith_inert (text : String) : parseWith text .inert () =
    .ok (⟨.ofBranch text (Piece.tree .compilationUnit (fileParts text)),
      (compilationUnit (significantTokens text)).problems.map (Problem.diagnostic text)⟩, ()) := by
  rw [parseWith_eq Finalizer.inert_implements Sprout.local_id text (), Branch.rebuilt_id]

theorem parse_eq (text : String) : parse text =
    .ok ⟨.ofBranch text (Piece.tree .compilationUnit (fileParts text)).disambiguated,
      (compilationUnit (significantTokens text)).problems.map (Problem.diagnostic text)⟩ := by
  rw [parse, parseWith_eq Finalizer.disambiguate_implements Sprout.local_disambiguate text ()]
  rfl

theorem parse_eq_of_no_problems (text : String)
    (h : (compilationUnit (significantTokens text)).problems = []) :
    parse text = .ok ⟨.ofBranch text (Piece.tree .compilationUnit (fileParts text)).disambiguated, []⟩ := by
  rw [parse_eq, h]
  rfl

theorem parseExpression_eq (text : String) : parseExpression text =
    .ok ⟨.ofBranch text (Piece.tree .expressionStatement (expressionParts text)).disambiguated,
      (loneExpression (significantTokens text)).problems.map (Problem.diagnostic text)⟩ := by
  rw [parseExpression, Step.parse_node Finalizer.disambiguate_implements Sprout.local_disambiguate text ()
    (parts_loneExpression text) (holds_expressionParts text)]
  rfl

end JavaSyntax
