import JavaSyntax.Builder
import JavaSyntax.Piece

namespace JavaSyntax

inductive Event where
  | start (kind : Kind)
  | token (token : Token) (inImage : Bool)
  | finish
  deriving DecidableEq

namespace Piece

mutual

def events : Piece → List Event
  | .token t inImage => [.token t inImage]
  | .node kind parts => .start kind :: eventsOfAll parts ++ [.finish]

def eventsOfAll : List Piece → List Event
  | [] => []
  | p :: ps => p.events ++ eventsOfAll ps

end

end Piece

/-- A construction driven by events: the nodes that are open, innermost first, and the first node
that was opened outside of any other. -/
structure Replay (σ : Type) where
  builder : Builder σ
  opened : List DraftId
  root : Option DraftId

namespace Replay

variable {σ : Type}

def fail {α : Type} (r : Replay σ) (m : Misuse) : Except (Failure σ) α :=
  .error ⟨m, r.builder.memory⟩

def step (r : Replay σ) : Event → Except (Failure σ) (Replay σ)
  | .start kind => do
    let (id, builder) ← r.builder.create kind
    match r.opened with
    | parent :: _ =>
      let builder ← builder.append parent id
      pure { r with builder, opened := id :: r.opened }
    | [] =>
      if r.root.isSome then r.fail .secondRoot
      else pure { builder, opened := [id], root := some id }
  | .token t inImage =>
    match r.opened with
    | [] => r.fail .looseToken
    | id :: _ => do
      let builder ← r.builder.extend id t.span
      let builder ← if inImage then builder.pushImage id t.text else pure builder
      pure { r with builder }
  | .finish =>
    match r.opened with
    | [] => r.fail .unbalancedFinish
    | id :: opened => do
      let builder ← r.builder.close id
      pure { r with builder, opened }

def finish (r : Replay σ) : Except (Failure σ) Tree :=
  match r.root with
  | none => r.fail .noRoot
  | some root => r.builder.finish root

end Replay

/-- Builds the tree that the events describe. The memory of the finalizer comes with it. -/
def buildTree {σ : Type} (text : String) (finalizer : Finalizer σ) (memory : σ)
    (events : List Event) : Except (Failure σ) (Tree × σ) := do
  let r ← events.foldlM Replay.step ⟨.start text finalizer memory, [], none⟩
  let tree ← r.finish
  pure (tree, r.builder.memory)

end JavaSyntax
