import JavaSyntax.Draft.Rewrite
import JavaSyntax.Tree

namespace JavaSyntax

/-- The construction of one tree: its draft, the text it stands for, and what is done to nodes as
they close. -/
structure Builder (σ : Type) where
  text : String
  finalizer : Finalizer σ
  draft : Draft
  memory : σ

namespace Builder

variable {σ : Type}

def start (text : String) (finalizer : Finalizer σ) (memory : σ) : Builder σ :=
  ⟨text, finalizer, .empty, memory⟩

/-- A step that concerns the draft alone. -/
def onDraft (b : Builder σ) (step : Draft → Except Misuse Draft) :
    Except (Failure σ) (Builder σ) :=
  match step b.draft with
  | .error m => .error ⟨m, b.memory⟩
  | .ok draft => .ok { b with draft }

def node (b : Builder σ) (id : DraftId) : Except (Failure σ) DraftNode :=
  (b.draft.node id).mapError (⟨·, b.memory⟩)

def create (b : Builder σ) (kind : Kind) : Except (Failure σ) (DraftId × Builder σ) :=
  if kind.isNode then
    let (id, draft) := b.draft.create kind
    .ok (id, { b with draft })
  else .error ⟨.tokenKind kind, b.memory⟩

def append (b : Builder σ) (parent child : DraftId) : Except (Failure σ) (Builder σ) :=
  b.onDraft (·.append parent child)

def setImage (b : Builder σ) (id : DraftId) (image : String) : Except (Failure σ) (Builder σ) :=
  b.onDraft (·.setImage id image)

def pushImage (b : Builder σ) (id : DraftId) (text : String) : Except (Failure σ) (Builder σ) :=
  b.onDraft (·.pushImage id text)

/-- Records a token of the text in an open node. -/
def extend (b : Builder σ) (id : DraftId) (span : Span) : Except (Failure σ) (Builder σ) :=
  if span.stop ≤ b.text.utf8ByteSize then b.onDraft (·.extend id span)
  else .error ⟨.outsideText span, b.memory⟩

/-- Closes a node and finalizes it. A node that is closed already stays as it is. -/
def close (b : Builder σ) (id : DraftId) : Except (Failure σ) (Builder σ) := do
  let n ← b.node id
  if n.phase ≠ .opened then pure b
  else
    let b ← b.onDraft (·.startClosing id n)
    let ((), draft, memory) ← (b.finalizer id).run id b.draft b.memory
    pure { b with draft := draft.endClosing id, memory }

/-- Everything below `root` as a finished tree. Detached nodes are dropped. -/
def finish (b : Builder σ) (root : DraftId) : Except (Failure σ) Tree := do
  let n ← b.node root
  if n.parent.isSome then throw ⟨.attachedRoot, b.memory⟩
  let branch ← ((b.draft.placePending b.draft.lastEnd).branch root).mapError (⟨·, b.memory⟩)
  pure (.ofBranch b.text branch)

end Builder

end JavaSyntax
