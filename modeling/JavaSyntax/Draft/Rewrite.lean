import JavaSyntax.Draft

namespace JavaSyntax

/-- What may happen to a node while it is closed, with a memory of type `σ` and a value of type `α` at the
end. It can look at any node but changes only the children of the node being closed. -/
inductive Rewrite (σ α : Type) where
  | done (value : α)
  | fail (misuse : Misuse)
  | recall (next : σ → Rewrite σ α)
  | remember (memory : σ) (next : Rewrite σ α)
  | inspect (id : DraftId) (next : DraftNode → Rewrite σ α)
  | synthesize (kind : Kind) (image : Option String) (span : Span) (children : List DraftId)
      (next : DraftId → Rewrite σ α)
  | replaceChild (position : Nat) (child : DraftId) (next : DraftId → Rewrite σ α)

/-- Why a construction stopped, and what its finalizer remembered up to then. -/
structure Failure (σ : Type) where
  misuse : Misuse
  memory : σ

namespace Rewrite

variable {σ α β : Type}

def bind : Rewrite σ α → (α → Rewrite σ β) → Rewrite σ β
  | .done a, f => f a
  | .fail m, _ => .fail m
  | .recall k, f => .recall fun s => (k s).bind f
  | .remember s k, f => .remember s (k.bind f)
  | .inspect id k, f => .inspect id fun n => (k n).bind f
  | .synthesize kind image span children k, f =>
    .synthesize kind image span children fun id => (k id).bind f
  | .replaceChild i c k, f => .replaceChild i c fun old => (k old).bind f

instance : Monad (Rewrite σ) where
  pure := .done
  bind := .bind

/-- Rewrites the children of `self`. -/
def run (self : DraftId) :
    Rewrite σ α → Draft → σ → Except (Failure σ) (α × Draft × σ)
  | .done a, d, s => .ok (a, d, s)
  | .fail m, _, s => .error ⟨m, s⟩
  | .recall k, d, s => (k s).run self d s
  | .remember s k, d, _ => k.run self d s
  | .inspect id k, d, s =>
    match d.node id with
    | .error m => .error ⟨m, s⟩
    | .ok n => (k n).run self d s
  | .synthesize kind image span children k, d, s =>
    match d.synthesize kind image span children with
    | .error m => .error ⟨m, s⟩
    | .ok (id, d) => (k id).run self d s
  | .replaceChild i c k, d, s =>
    match d.replaceChild self i c with
    | .error m => .error ⟨m, s⟩
    | .ok (old, d) => (k old).run self d s

def node (id : DraftId) : Rewrite σ DraftNode := .inspect id .done

/-- Changes the memory. -/
def note (f : σ → σ) : Rewrite σ Unit := .recall fun s => .remember (f s) (.done ())

def childAt (self : DraftId) (position : Nat) : Rewrite σ DraftId := do
  let n ← node self
  match entryAt n.children position with
  | .error e => .fail (.outOfRange e)
  | .ok c => pure c

def made (kind : Kind) (image : Option String) (span : Span) (children : List DraftId) :
    Rewrite σ DraftId :=
  .synthesize kind image span children .done

/-- Puts `child` at a position and returns the old child, which is then detached. -/
def replaced (position : Nat) (child : DraftId) : Rewrite σ DraftId :=
  .replaceChild position child .done

/-- Puts a new node between `self` and a child. A placeholder keeps the position while the child is
moved. -/
def wrapChild (self : DraftId) (position : Nat) (kind : Kind) : Rewrite σ DraftId := do
  let child ← childAt self position
  let span := (← node child).span.getD default
  let placeholder ← made .tombstone none span []
  let _ ← replaced position placeholder
  let wrapper ← made kind none span [child]
  let _ ← replaced position wrapper
  pure wrapper

/-- Reads an ambiguous name as a class type with the same name and span. -/
def forceType (self : DraftId) (position : Nat) : Rewrite σ DraftId := do
  let child ← childAt self position
  let name ← node child
  if name.kind ≠ .ambiguousName then .fail .notAmbiguous
  else
    let classType ← made .classType name.image (name.span.getD default) []
    let _ ← replaced position classType
    pure classType

end Rewrite

/-- What is done to each node when it is closed, and only then. -/
abbrev Finalizer (σ : Type) := DraftId → Rewrite σ Unit

namespace Finalizer

variable {σ : Type}

/-- Leaves every node as it is. -/
def inert : Finalizer σ := fun _ => pure ()

/-- `Outer.this` and `List::new` name a type in front of the point. -/
def qualifyByType (self : DraftId) : Rewrite σ Unit := do
  let _ ← Rewrite.forceType self 0
  let _ ← Rewrite.wrapChild self 0 .typeExpression

/-- The Java rules that settle what a name means by looking at its parent alone. Names they do not
reach stay ambiguous. -/
def disambiguate : Finalizer σ := fun self => do
  let n ← Rewrite.node self
  match n.children with
  | [] => pure ()
  | c :: _ =>
    let child ← Rewrite.node c
    let ambiguous := child.kind = .ambiguousName
    match n.kind with
    | .methodReference =>
      if ambiguous ∧ n.image = some "new" then qualifyByType self
      else if child.kind.isType then
        let _ ← Rewrite.wrapChild self 0 .typeExpression
      else pure ()
    | .classLiteral =>
      if ambiguous then
        let _ ← Rewrite.forceType self 0
      else pure ()
    | .thisExpression => if ambiguous then qualifyByType self else pure ()
    | _ => pure ()

end Finalizer

end JavaSyntax
