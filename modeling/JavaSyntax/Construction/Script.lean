import JavaSyntax.Draft.Rewrite

namespace JavaSyntax.Construction

/-- A node that a script names. Registers hold the results of earlier actions of the same call. -/
inductive Operand where
  | register (number : Nat)
  | self
  | child (position : Nat)

inductive Action where
  | info (node : Operand)
  | childAt (position : Nat)
  | synthesize (kind : Option Kind) (image : Option String) (start stop : Nat)
      (children : List Operand)
  | replace (position : Nat) (child : Operand)
  | wrap (position : Nat) (kind : Option Kind)
  | force (position : Nat)
  | unknown

structure Rule where
  kind : Option Kind
  actions : List Action

structure Script where
  rules : List Rule
  /-- Log every node before its rules are tried. -/
  trace : Bool
  /-- Apply the Java rules after those of the script. -/
  java : Bool

/-- What is wrong with a request itself. -/
inductive Fault where
  | kind
  | step
  | action
  | register
  | node
  | startAfterStop
  deriving DecidableEq

def Fault.message : Fault → String
  | .kind => "no such kind"
  | .step => "no such step"
  | .action => "no such action"
  | .register => "no such register"
  | .node => "unknown node"
  | .startAfterStop => "start after end"

/-- What a log says about a node. The count of children and the first child are known of the node
being closed only. -/
structure Info where
  id : DraftId
  kind : Kind
  image : Option String
  span : Span
  own : Option (Nat × Option DraftId)

inductive Entry where
  | info (info : Info)
  | made (id : DraftId)
  | fault (fault : Fault)

abbrev Log := List Entry

/-- A rewriting that stops at the first fault. -/
abbrev Scripted := ExceptT Fault (Rewrite Log)

def noteEntry (e : Entry) : Rewrite Log Unit := .note (· ++ [e])

def describe (self id : DraftId) : Rewrite Log Info := do
  let n ← .node id
  let own := if id = self then some (n.children.length, n.children.head?) else none
  pure ⟨id, n.kind, n.image, n.span.getD default, own⟩

def Operand.node (self : DraftId) (registers : List DraftId) : Operand → Scripted DraftId
  | .register i =>
    match registers[i]? with
    | none => throw .register
    | some id => pure id
  | .self => pure self
  | .child i => (Rewrite.childAt self i : Rewrite Log DraftId)

def checkedKind : Option Kind → Scripted Kind
  | none => throw .kind
  | some k => pure k

namespace Action

/-- The node an action makes or finds. Only `info` has none. -/
def result (self : DraftId) (registers : List DraftId) : Action → Scripted (Option DraftId)
  | .info node => do
    let id ← node.node self registers
    let about ← (describe self id : Rewrite Log Info)
    (noteEntry (.info about) : Rewrite Log Unit)
    pure none
  | .childAt i => some <$> (Rewrite.childAt self i : Rewrite Log DraftId)
  | .synthesize kind image start stop children =>
    match Span.ofBounds? start stop with
    | none => throw .startAfterStop
    | some span => do
      let ids ← children.mapM (Operand.node self registers)
      let kind ← checkedKind kind
      some <$> (Rewrite.made kind image span ids : Rewrite Log DraftId)
  | .replace i child => do
    let id ← child.node self registers
    some <$> (Rewrite.replaced i id : Rewrite Log DraftId)
  | .wrap i kind => do
    let kind ← checkedKind kind
    some <$> (Rewrite.wrapChild self i kind : Rewrite Log DraftId)
  | .force i => some <$> (Rewrite.forceType self i : Rewrite Log DraftId)
  | .unknown => throw .action

/-- Logs the result and keeps it in a new register. -/
def apply (self : DraftId) (registers : List DraftId) (a : Action) : Scripted (List DraftId) := do
  match ← a.result self registers with
  | none => pure registers
  | some id =>
    (noteEntry (.made id) : Rewrite Log Unit)
    pure (registers ++ [id])

end Action

namespace Script

def actionsFor (s : Script) (kind : Kind) : List Action :=
  (s.rules.filter (·.kind = some kind)).flatMap Rule.actions

def finalizer (s : Script) : Finalizer Log := fun self => do
  let n ← .node self
  if s.trace then noteEntry (.info (← describe self self))
  match ← ((s.actionsFor n.kind).foldlM (Action.apply self) []).run with
  | .error fault => noteEntry (.fault fault)
  | .ok _ => if s.java then Finalizer.disambiguate self

end Script

end JavaSyntax.Construction
