import JavaSyntax.Builder
import JavaSyntax.Construction.Script

namespace JavaSyntax.Construction

inductive Command where
  | create (kind : Option Kind)
  | append (parent child : DraftId)
  | setImage (id : DraftId) (image : String)
  | pushImage (id : DraftId) (text : String)
  | extend (id : DraftId) (start stop : Nat)
  | close (id : DraftId)
  | childAt (id : DraftId) (position : Nat)
  | parent (id : DraftId)
  | state (id : DraftId)
  | logged
  | finish (id : DraftId)
  | unknown

/-- The nodes a command names, in the order in which they are checked. -/
def Command.operands : Command → List DraftId
  | .append p c => [p, c]
  | .setImage id _ | .pushImage id _ | .extend id _ _ | .close id | .childAt id _ | .parent id
  | .state id | .finish id => [id]
  | .create _ | .logged | .unknown => []

/-- What happens to nodes as they close. -/
inductive Plan where
  | java
  | inert
  | script (script : Script)

namespace Plan

def finalizer : Plan → Finalizer Log
  | .java => .disambiguate
  | .inert => .inert
  | .script s => s.finalizer

def keepsLog : Plan → Bool
  | .script _ => true
  | _ => false

end Plan

inductive Answer where
  | nothing
  | id (id : DraftId)
  | parent (id : Option DraftId)
  | state (node : DraftNode)
  | logged (count : Option Nat)
  | finished (tree : Tree)

inductive Trouble where
  | fault (fault : Fault)
  | misuse (misuse : Misuse)

/-- A construction under way. Only nodes that an answer has named can be used in commands. -/
structure Session where
  plan : Plan
  builder : Builder Log
  known : List DraftId

/-- A trouble, and the log up to it. -/
structure Stop where
  trouble : Trouble
  log : Log

namespace Session

def start (text : String) (plan : Plan) : Session := ⟨plan, .start text plan.finalizer [], []⟩

def fault {α : Type} (s : Session) (f : Fault) : Except Stop α :=
  .error ⟨.fault f, s.builder.memory⟩

/-- What a construction step says when it fails. -/
def guarded {α : Type} : Except (Failure Log) α → Except Stop α
  | .ok a => .ok a
  | .error f => .error ⟨.misuse f.misuse, f.memory⟩

/-- Takes a step without an answer. -/
def silently (s : Session) (step : Except (Failure Log) (Builder Log)) :
    Except Stop (Answer × Session) := do
  let builder ← guarded step
  pure (.nothing, { s with builder })

def learn (s : Session) (ids : List DraftId) : Session := { s with known := ids ++ s.known }

/-- The answer to a command whose nodes are known. -/
def answer (s : Session) : Command → Except Stop (Answer × Session)
  | .create none => s.fault .kind
  | .create (some kind) => do
    let (id, builder) ← guarded (s.builder.create kind)
    pure (.id id, { s with builder }.learn [id])
  | .append p c => s.silently (s.builder.append p c)
  | .setImage id image => s.silently (s.builder.setImage id image)
  | .pushImage id text => s.silently (s.builder.pushImage id text)
  | .extend id start stop =>
    match Span.ofBounds? start stop with
    | none => s.fault .startAfterStop
    | some span => s.silently (s.builder.extend id span)
  | .close id => s.silently (s.builder.close id)
  | .childAt id i => do
    let n ← guarded (s.builder.node id)
    match entryAt n.children i with
    | .error e => .error ⟨.misuse (.outOfRange e), s.builder.memory⟩
    | .ok c => pure (.id c, s.learn [c])
  | .parent id => do
    let n ← guarded (s.builder.node id)
    pure (.parent n.parent, s.learn n.parent.toList)
  | .state id => do
    let n ← guarded (s.builder.node id)
    pure (.state n, s.learn n.children)
  | .logged =>
    pure (.logged (if s.plan.keepsLog then some s.builder.memory.length else none), s)
  | .finish id => do
    let tree ← guarded (s.builder.finish id)
    pure (.finished tree, s)
  | .unknown => s.fault .step

def perform (s : Session) (c : Command) : Except Stop (Answer × Session) :=
  if c.operands.all s.known.contains then s.answer c else s.fault .node

end Session

/-- What a program led to. Without a trouble at the end all answers are there. -/
structure Outcome where
  answers : List Answer
  trouble : Option Trouble
  log : Log

namespace Outcome

def cons (a : Answer) (o : Outcome) : Outcome := { o with answers := a :: o.answers }

/-- The tree, if the program finished one. -/
def tree? (o : Outcome) : Option Tree :=
  match o.answers.getLast? with
  | some (.finished t) => some t
  | _ => none

end Outcome

def Session.run (s : Session) : List Command → Outcome
  | [] => ⟨[], none, s.builder.memory⟩
  | c :: cs =>
    match s.perform c with
    | .error stop => ⟨[], some stop.trouble, stop.log⟩
    | .ok (.finished tree, s) => ⟨[.finished tree], none, s.builder.memory⟩
    | .ok (a, s) => (s.run cs).cons a

/-- Runs a program on a text. -/
def run (text : String) (plan : Plan) (program : List Command) : Outcome :=
  (Session.start text plan).run program

end JavaSyntax.Construction
