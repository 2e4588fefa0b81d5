import JavaSyntax.Recorder

namespace JavaSyntax

open Grammar Recorder

/-- A rule of the grammar at work on a record. It can be at fault. How deep rules that call each other may go is
bounded, and there is no outcome where they would go deeper. -/
abbrev Recording (α : Type) := StateT Recorder (ExceptT Fault Option) α

namespace Recording

variable {α : Type}

def tooDeep : Recording α := fun _ => ExceptT.mk none

def use (f : Recorder → Except Fault (α × Recorder)) : Recording α := fun r => ExceptT.mk (some (f r))

/-- The kind of the token this far ahead; past the last token it is the end of the input. -/
def kindAt (distance : Nat) : Recording Kind :=
  use fun r => .ok (ahead (r.ahead.drop distance), r)

def isAt (k : Kind) : Recording Bool := return (← kindAt 0) == k

def isAtAny (ks : KindSet) : Recording Bool := return ks.contains (← kindAt 0)

/-- A rule is only used at a token that it starts with. -/
def assertAt (distance : Nat) (expected : Kind) : Recording Unit :=
  use fun r =>
    let found := ahead (r.ahead.drop distance)
    if found = expected then .ok ((), r) else .error (.assertion expected found)

def bump (inImage : Bool) : Recording Unit := use fun r => .ok ((), r.bump inImage)

def report (error : SyntaxError) : Recording Unit := use fun r => .ok ((), r.error error.message)

def skip (error : SyntaxError) : Recording Unit :=
  use fun r => (r.errorAndBump error.message).map fun r => ((), r)

def start : Recording Marker := use fun r => .ok r.start

def complete (m : Marker) (kind : Kind) : Recording CompletedMarker := use fun r => r.complete m kind

def precede (c : CompletedMarker) : Recording Marker := use fun r => r.precede c

def eat (k : Kind) : Recording Bool := do
  let found ← isAt k
  if found then bump false
  return found

def expect (k : Kind) : Recording Unit := do
  unless ← eat k do report (.token k)

end Recording

end JavaSyntax
