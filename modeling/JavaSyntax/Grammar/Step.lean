import JavaSyntax.Grammar.SyntaxError
import JavaSyntax.KindSet
import JavaSyntax.Piece

namespace JavaSyntax.Grammar

/-- The kind of the first token ahead; past the last token it is the end of the input. -/
def ahead : List Token → Kind
  | [] => .eof
  | t :: _ => t.kind

@[simp] theorem ahead_cons (t : Token) (ts : List Token) : ahead (t :: ts) = t.kind := rfl

/-- The outcome of a rule applied to `ts`. No rule gives back more tokens than it got, which ends every
recursion. -/
structure Step (ts : List Token) where
  parts : List Piece
  problems : List Problem
  rest : List Token
  length_rest_le : rest.length ≤ ts.length

namespace Step

grind_pattern length_rest_le => self.rest

/-- Nothing is read. -/
def idle (ts : List Token) : Step ts := ⟨[], [], ts, Nat.le_refl _⟩

/-- Nothing is read, and the first token ahead is not what was needed. -/
def report (error : SyntaxError) (ts : List Token) : Step ts :=
  { idle ts with problems := [⟨error, ts.head?⟩] }

/-- Reads the token `t` in front of what is read of `r`. -/
def lead (inImage : Bool) (t : Token) {r : List Token} (s : Step r) : Step r :=
  { s with parts := .token t inImage :: s.parts }

/-- The same outcome, seen from one token earlier. -/
def lift (t : Token) {r : List Token} (s : Step r) : Step (t :: r) :=
  { s with length_rest_le := Nat.le_succ_of_le s.length_rest_le }

/-- The same outcome, when it is known to go past some tokens. -/
def within {ts : List Token} (s : Step ts) (r : List Token) (h : s.rest.length ≤ r.length) :
    Step r :=
  { s with length_rest_le := h }

def bump (inImage : Bool) (t : Token) (r : List Token) : Step (t :: r) :=
  (lead inImage t (idle r)).lift t

/-- The second rule continues where the first one stopped. -/
def andThen {ts : List Token} (a : Step ts) (b : Step a.rest) : Step ts where
  parts := a.parts ++ b.parts
  problems := a.problems ++ b.problems
  rest := b.rest
  length_rest_le := Nat.le_trans b.length_rest_le a.length_rest_le

/-- A node around everything that was read. -/
def node {ts : List Token} (s : Step ts) (k : Kind) : Step ts :=
  { s with parts := [.node k s.parts] }

/-- Wraps a token that fits nowhere into an error node. -/
def skip (error : SyntaxError) (t : Token) (r : List Token) : Step r :=
  { (lead false t (idle r)).node .error with problems := [⟨error, some t⟩] }

/-- Reads a token of the given kind, or reports that it is missing. -/
def expect (k : Kind) : (ts : List Token) → Step ts
  | [] => report (.token k) []
  | t :: r => if t.kind = k then bump false t r else report (.token k) (t :: r)

@[simp, grind =] theorem rest_idle (ts : List Token) : (idle ts).rest = ts := rfl

@[simp, grind =] theorem rest_report (e : SyntaxError) (ts : List Token) :
    (report e ts).rest = ts := rfl

@[simp, grind =] theorem rest_lead (i : Bool) (t : Token) {r : List Token} (s : Step r) :
    (s.lead i t).rest = s.rest := rfl

@[simp, grind =] theorem rest_lift (t : Token) {r : List Token} (s : Step r) :
    (s.lift t).rest = s.rest := rfl

@[simp, grind =] theorem rest_within {ts : List Token} (s : Step ts) (r : List Token)
    (h : s.rest.length ≤ r.length) : (s.within r h).rest = s.rest := rfl

@[simp, grind =] theorem rest_bump (i : Bool) (t : Token) (r : List Token) :
    (bump i t r).rest = r := rfl

@[simp, grind =] theorem rest_andThen {ts : List Token} (a : Step ts) (b : Step a.rest) :
    (a.andThen b).rest = b.rest := rfl

@[simp, grind =] theorem rest_node {ts : List Token} (s : Step ts) (k : Kind) :
    (s.node k).rest = s.rest := rfl

@[simp, grind =] theorem rest_skip (e : SyntaxError) (t : Token) (r : List Token) :
    (skip e t r).rest = r := rfl

end Step

/-- The outcome of a rule for an operand or a type. `lead` is the kind of the node that starts what
was read; without it there was none, though an error node may have been read instead. -/
structure Operand (ts : List Token) extends Step ts where
  lead : Option Kind

namespace Operand

def missing {ts : List Token} (s : Step ts) : Operand ts := { s with lead := none }

/-- A node around everything that was read. -/
def found {ts : List Token} (s : Step ts) (k : Kind) : Operand ts :=
  { s.node k with lead := some k }

/-- Operands read before, with nothing after them. -/
def done (lead : Kind) (operand : List Piece) (ts : List Token) : Operand ts :=
  { Step.idle ts with parts := operand, lead := some lead }

/-- A node around operands read before and what follows them. -/
def around (operand : List Piece) {ts : List Token} (s : Step ts) (k : Kind) : Operand ts :=
  { s with parts := [.node k (operand ++ s.parts)], lead := some k }

/-- Goes on with what was made of an operand, whose own pieces it already contains. -/
def resume {ts : List Token} (a : Operand ts) (b : Operand a.rest) : Operand ts where
  parts := b.parts
  problems := a.problems ++ b.problems
  rest := b.rest
  length_rest_le := Nat.le_trans b.length_rest_le a.length_rest_le
  lead := b.lead

def lift (t : Token) {r : List Token} (s : Operand r) : Operand (t :: r) :=
  { s.toStep.lift t with lead := s.lead }

@[simp, grind =] theorem rest_missing {ts : List Token} (s : Step ts) :
    (missing s).rest = s.rest := rfl

@[simp, grind =] theorem rest_found {ts : List Token} (s : Step ts) (k : Kind) :
    (found s k).rest = s.rest := rfl

@[simp, grind =] theorem rest_done (k : Kind) (ps : List Piece) (ts : List Token) :
    (done k ps ts).rest = ts := rfl

@[simp, grind =] theorem rest_around (ps : List Piece) {ts : List Token} (s : Step ts) (k : Kind) :
    (around ps s k).rest = s.rest := rfl

@[simp, grind =] theorem rest_resume {ts : List Token} (a : Operand ts) (b : Operand a.rest) :
    (a.resume b).rest = b.rest := rfl

@[simp, grind =] theorem rest_lift (t : Token) {r : List Token} (s : Operand r) :
    (s.lift t).rest = s.rest := rfl

end Operand

end JavaSyntax.Grammar
