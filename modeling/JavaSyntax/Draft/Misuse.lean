import JavaSyntax.Kind
import JavaSyntax.OutOfRange
import JavaSyntax.Span

namespace JavaSyntax

/-- Steps that a tree under construction does not allow. -/
inductive Misuse where
  | tokenKind (kind : Kind)
  | alreadyClosed (kind : Kind)
  | ownChild
  | alreadyAttached (kind : Kind)
  | childOutOfRange (position count : Nat)
  | attachedReplacement
  | outOfRange (error : OutOfRange)
  | notAmbiguous
  | outsideText (span : Span)
  | openChild (kind child : Kind)
  | neverClosed (kind : Kind)
  | attachedRoot
  | secondRoot
  | unbalancedFinish
  | looseToken
  | noRoot
  deriving DecidableEq

def Misuse.message : Misuse → String
  | .tokenKind k => k.name ++ " is a token kind"
  | .alreadyClosed k => k.name ++ " node is already closed"
  | .ownChild => "a node cannot be its own child"
  | .alreadyAttached k => k.name ++ " node already has a parent"
  | .childOutOfRange i n =>
    "child index " ++ toString i ++ " out of range for a node with " ++ toString n ++ " children"
  | .attachedReplacement => "replacement node already has a parent"
  | .outOfRange e => e.message
  | .notAmbiguous => "only ambiguous names can be forced"
  | .outsideText s => "range " ++ s.toString ++ " is outside of the source text"
  | .openChild k c => "closing " ++ k.name ++ " while its " ++ c.name ++ " child is still open"
  | .neverClosed k => k.name ++ " node was never closed"
  | .attachedRoot => "the root node must not have a parent"
  | .secondRoot => "parser produced more than one root"
  | .unbalancedFinish => "unbalanced finish event"
  | .looseToken => "token outside of any node"
  | .noRoot => "parser produced no nodes"

end JavaSyntax
