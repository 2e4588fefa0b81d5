import JavaSyntax.Kind
import JavaSyntax.Span
import JavaSyntax.Text.Quoted

namespace JavaSyntax

/-- A finished node with everything below it. -/
structure Branch where
  kind : Kind
  image : Option String
  span : Span
  children : List Branch

namespace Branch

mutual

def size : Branch → Nat
  | ⟨_, _, _, children⟩ => sizeOfAll children + 1

def sizeOfAll : List Branch → Nat
  | [] => 0
  | b :: bs => b.size + sizeOfAll bs

end

/-- The node as `KIND@start..stop`. -/
def label (kind : Kind) (span : Span) : String := kind.name ++ "@" ++ span.toString

def line (depth : Nat) (kind : Kind) (image : Option String) (span : Span) : String :=
  String.ofList (List.replicate (2 * depth) ' ') ++ label kind span ++
    (match image with
      | none => ""
      | some text => " " ++ Text.quote text) ++ "\n"

mutual

/-- One line for each node, indented by its depth. -/
def dumpAt (depth : Nat) : Branch → String
  | ⟨kind, image, span, children⟩ => line depth kind image span ++ dumpAllAt (depth + 1) children

def dumpAllAt (depth : Nat) : List Branch → String
  | [] => ""
  | b :: bs => b.dumpAt depth ++ dumpAllAt depth bs

end

def dump (b : Branch) : String := b.dumpAt 0

end Branch

end JavaSyntax
