import JavaSyntax.Kind

namespace JavaSyntax

/-- A set of kinds packed into two 64-bit words, one bit per kind. -/
structure KindSet where
  low : UInt64
  high : UInt64
  deriving DecidableEq

namespace KindSet

def empty : KindSet := ⟨0, 0⟩

def word (s : KindSet) : Fin 2 → UInt64
  | 0 => s.low
  | 1 => s.high

def setWord (s : KindSet) : Fin 2 → UInt64 → KindSet
  | 0, w => { s with low := w }
  | 1, w => { s with high := w }

/-- The bit of a kind inside its word. -/
def mask (k : Kind) : UInt64 := 1 <<< (k.number % 64).toUInt64

/-- The word of a kind and its bit there. The words are too few for a kind without a place. -/
def locate? (k : Kind) : Option (Fin 2 × UInt64) :=
  if h : k.number / 64 < 2 then some (⟨k.number / 64, h⟩, mask k) else none

def insert? (s : KindSet) (k : Kind) : Option KindSet :=
  (locate? k).map fun (slot, mask) => s.setWord slot (s.word slot ||| mask)

def ofList? (ks : List Kind) : Option KindSet := ks.foldlM insert? empty

def contains? (s : KindSet) (k : Kind) : Option Bool :=
  (locate? k).map fun (slot, mask) => s.word slot &&& mask != 0

def ofList (ks : List Kind) : KindSet := (ofList? ks).getD empty

def union (s t : KindSet) : KindSet := ⟨s.low ||| t.low, s.high ||| t.high⟩

def contains (s : KindSet) (k : Kind) : Bool := (s.contains? k).getD false

/-- The members in the order of the kinds. -/
def toList (s : KindSet) : List Kind := Kind.all.filter s.contains

instance : Union KindSet := ⟨union⟩

end KindSet

end JavaSyntax
