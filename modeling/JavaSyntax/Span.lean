namespace JavaSyntax

/-- A range of byte offsets into the UTF-8 form of a text. -/
structure Span where
  start : Nat
  stop : Nat
  start_le_stop : start ≤ stop := by omega
  deriving DecidableEq

namespace Span

def empty (offset : Nat) : Span := ⟨offset, offset, Nat.le_refl _⟩

/-- The span reading from `start` for `length` bytes. -/
def ofLength (start length : Nat) : Span := ⟨start, start + length, Nat.le_add_right ..⟩

instance : Inhabited Span := ⟨empty 0⟩

def ofBounds? (start stop : Nat) : Option Span :=
  if h : start ≤ stop then some ⟨start, stop, h⟩ else none

def length (s : Span) : Nat := s.stop - s.start

/-- The smallest span around both. -/
def cover (s t : Span) : Span where
  start := min s.start t.start
  stop := max s.stop t.stop
  start_le_stop := by have := s.start_le_stop; have := t.start_le_stop; omega

protected def toString (s : Span) : String := s!"{s.start}..{s.stop}"

instance : ToString Span := ⟨Span.toString⟩

end Span

end JavaSyntax
