/-!
# Byte ranges

A half-open range of byte offsets. Offsets and sizes are natural numbers; `maxOffset` is the largest
one that a text may have.
-/
namespace Reparse

/-- The largest offset: offsets fit in 32 bits. -/
def maxOffset : Nat := 0xFFFFFFFF

/-- A call that breaks what its function asks of its callers. -/
inductive Misuse where
  | reversedRange
  | unorderedEdit
  | outsideText
  | offsetOverflow
  deriving DecidableEq, Repr

/-- The bytes from `start` up to, not including, `stop`. -/
structure TextRange where
  start : Nat
  stop : Nat
  start_le_stop : start ≤ stop := by omega
  deriving DecidableEq, Repr

namespace TextRange

/-- The range between two offsets in order. -/
def between (start stop : Nat) : Except Misuse TextRange :=
  if h : start ≤ stop then .ok ⟨start, stop, h⟩ else .error .reversedRange

/-- The range of `size` bytes from `start`. -/
def ofSize (start size : Nat) : TextRange := ⟨start, start + size, by omega⟩

/-- The zero-width range at `offset`. -/
def empty (offset : Nat) : TextRange := ⟨offset, offset, Nat.le_refl _⟩

/-- The smallest range holding both. -/
def cover (a b : TextRange) : TextRange :=
  ⟨min a.start b.start, max a.stop b.stop, by have := a.start_le_stop; omega⟩

def isEmpty (r : TextRange) : Bool := r.start == r.stop

/-- Whether `inner` lies within `r`. -/
def covers (r inner : TextRange) : Bool := r.start ≤ inner.start && inner.stop ≤ r.stop

end TextRange
end Reparse
