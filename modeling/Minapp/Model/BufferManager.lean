import Mathlib.Algebra.Group.Int.Defs
import Mathlib.Algebra.Group.Nat.Defs

/-! The write queue of a session. Each operation acts at once, under its lock. -/

namespace Minapp

/-- `std::numeric_limits<long>::max()`. -/
def longMax : ℤ := 2 ^ 63 - 1

/-- `persistent_buffer_manager` over buffers `β`. -/
structure BufferManager (β : Type*) where
  managed : List β := []
  marked : List β := []
  marker : ℤ := 0

namespace BufferManager

variable {β : Type*} (m : BufferManager β)

/-- `manage` of one buffer, several buffers or a list of them: copies are appended in order. -/
def manage (buffers : List β) : BufferManager β := { m with managed := m.managed ++ buffers }

/-- `mark`, with its result: negative while a batch is marked, zero if there is nothing to
mark, positive for a new batch. -/
def mark : ℤ × BufferManager β :=
  if m.marked.isEmpty then
    if m.managed.isEmpty then (0, m)
    else
      let marker := if m.marker = longMax then 1 else m.marker + 1
      (marker, { managed := m.marked, marked := m.managed, marker })
  else (-m.marker, m)

def clearMarked : BufferManager β := { m with marked := [] }

end BufferManager

end Minapp
