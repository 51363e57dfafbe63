import Minapp.Model.Receive

/-! `dynamic_buffer_adaptor` with the capacity of its vector, as `async_read_until` uses it: in
rounds of `grow`, a read into the new bytes, and `shrink`. -/

namespace Minapp

namespace TripleBuffer

variable (b : TripleBuffer)

/-- `capacity()`, of a vector that has room for `reserved` bytes. -/
def dynamicCapacity (reserved maximum : ℕ) : ℕ :=
  min (reserved - b.externalInputSize) (b.dynamicMaxSize maximum)

/-- `data(pos, n)`. -/
def dynamicView (maximum pos n : ℕ) : List Byte := ((b.dynamicData maximum).drop pos).take n

/-- The room that a resized vector has: it is only reallocated if it has to be, to any size
that suffices. -/
def Reserves (old length new : ℕ) : Prop := if length ≤ old then new = old else length ≤ new

instance (old length new : ℕ) : Decidable (Reserves old length new) :=
  inferInstanceAs (Decidable (if length ≤ old then new = old else length ≤ new))

end TripleBuffer

/-- Where a round is. -/
inductive RoundPhase where
  | ready
  /-- `grow(n)` has been called, where `size()` was `pos`. -/
  | grown (pos n : ℕ)
  /-- `k` of the `n` new bytes have been read. -/
  | filled (n k : ℕ)
  deriving DecidableEq, Repr

/-- `received`, all bytes read so far, is history. -/
structure RoundState where
  buf : TripleBuffer
  reserved : ℕ
  phase : RoundPhase
  received : List Byte

inductive RoundEvent where
  /-- `grow(n)`, after which the vector has room for `reserved` bytes. -/
  | grow (n reserved : ℕ)
  /-- Bytes are read to `data(pos, n)`. -/
  | fill (bytes : List Byte)
  /-- `shrink` by the bytes that were not read. -/
  | shrink

namespace RoundState

/-- One step. A `grow` that throws changes nothing. -/
inductive Step (maximum : ℕ) (s : RoundState) : RoundEvent → RoundState → Prop where
  | grow {n reserved buf} : s.phase = .ready → s.buf.dynamicGrow maximum n = some buf →
      TripleBuffer.Reserves s.reserved buf.storage.length reserved →
      Step maximum s (.grow n reserved)
        { s with buf, reserved, phase := .grown (s.buf.dynamicSize maximum) n }
  | threw {n reserved} : s.phase = .ready → s.buf.dynamicGrow maximum n = none →
      Step maximum s (.grow n reserved) s
  | fill {pos n bytes} : s.phase = .grown pos n → bytes.length ≤ n →
      Step maximum s (.fill bytes) { s with
        buf := s.buf.fill (s.buf.externalInputSize + pos) bytes
        phase := .filled n bytes.length
        received := s.received ++ bytes }
  | shrink {n k} : s.phase = .filled n k →
      Step maximum s .shrink { s with buf := s.buf.dynamicShrink (n - k), phase := .ready }

end RoundState

/-- The rounds over a buffer whose vector has room for `reserved` bytes. -/
def roundSystem (b : TripleBuffer) (reserved maximum : ℕ) :
    TransitionSystem RoundState RoundEvent where
  Init s := s = ⟨b, reserved, .ready, []⟩
  Step := RoundState.Step maximum

end Minapp
