import Minapp.Model.Protocol

/-! The receive buffer of a session: one vector carrying external input, internal
input and output zones, and the current segment of the external input. -/

namespace Minapp

/-- `std::vector<char>::max_size()`. -/
def maxSize : ℕ := 2 ^ 63 - 1

/-- `std::size_t` arithmetic. -/
def wrap (n : ℕ) : ℕ := n % 2 ^ 64

/-- The bytes of a storage handed to a socket. -/
structure Region where
  offset : ℕ
  length : ℕ
  deriving DecidableEq, Repr

/-- `triple_buffer`. The segment is its `mutable_buffer` base: an offset from
`storage.data()` and a size. `erased` is history: every byte erased from the front. -/
structure TripleBuffer where
  storage : List Byte := []
  externalInputSize : ℕ := 0
  internalInputSize : ℕ := 0
  segmentOffset : ℕ := 0
  segmentSize : ℕ := 0
  erased : List Byte := []
  deriving DecidableEq, Repr

namespace TripleBuffer

variable (b : TripleBuffer)

/-- `storage.resize(n)`, which throws `std::length_error` beyond `max_size()`. -/
def resize (storage : List Byte) (n : ℕ) : Option (List Byte) :=
  if n ≤ maxSize then some (storage.take n ++ List.replicate (n - storage.length) 0) else none

/-- `storage.erase(storage.begin(), storage.begin() + n)`. -/
def eraseFront (n : ℕ) : TripleBuffer :=
  { b with storage := b.storage.drop n, erased := b.erased ++ b.storage.take n }

/-- The socket stores `bytes` at `offset`. -/
def fill (offset : ℕ) (bytes : List Byte) : TripleBuffer :=
  { b with storage := b.storage.take offset ++ bytes ++ b.storage.drop (offset + bytes.length) }

def externalInput : List Byte := b.storage.take b.externalInputSize

def internalInput : List Byte := (b.storage.drop b.externalInputSize).take b.internalInputSize

/-- Where the output zone begins. -/
def outputOffset : ℕ := b.externalInputSize + b.internalInputSize

def outputBufferSize : ℕ := b.storage.length - b.outputOffset

/-- The bytes of the current segment. -/
def segment : List Byte := (b.storage.drop b.segmentOffset).take b.segmentSize

def prepareOutputBuffer (n : ℕ) : Option (TripleBuffer × Region) :=
  (resize b.storage (wrap (b.outputOffset + n))).map fun storage =>
    ({ b with storage }, ⟨b.outputOffset, n⟩)

def growOutputBuffer (n : ℕ) : Option TripleBuffer :=
  (resize b.storage (wrap (b.storage.length + n))).map fun storage => { b with storage }

def shrinkOutputBuffer (n : ℕ) : TripleBuffer :=
  { b with storage := b.storage.take (b.storage.length - min n b.outputBufferSize) }

def commitToInternalInput (n : ℕ) : TripleBuffer :=
  { b with internalInputSize := b.internalInputSize + min n b.outputBufferSize }

def commitWholeInternalInput : TripleBuffer :=
  { b with
    externalInputSize := b.externalInputSize + b.internalInputSize
    internalInputSize := 0 }

def commitToExternalInput (n : ℕ) : TripleBuffer :=
  let n := if b.internalInputSize < n then b.internalInputSize else n
  { b with
    externalInputSize := b.externalInputSize + n
    internalInputSize := b.internalInputSize - n }

def consumeFromExternalInput (n : ℕ) : TripleBuffer :=
  let n := if b.externalInputSize < n then b.externalInputSize else n
  { b.eraseFront n with externalInputSize := b.externalInputSize - n }

def consumeWholeExternalInput : TripleBuffer :=
  { b.eraseFront b.externalInputSize with externalInputSize := 0 }

def markCurrentExternalInput : TripleBuffer :=
  { b with segmentOffset := 0, segmentSize := b.externalInputSize }

/-- `external_input_buffer() + mutable_buffer::size()`; the sum of a buffer and a
number skips at most the whole buffer. -/
def moveToNewExternalInputSegment : TripleBuffer :=
  let skip := min b.segmentSize b.externalInputSize
  { b with segmentOffset := skip, segmentSize := b.externalInputSize - skip }

/-- `buffer::whole`. -/
def whole : List Byte := b.externalInput

/-- `buffer::consume`. Its test of `data()` against the external input is a
disjunction that always holds. -/
def consume (n : ℕ) : TripleBuffer :=
  let first := b.segmentOffset
  let last := first + b.segmentSize
  let b := b.consumeFromExternalInput n
  if n < first then { b with segmentOffset := first - n, segmentSize := last - (first - n) }
  else if n < last then { b with segmentOffset := 0, segmentSize := last - n }
  else { b with segmentOffset := 0, segmentSize := 0 }

end TripleBuffer

/-- Whether a region lies inside a storage. -/
def Region.Inside (r : Region) (storage : List Byte) : Prop :=
  r.offset + r.length ≤ storage.length

instance (r : Region) (storage : List Byte) : Decidable (r.Inside storage) :=
  inferInstanceAs (Decidable (_ ≤ _))

end Minapp
