import Minapp.Model.Receive
import Mathlib.Data.List.Basic

/-! Equations of the buffer operations: what each does to the zone sizes, and that none
of them changes the bytes of the stream the buffer accounts for. -/

namespace Minapp.TripleBuffer

variable (b : TripleBuffer)

/-- The bytes of the stream accounted for by a buffer whose output zone begins with
`k` bytes that have arrived: those erased, followed by those still stored. -/
def stream (k : ℕ) : List Byte := b.erased ++ b.storage.take (b.outputOffset + k)

/-- The internal input, followed by `k` bytes of the output zone. -/
def input (k : ℕ) : List Byte := (b.storage.take (b.outputOffset + k)).drop b.externalInputSize

/-- The zones lie inside the storage, `k` bytes of the output zone included. -/
structure Valid (k : ℕ) : Prop where
  zones : b.outputOffset + k ≤ b.storage.length
  fits : b.storage.length ≤ maxSize

/-- A segment that ends the external input. -/
theorem segment_eq_drop {b : TripleBuffer}
    (hends : b.segmentOffset + b.segmentSize = b.externalInputSize) :
    b.segment = b.whole.drop b.segmentOffset := by
  rw [segment, whole, externalInput, List.drop_take, ← hends, Nat.add_sub_cancel_left]

/-! ## Resizing and filling the storage -/

theorem resize_of_le {storage : List Byte} {n : ℕ} (h : n ≤ maxSize) :
    resize storage n = some (storage.take n ++ List.replicate (n - storage.length) 0) :=
  if_pos h

theorem length_resized (storage : List Byte) (n : ℕ) :
    (storage.take n ++ List.replicate (n - storage.length) 0).length = n := by
  simp only [List.length_append, List.length_take, List.length_replicate]
  omega

theorem take_resized (storage : List Byte) {k n : ℕ} (hk : k ≤ n) (hs : k ≤ storage.length) :
    (storage.take n ++ List.replicate (n - storage.length) (0 : Byte)).take k =
      storage.take k := by
  rw [List.take_append_of_le_length (by simp only [List.length_take]; omega), List.take_take,
    Nat.min_eq_left hk]

theorem length_fill {b : TripleBuffer} {offset : ℕ} {bytes : List Byte}
    (h : offset + bytes.length ≤ b.storage.length) :
    (b.fill offset bytes).storage.length = b.storage.length := by
  simp only [fill, List.length_append, List.length_take, List.length_drop]
  omega

theorem take_fill {b : TripleBuffer} {offset : ℕ} {bytes : List Byte}
    (h : offset + bytes.length ≤ b.storage.length) :
    (b.fill offset bytes).storage.take (offset + bytes.length) =
      b.storage.take offset ++ bytes := by
  have hle : offset + bytes.length ≤ (b.storage.take offset ++ bytes).length := by
    simp only [List.length_append, List.length_take]
    omega
  rw [fill, List.take_append_of_le_length hle]
  apply List.take_of_length_le
  simp only [List.length_append, List.length_take]
  omega

theorem take_fill_of_le {b : TripleBuffer} {offset k : ℕ} {bytes : List Byte}
    (h : offset + bytes.length ≤ b.storage.length) (hk : k ≤ offset) :
    (b.fill offset bytes).storage.take k = b.storage.take k := by
  rw [fill, List.append_assoc, List.take_append_of_le_length
    (by simp only [List.length_take]; omega), List.take_take, Nat.min_eq_left hk]

/-- Storing bytes right after those that have arrived extends the stream by them. -/
theorem stream_fill {b : TripleBuffer} {k : ℕ} {bytes : List Byte}
    (h : b.outputOffset + k + bytes.length ≤ b.storage.length) :
    (b.fill (b.outputOffset + k) bytes).stream (k + bytes.length) = b.stream k ++ bytes := by
  have ht := take_fill (b := b) h
  rw [Nat.add_assoc] at ht
  simp only [stream, List.append_assoc]
  exact congrArg _ ht

theorem input_fill {b : TripleBuffer} {k : ℕ} {bytes : List Byte}
    (h : b.outputOffset + k + bytes.length ≤ b.storage.length) :
    (b.fill (b.outputOffset + k) bytes).input (k + bytes.length) = b.input k ++ bytes := by
  have ht := take_fill (b := b) h
  have hle : b.externalInputSize ≤ (b.storage.take (b.outputOffset + k)).length := by
    simp only [outputOffset, List.length_take] at h ⊢
    omega
  rw [Nat.add_assoc] at ht
  exact (congrArg _ ht).trans (List.drop_append_of_le_length hle)

theorem valid_fill {b : TripleBuffer} {k : ℕ} {bytes : List Byte} (hv : b.Valid k)
    (h : b.outputOffset + k + bytes.length ≤ b.storage.length) :
    (b.fill (b.outputOffset + k) bytes).Valid (k + bytes.length) := by
  constructor
  · rw [length_fill h]
    exact (Nat.add_assoc _ _ _).symm.trans_le h
  · rw [length_fill h]
    exact hv.fits

/-! ## Zone sizes -/

theorem commitToExternalInput_eq (n : ℕ) :
    b.commitToExternalInput n = { b with
      externalInputSize := b.externalInputSize + min n b.internalInputSize
      internalInputSize := b.internalInputSize - min n b.internalInputSize } := by
  rw [commitToExternalInput]
  split
  · rw [Nat.min_eq_right (by omega)]
  · rw [Nat.min_eq_left (by omega)]

theorem consumeFromExternalInput_eq (n : ℕ) :
    b.consumeFromExternalInput n = { b.eraseFront (min n b.externalInputSize) with
      externalInputSize := b.externalInputSize - min n b.externalInputSize } := by
  rw [consumeFromExternalInput]
  split
  · rw [Nat.min_eq_right (by omega)]
  · rw [Nat.min_eq_left (by omega)]

theorem length_internalInput {b : TripleBuffer} (h : b.outputOffset ≤ b.storage.length) :
    b.internalInput.length = b.internalInputSize := by
  simp only [internalInput, outputOffset, List.length_take, List.length_drop] at *
  omega

theorem length_externalInput {b : TripleBuffer} (h : b.externalInputSize ≤ b.storage.length) :
    b.externalInput.length = b.externalInputSize := by
  simp only [externalInput, List.length_take]
  omega

/-- Committing to the external input moves a boundary inside the stream. -/
@[simp] theorem outputOffset_commitToExternalInput (n : ℕ) :
    (b.commitToExternalInput n).outputOffset = b.outputOffset := by
  rw [commitToExternalInput_eq]
  simp only [outputOffset]
  omega

@[simp] theorem storage_commitToExternalInput (n : ℕ) :
    (b.commitToExternalInput n).storage = b.storage := by
  rw [commitToExternalInput_eq]

@[simp] theorem erased_commitToExternalInput (n : ℕ) :
    (b.commitToExternalInput n).erased = b.erased := by
  rw [commitToExternalInput_eq]

@[simp] theorem stream_commitToExternalInput (n k : ℕ) :
    (b.commitToExternalInput n).stream k = b.stream k := by
  simp [stream]

@[simp] theorem segmentSize_commitToExternalInput (n : ℕ) :
    (b.commitToExternalInput n).segmentSize = b.segmentSize := by
  rw [commitToExternalInput_eq]

theorem Valid.commitToExternalInput {b : TripleBuffer} {k : ℕ} (h : b.Valid k) (n : ℕ) :
    (b.commitToExternalInput n).Valid k := by
  refine ⟨?_, ?_⟩
  · simpa using h.zones
  · simpa using h.fits

@[simp] theorem stream_moveToNewExternalInputSegment (k : ℕ) :
    b.moveToNewExternalInputSegment.stream k = b.stream k := rfl

theorem Valid.moveToNewExternalInputSegment {b : TripleBuffer} {k : ℕ} (h : b.Valid k) :
    b.moveToNewExternalInputSegment.Valid k := ⟨h.zones, h.fits⟩

/-- Committing the bytes that have arrived moves the output zone past them. -/
theorem commitToInternalInput_eq {b : TripleBuffer} {k : ℕ} (h : b.Valid k) :
    b.commitToInternalInput k = { b with internalInputSize := b.internalInputSize + k } := by
  have := h.zones
  rw [commitToInternalInput, Nat.min_eq_left (by simp only [outputBufferSize]; omega)]

theorem Valid.commitToInternalInput {b : TripleBuffer} {k : ℕ} (h : b.Valid k) :
    (b.commitToInternalInput k).Valid 0 := by
  have := h.zones
  rw [commitToInternalInput_eq h]
  exact ⟨by simp only [outputOffset] at *; omega, h.fits⟩

theorem stream_commitToInternalInput {b : TripleBuffer} {k : ℕ} (h : b.Valid k) :
    (b.commitToInternalInput k).stream 0 = b.stream k := by
  rw [commitToInternalInput_eq h]
  simp only [stream, outputOffset, Nat.add_assoc, Nat.add_zero]

theorem internalInput_eq_input : b.internalInput = b.input 0 := by
  simp only [internalInput, input, outputOffset, Nat.add_zero, List.drop_take,
    Nat.add_sub_cancel_left]

/-- Bytes stored in the output zone leave the internal input as it is. -/
theorem internalInput_fill {b : TripleBuffer} {k : ℕ} {bytes : List Byte}
    (h : b.outputOffset + k + bytes.length ≤ b.storage.length) :
    (b.fill (b.outputOffset + k) bytes).internalInput = b.internalInput := by
  rw [internalInput_eq_input, internalInput_eq_input]
  exact congrArg _ (take_fill_of_le h (Nat.le_add_right _ _))

theorem internalInput_commitToInternalInput {b : TripleBuffer} {k : ℕ} (h : b.Valid k) :
    (b.commitToInternalInput k).internalInput = b.input k := by
  rw [internalInput_eq_input, commitToInternalInput_eq h]
  simp only [input, outputOffset, Nat.add_assoc, Nat.add_zero]

/-! ## Consuming external input -/

theorem stream_eraseFront {b : TripleBuffer} {k m : ℕ} (hm : m ≤ b.externalInputSize) :
    ({ b.eraseFront m with externalInputSize := b.externalInputSize - m } : TripleBuffer).stream k =
      b.stream k := by
  simp only [stream, outputOffset, eraseFront, List.append_assoc]
  rw [show b.externalInputSize + b.internalInputSize + k =
    m + (b.externalInputSize - m + b.internalInputSize + k) by omega, List.take_add (i := m)]

theorem Valid.eraseFront {b : TripleBuffer} {k m : ℕ} (h : b.Valid k)
    (hm : m ≤ b.externalInputSize) :
    Valid { b.eraseFront m with externalInputSize := b.externalInputSize - m } k := by
  obtain ⟨hz, hf⟩ := h
  constructor <;> simp only [outputOffset, TripleBuffer.eraseFront, List.length_drop] at * <;> omega

/-- The stream position where the external input ends. -/
def externalEnd : ℕ := b.erased.length + b.externalInputSize

theorem externalEnd_eraseFront {b : TripleBuffer} {k m : ℕ} (h : b.Valid k)
    (hm : m ≤ b.externalInputSize) :
    externalEnd { b.eraseFront m with externalInputSize := b.externalInputSize - m } =
      b.externalEnd := by
  have hz := h.zones
  simp only [externalEnd, TripleBuffer.eraseFront, outputOffset, List.length_append,
    List.length_take] at *
  omega

/-- `consume` moves the segment, and otherwise only erases external input. -/
theorem consume_eq (n : ℕ) : ∃ offset size,
    b.consume n = { b.consumeFromExternalInput n with
      segmentOffset := offset, segmentSize := size } := by
  by_cases hb : n < b.segmentOffset
  · exact ⟨_, _, by simp only [consume, if_pos hb]; rfl⟩
  · by_cases he : n < b.segmentOffset + b.segmentSize
    · exact ⟨_, _, by simp only [consume, if_neg hb, if_pos he]; rfl⟩
    · exact ⟨_, _, by simp only [consume, if_neg hb, if_neg he]; rfl⟩

theorem externalInputSize_consume (n : ℕ) :
    (b.consume n).externalInputSize = b.externalInputSize - n := by
  obtain ⟨offset, size, h⟩ := b.consume_eq n
  rw [h, consumeFromExternalInput_eq]
  simp only
  omega

@[simp] theorem internalInputSize_consume (n : ℕ) :
    (b.consume n).internalInputSize = b.internalInputSize := by
  obtain ⟨offset, size, h⟩ := b.consume_eq n
  rw [h, consumeFromExternalInput_eq]
  rfl

theorem Valid.consume {b : TripleBuffer} {k : ℕ} (h : b.Valid k) (n : ℕ) :
    (b.consume n).Valid k := by
  obtain ⟨offset, size, he⟩ := b.consume_eq n
  rw [he, consumeFromExternalInput_eq]
  obtain ⟨hz, hf⟩ := h.eraseFront (Nat.min_le_right n b.externalInputSize)
  exact ⟨hz, hf⟩

theorem stream_consume (n k : ℕ) : (b.consume n).stream k = b.stream k := by
  obtain ⟨offset, size, he⟩ := b.consume_eq n
  rw [he, consumeFromExternalInput_eq]
  exact stream_eraseFront (Nat.min_le_right n b.externalInputSize)

theorem externalEnd_consume {b : TripleBuffer} {k : ℕ} (h : b.Valid k) (n : ℕ) :
    (b.consume n).externalEnd = b.externalEnd := by
  obtain ⟨offset, size, he⟩ := b.consume_eq n
  rw [he, consumeFromExternalInput_eq]
  exact externalEnd_eraseFront h (Nat.min_le_right n b.externalInputSize)

/-- What a sequence of `consume` calls keeps. -/
structure Consumed (b c : TripleBuffer) (ns : List ℕ) (k : ℕ) : Prop where
  valid : c.Valid k
  stream : c.stream k = b.stream k
  externalEnd : c.externalEnd = b.externalEnd
  internal : c.internalInputSize = b.internalInputSize
  external : c.externalInputSize = ns.foldl (· - ·) b.externalInputSize

theorem consumed_foldl {k : ℕ} (ns : List ℕ) {b : TripleBuffer} (h : b.Valid k) :
    Consumed b (ns.foldl consume b) ns k := by
  induction ns generalizing b with
  | nil => exact ⟨h, rfl, rfl, rfl, rfl⟩
  | cons n ns ih =>
      have hi := ih (h.consume n)
      refine ⟨hi.valid, ?_, ?_, ?_, ?_⟩
      · rw [List.foldl_cons, hi.stream, stream_consume]
      · rw [List.foldl_cons, hi.externalEnd, externalEnd_consume h]
      · rw [List.foldl_cons, hi.internal, internalInputSize_consume]
      · rw [List.foldl_cons, hi.external, externalInputSize_consume, List.foldl_cons]

end Minapp.TripleBuffer
