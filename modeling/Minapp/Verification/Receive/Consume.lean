import Minapp.Verification.Receive.Buffer
import Mathlib.Order.Interval.Finset.Nat

/-! `buffer::consume` and the current segment: which bytes of the stream the segment
denotes before and after the call. -/

namespace Minapp.TripleBuffer

variable (b : TripleBuffer)

/-- The stream positions the current segment denotes. -/
def segmentPositions : Finset ℕ :=
  Finset.Ico (b.erased.length + b.segmentOffset)
    (b.erased.length + b.segmentOffset + b.segmentSize)

/-- The segment is a range of the external input. -/
def SegmentInside : Prop := b.segmentOffset + b.segmentSize ≤ b.externalInputSize

instance : Decidable b.SegmentInside := inferInstanceAs (Decidable (_ ≤ _))

/-- What `consume(n)` should do: erase the first bytes of the external input, and keep
the segment at its own bytes from position `n` on. -/
structure ConsumeKeeps (n : ℕ) : Prop where
  external : (b.consume n).externalInput = b.externalInput.drop (min n b.externalInputSize)
  internal : (b.consume n).internalInput = b.internalInput
  positions : (b.consume n).segmentPositions =
    b.segmentPositions.filter fun p => b.erased.length + n ≤ p
  bytes : (b.consume n).segment = b.segment.drop (n - b.segmentOffset)
  inside : (b.consume n).SegmentInside

/-! ## The zones after `consume` -/

theorem storage_consume (n : ℕ) :
    (b.consume n).storage = b.storage.drop (min n b.externalInputSize) := by
  obtain ⟨offset, size, he⟩ := b.consume_eq n
  rw [he, consumeFromExternalInput_eq]
  rfl

theorem length_erased_consume {b : TripleBuffer} {k : ℕ} (h : b.Valid k) (n : ℕ) :
    (b.consume n).erased.length = b.erased.length + min n b.externalInputSize := by
  have hz := h.zones
  obtain ⟨offset, size, he⟩ := b.consume_eq n
  rw [he, consumeFromExternalInput_eq]
  simp only [eraseFront, outputOffset, List.length_append, List.length_take] at hz ⊢
  omega

theorem externalInput_consume (n : ℕ) :
    (b.consume n).externalInput = b.externalInput.drop (min n b.externalInputSize) := by
  have hsize : b.externalInputSize - n = b.externalInputSize - min n b.externalInputSize := by
    omega
  rw [externalInput, storage_consume, externalInputSize_consume, externalInput, List.drop_take,
    hsize]

theorem internalInput_consume (n : ℕ) : (b.consume n).internalInput = b.internalInput := by
  have hsize : min n b.externalInputSize + (b.externalInputSize - n) = b.externalInputSize := by
    omega
  rw [internalInput, storage_consume, externalInputSize_consume, internalInputSize_consume,
    List.drop_drop, hsize, internalInput]

/-! ## The segment after `consume` -/

/-- The first branch of `consume` moves where the segment begins, and not its end. -/
theorem segment_consume_of_lt {n : ℕ} (h : n < b.segmentOffset) :
    (b.consume n).segmentOffset = b.segmentOffset - n ∧
      (b.consume n).segmentSize = b.segmentSize + n := by
  rw [consume, if_pos h]
  refine ⟨rfl, ?_⟩
  simp only
  omega

theorem segment_consume_of_le {n : ℕ} (h : b.segmentOffset ≤ n) :
    (b.consume n).segmentOffset = 0 ∧
      (b.consume n).segmentSize = b.segmentOffset + b.segmentSize - n := by
  rw [consume, if_neg (by omega)]
  split
  · exact ⟨rfl, rfl⟩
  · refine ⟨rfl, ?_⟩
    simp only
    omega

theorem mem_segmentPositions {p : ℕ} :
    p ∈ b.segmentPositions ↔
      b.erased.length + b.segmentOffset ≤ p ∧
        p < b.erased.length + b.segmentOffset + b.segmentSize :=
  Finset.mem_Ico

theorem consume_zero :
    (b.consume 0).segmentOffset = b.segmentOffset ∧
      (b.consume 0).segmentSize = b.segmentSize := by
  cases hb : b.segmentOffset with
  | zero =>
      have := b.segment_consume_of_le hb.le
      omega
  | succ k =>
      have := b.segment_consume_of_lt (n := 0) (by omega)
      omega

/-- A segment that keeps its own bytes, as offsets into the external input. -/
theorem consumeKeeps_of {b : TripleBuffer} {n : ℕ} (hv : b.Valid 0) (hi : b.SegmentInside)
    (ho : (b.consume n).segmentOffset = b.segmentOffset - n)
    (hs : (b.consume n).segmentSize = b.segmentSize - (n - b.segmentOffset)) :
    b.ConsumeKeeps n := by
  have hlen := length_erased_consume hv n
  unfold SegmentInside at hi
  refine ⟨b.externalInput_consume n, b.internalInput_consume n, ?_, ?_, ?_⟩
  · ext p
    simp only [mem_segmentPositions, Finset.mem_filter, ho, hs, hlen]
    omega
  · rw [segment, storage_consume, ho, hs, List.drop_drop, segment, List.drop_take,
      List.drop_drop]
    -- an empty segment has no bytes wherever it is
    by_cases he : n < b.segmentOffset + b.segmentSize
    · rw [show min n b.externalInputSize + (b.segmentOffset - n) =
        b.segmentOffset + (n - b.segmentOffset) by omega]
    · rw [show b.segmentSize - (n - b.segmentOffset) = 0 by omega, List.take_zero, List.take_zero]
  · rw [SegmentInside, externalInputSize_consume, ho, hs]
    omega

/-- Consuming less than what lies before the segment makes the segment longer. -/
theorem not_consumeKeeps {b : TripleBuffer} {n : ℕ} (hv : b.Valid 0) (hi : b.SegmentInside)
    (hn : 0 < n) (h : n < b.segmentOffset) : ¬ b.ConsumeKeeps n := by
  intro hk
  have hlen := length_erased_consume hv n
  obtain ⟨ho, hs⟩ := b.segment_consume_of_lt h
  unfold SegmentInside at hi
  -- the position just behind the old segment
  have hp := hk.positions
  rw [Finset.ext_iff] at hp
  specialize hp (b.erased.length + b.segmentOffset + b.segmentSize)
  simp only [mem_segmentPositions, Finset.mem_filter, ho, hs, hlen] at hp
  omega

/-- `consume(n)` erases the first bytes of the external input and keeps the segment at
its own remaining bytes, unless `n` is neither zero nor reaches where the segment begins. -/
theorem consume_keeps_segment (b : TripleBuffer) (hv : b.Valid 0) (hi : b.SegmentInside)
    (n : ℕ) : b.ConsumeKeeps n ↔ n = 0 ∨ b.segmentOffset ≤ n := by
  constructor
  · intro hk
    by_contra hne
    exact not_consumeKeeps hv hi (by omega) (by omega) hk
  · rintro (rfl | hn)
    · obtain ⟨ho, hs⟩ := b.consume_zero
      exact consumeKeeps_of hv hi ho (by omega)
    · obtain ⟨ho, hs⟩ := b.segment_consume_of_le hn
      exact consumeKeeps_of hv hi (by omega) (by omega)

/-- The external input `abcd`, the segment its last two bytes. -/
def secondSegment : TripleBuffer where
  storage := [97, 98, 99, 100]
  externalInputSize := 4
  segmentOffset := 2
  segmentSize := 2

theorem valid_secondSegment : secondSegment.Valid 0 := ⟨by decide, by decide⟩

theorem consume_keeps_segment_inside : secondSegment.ConsumeKeeps 3 :=
  (consume_keeps_segment secondSegment valid_secondSegment (by decide) 3).mpr (.inr (by decide))

/-- `consume(1)` leaves `bcd` and the segment `cd` followed by a byte that is not there. -/
theorem not_consume_keeps_segment :
    ¬ ∀ b : TripleBuffer, b.Valid 0 → b.SegmentInside → ∀ n, b.ConsumeKeeps n := by
  intro h
  have hs := (h secondSegment valid_secondSegment (by decide) 1).inside
  exact absurd hs (by decide)

end Minapp.TripleBuffer
