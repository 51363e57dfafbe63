import Minapp.Model.DynamicBufferV1
import Minapp.Verification.Receive.Consume
import Minapp.Verification.Receive.Invariant

/-! Two buffers that account for the same bytes, over storages that differ behind them. -/

namespace Minapp

namespace TripleBuffer

/-- The same buffer over another storage. -/
def onto (b : TripleBuffer) (storage : List Byte) : TripleBuffer := { b with storage }

/-- A storage that has all that `b` accounts for, `k` bytes of its output zone included. -/
structure Overlay (b : TripleBuffer) (k : ℕ) (storage : List Byte) : Prop where
  valid : b.Valid k
  zones : b.outputOffset + k ≤ storage.length
  fits : storage.length ≤ maxSize
  bytes : storage.take (b.outputOffset + k) = b.storage.take (b.outputOffset + k)

variable {b : TripleBuffer} {k : ℕ} {storage : List Byte}

theorem Overlay.refl (h : b.Valid k) : b.Overlay k b.storage := ⟨h, h.zones, h.fits, rfl⟩

theorem Overlay.take_eq (h : b.Overlay k storage) {n : ℕ} (hn : n ≤ b.outputOffset + k) :
    storage.take n = b.storage.take n := by
  have hbytes := congrArg (List.take n) h.bytes
  rwa [List.take_take, List.take_take, Nat.min_eq_left hn] at hbytes

theorem Overlay.mono (h : b.Overlay k storage) {n : ℕ} (hn : n ≤ k) : b.Overlay n storage := by
  have hzones := h.valid.zones
  have honto := h.zones
  exact ⟨⟨by omega, h.valid.fits⟩, by omega, h.fits, h.take_eq (by omega)⟩

theorem Overlay.internalInput (h : b.Overlay k storage) :
    (b.onto storage).internalInput = b.internalInput := by
  rw [internalInput_eq_input, internalInput_eq_input, input, input]
  change (storage.take b.outputOffset).drop b.externalInputSize = _
  rw [h.take_eq (Nat.le_add_right _ _)]
  rfl

theorem Overlay.whole (h : b.Overlay k storage) : (b.onto storage).whole = b.whole := by
  have hle : b.externalInputSize ≤ b.outputOffset + k := by
    rw [outputOffset, Nat.add_assoc]
    exact Nat.le_add_right _ _
  exact h.take_eq hle

theorem Overlay.segment (h : b.Overlay k storage)
    (hends : b.segmentOffset + b.segmentSize = b.externalInputSize) :
    (b.onto storage).segment = b.segment := by
  rw [segment_eq_drop (b := b.onto storage) hends, segment_eq_drop hends, h.whole]
  rfl

/-! ## Operations on the zones -/

/-- Only the bytes accounted for and the place of the output zone matter. -/
theorem Overlay.rebase (h : b.Overlay k storage) {c : TripleBuffer} (hc : c.Valid k)
    (hoffset : c.outputOffset = b.outputOffset)
    (htake : c.storage.take (b.outputOffset + k) = b.storage.take (b.outputOffset + k)) :
    c.Overlay k storage := by
  refine ⟨hc, ?_, h.fits, ?_⟩
  · rw [hoffset]
    exact h.zones
  · rw [hoffset, htake]
    exact h.bytes

theorem Overlay.congr (h : b.Overlay k storage) {c : TripleBuffer}
    (hoffset : c.outputOffset = b.outputOffset) (hstorage : c.storage = b.storage) :
    c.Overlay k storage := by
  apply h.rebase _ hoffset (by rw [hstorage])
  constructor
  · rw [hoffset, hstorage]
    exact h.valid.zones
  · rw [hstorage]
    exact h.valid.fits

theorem Overlay.commitToExternalInput (h : b.Overlay k storage) (n : ℕ) :
    (b.commitToExternalInput n).Overlay k storage :=
  h.congr (b.outputOffset_commitToExternalInput n) (b.storage_commitToExternalInput n)

/-- Bytes that are erased from both. -/
theorem Overlay.eraseFront (h : b.Overlay k storage) {c : TripleBuffer} {n : ℕ}
    (hoffset : c.outputOffset + n = b.outputOffset) (hstorage : c.storage = b.storage.drop n) :
    c.Overlay k (storage.drop n) := by
  have hvalid := h.valid
  have hzones := h.zones
  have hfits := h.fits
  refine ⟨⟨?_, ?_⟩, ?_, ?_, ?_⟩
  · have := hvalid.zones
    rw [hstorage, List.length_drop]
    omega
  · have := hvalid.fits
    rw [hstorage, List.length_drop]
    omega
  · rw [List.length_drop]
    omega
  · rw [List.length_drop]
    omega
  · have hsum : n + (c.outputOffset + k) = b.outputOffset + k := by omega
    rw [hstorage, List.take_drop, List.take_drop, hsum, h.bytes]

theorem Overlay.consume (h : b.Overlay k storage) (n : ℕ) :
    (b.onto storage).consume n =
        (b.consume n).onto (storage.drop (min n b.externalInputSize)) ∧
      (b.consume n).Overlay k (storage.drop (min n b.externalInputSize)) := by
  have hle : min n b.externalInputSize ≤ b.externalInputSize := Nat.min_le_right _ _
  have htake : storage.take (min n b.externalInputSize) =
      b.storage.take (min n b.externalInputSize) := h.take_eq (by rw [outputOffset]; omega)
  have honto : (b.onto storage).consumeFromExternalInput n =
      (b.consumeFromExternalInput n).onto (storage.drop (min n b.externalInputSize)) := by
    rw [consumeFromExternalInput_eq, consumeFromExternalInput_eq]
    simp only [TripleBuffer.eraseFront, onto, htake]
  constructor
  · simp only [TripleBuffer.consume, honto]
    change (if n < b.segmentOffset then _ else if n < b.segmentOffset + b.segmentSize then _ else _)
      = _
    split_ifs <;> rfl
  · apply h.eraseFront
    · rw [outputOffset, externalInputSize_consume, internalInputSize_consume, outputOffset]
      omega
    · exact b.storage_consume n

theorem Overlay.consumes (h : b.Overlay k storage) (ns : List ℕ) :
    ∃ storage', ns.foldl TripleBuffer.consume (b.onto storage) =
        (ns.foldl TripleBuffer.consume b).onto storage' ∧
      (ns.foldl TripleBuffer.consume b).Overlay k storage' := by
  induction ns generalizing b storage with
  | nil => exact ⟨storage, rfl, h⟩
  | cons n ns ih =>
      obtain ⟨heq, hoverlay⟩ := h.consume n
      obtain ⟨storage', hfold, h'⟩ := ih hoverlay
      refine ⟨storage', ?_, h'⟩
      rw [List.foldl_cons, heq]
      exact hfold

/-- The socket stores bytes behind those that have arrived. -/
theorem Overlay.fill (h : b.Overlay k storage) {bytes : List Byte}
    (hroom : b.outputOffset + k + bytes.length ≤ b.storage.length)
    (hroom' : b.outputOffset + k + bytes.length ≤ storage.length) :
    (b.fill (b.outputOffset + k) bytes).Overlay (k + bytes.length)
      ((b.onto storage).fill (b.outputOffset + k) bytes).storage := by
  have hlength := length_fill (b := b.onto storage) hroom'
  have hfits : (b.onto storage).storage.length ≤ maxSize := h.fits
  refine ⟨valid_fill h.valid hroom, ?_, ?_, ?_⟩
  · rw [hlength, ← Nat.add_assoc]
    exact hroom'
  · rw [hlength]
    exact hfits
  · have hoffset : (b.fill (b.outputOffset + k) bytes).outputOffset = b.outputOffset := rfl
    rw [hoffset, ← Nat.add_assoc, take_fill hroom, take_fill (b := b.onto storage) hroom']
    exact congrArg (· ++ bytes) h.bytes

/-- What has arrived is committed. -/
theorem Overlay.commitToInternalInput (h : b.Overlay k storage) :
    (b.onto storage).commitToInternalInput k = (b.commitToInternalInput k).onto storage ∧
      (b.commitToInternalInput k).Overlay 0 storage := by
  have hvalid : (b.onto storage).Valid k := ⟨h.zones, h.fits⟩
  have heq := commitToInternalInput_eq h.valid
  constructor
  · rw [commitToInternalInput_eq hvalid, heq]
    rfl
  · have hoffset : (b.commitToInternalInput k).outputOffset + 0 = b.outputOffset + k := by
      simp only [heq, outputOffset]
      omega
    refine ⟨h.valid.commitToInternalInput, ?_, h.fits, ?_⟩
    · rw [hoffset]
      exact h.zones
    · rw [hoffset]
      exact h.bytes

/-- The storage is resized, to what holds at least the zones. -/
theorem Overlay.resize (h : b.Overlay 0 storage) {m : ℕ} (hm : m ≤ maxSize)
    (hoffset : b.outputOffset ≤ m) :
    b.Overlay 0 (storage.take m ++ List.replicate (m - storage.length) 0) := by
  refine ⟨h.valid, ?_, ?_, ?_⟩
  · rw [length_resized]
    exact hoffset
  · rw [length_resized]
    exact hm
  · exact (take_resized storage hoffset h.zones).trans h.bytes

/-- The buffer is. -/
theorem Overlay.resize_base (h : b.Overlay 0 storage) {m : ℕ} (hm : m ≤ maxSize)
    (hoffset : b.outputOffset ≤ m) :
    (b.onto (b.storage.take m ++ List.replicate (m - b.storage.length) 0)).Overlay 0 storage := by
  have hlength := length_resized b.storage m
  have hvalid : (b.onto (b.storage.take m ++ List.replicate (m - b.storage.length) 0)).Valid 0 :=
    ⟨hlength.symm ▸ hoffset, hlength.symm ▸ hm⟩
  exact h.rebase hvalid rfl (take_resized b.storage hoffset h.valid.zones)

/-- The output zone is cut off. -/
theorem Overlay.shrink (h : b.Overlay 0 storage) :
    (b.onto (b.storage.take b.outputOffset)).Overlay 0 storage := by
  have hlength : (b.storage.take b.outputOffset).length = b.outputOffset :=
    List.length_take_of_le h.valid.zones
  have hvalid : (b.onto (b.storage.take b.outputOffset)).Valid 0 :=
    ⟨hlength.ge, hlength.le.trans (h.valid.zones.trans h.valid.fits)⟩
  apply h.rebase hvalid rfl
  change (b.storage.take b.outputOffset).take b.outputOffset = _
  rw [List.take_take, Nat.min_self]
  rfl

/-- Bytes are appended to a buffer, and read into what the other prepares after its input, which
is all there is. -/
theorem Overlay.append (h : b.Overlay b.outputBufferSize storage) {c p : TripleBuffer}
    {bytes : List Byte} {asked : ℕ}
    (hc : c = (b.commitToInternalInput b.outputBufferSize).onto storage) (hp : p = c.prepared asked)
    (hlen : bytes.length ≤ asked) (hroom : b.storage.length + asked ≤ maxSize) :
    (p.fill p.outputOffset bytes).commitToInternalInput bytes.length =
        ((b.onto (b.storage ++ bytes)).commitToInternalInput
          (b.onto (b.storage ++ bytes)).outputBufferSize).onto
            (p.fill p.outputOffset bytes).storage ∧
      (b.onto (b.storage ++ bytes)).Overlay (b.onto (b.storage ++ bytes)).outputBufferSize
        (p.fill p.outputOffset bytes).storage := by
  have hzones := h.valid.zones
  have hsize : b.outputOffset + b.outputBufferSize = b.storage.length := by
    rw [outputBufferSize]
    omega
  have hsize' : b.outputOffset + (b.onto (b.storage ++ bytes)).outputBufferSize =
      b.storage.length + bytes.length := by
    change b.outputOffset + ((b.storage ++ bytes).length - b.outputOffset) = _
    rw [List.length_append]
    omega
  have hcommit := commitToInternalInput_eq h.valid
  have hoffset : p.outputOffset = b.storage.length := by
    rw [hp, hc, hcommit]
    change b.externalInputSize + (b.internalInputSize + b.outputBufferSize) = _
    rw [← Nat.add_assoc]
    exact hsize
  have hlength : p.storage.length = p.outputOffset + asked := by
    rw [hp, length_prepared, outputOffset_prepared]
  have hplace : p.outputOffset + bytes.length ≤ p.storage.length := by omega
  have hfilled := length_fill hplace
  have hkept : p.storage.take p.outputOffset = b.storage := by
    have ho := h.commitToInternalInput.2
    have hvalid : c.Valid 0 := hc ▸ ⟨ho.zones, ho.fits⟩
    calc p.storage.take p.outputOffset
        = c.storage.take c.outputOffset := by rw [hp, outputOffset_prepared, take_prepared hvalid]
      _ = storage.take (b.outputOffset + b.outputBufferSize) := by
          rw [← outputOffset_prepared c asked, ← hp, hoffset, hsize, hc]
          rfl
      _ = b.storage := by
          rw [h.bytes, hsize]
          exact List.take_length
  have hbytes : (p.fill p.outputOffset bytes).storage.take (b.storage.length + bytes.length) =
      b.storage ++ bytes := by
    rw [← hoffset, take_fill hplace, hkept]
  have honto : (b.onto (b.storage ++ bytes)).Overlay (b.onto (b.storage ++ bytes)).outputBufferSize
      (p.fill p.outputOffset bytes).storage := by
    have hoffset' : (b.onto (b.storage ++ bytes)).outputOffset = b.outputOffset := rfl
    have hstorage : (b.onto (b.storage ++ bytes)).storage = b.storage ++ bytes := rfl
    refine ⟨⟨?_, ?_⟩, ?_, ?_, ?_⟩
    · rw [hoffset', hsize', hstorage, List.length_append]
    · rw [hstorage, List.length_append]
      omega
    · rw [hoffset', hsize', hfilled]
      omega
    · rw [hfilled]
      omega
    · rw [hoffset', hsize', hbytes, hstorage, ← List.length_append, List.take_length]
  refine ⟨?_, honto⟩
  have hvalid : (p.fill p.outputOffset bytes).Valid bytes.length := by
    constructor
    · rw [hfilled]
      exact hplace
    · rw [hfilled]
      omega
  have hinternal : (p.fill p.outputOffset bytes).internalInputSize + bytes.length =
      b.internalInputSize + (b.onto (b.storage ++ bytes)).outputBufferSize := by
    rw [hp, hc, hcommit]
    change b.internalInputSize + b.outputBufferSize + bytes.length = _
    omega
  rw [commitToInternalInput_eq hvalid, commitToInternalInput_eq honto.valid, hinternal]
  simp only [hp, hc, hcommit]
  rfl

theorem Valid.le_dynamicMaxSize (h : b.Valid 0) {maximum : ℕ}
    (hle : b.internalInputSize ≤ maximum) : b.internalInputSize ≤ b.dynamicMaxSize maximum := by
  have hzones := h.zones
  have hfits := h.fits
  rw [outputOffset] at hzones
  rw [dynamicMaxSize]
  omega

/-- `prepare` while the adaptor has room. -/
theorem dynamicPrepare_eq (h : b.Valid 0) {maximum n : ℕ}
    (hsize : b.internalInputSize ≤ b.dynamicMaxSize maximum)
    (hn : n ≤ b.dynamicMaxSize maximum - b.internalInputSize) :
    b.dynamicPrepare maximum n = some (b.prepared n) := by
  have hle : b.dynamicMaxSize maximum ≤ maxSize - b.externalInputSize := Nat.min_le_left _ _
  have hzones := h.zones
  have hfits := h.fits
  have hoffset : b.outputOffset = b.externalInputSize + b.internalInputSize := rfl
  have hno : ¬ (b.dynamicMaxSize maximum < b.internalInputSize ∨
      b.dynamicMaxSize maximum - b.internalInputSize < n) := by omega
  have hroom : b.outputOffset + n ≤ maxSize := by omega
  rw [dynamicPrepare, if_neg hno, prepareOutputBuffer_eq h (by omega), if_pos hroom]
  rfl

end TripleBuffer

end Minapp
