import Minapp.Model.DynamicBuffer
import Minapp.Verification.Receive.Invariant

/-! # The dynamic buffer of a delimiter read

Sizes and limits are computed anew from the vector and the external input each time. Over the
rounds the vector is what it was, with the bytes received behind it. -/

namespace Minapp

namespace RoundState

/-- The bytes of the output zone that hold nothing yet. -/
def spare (s : RoundState) : ℕ :=
  match s.phase with
  | .ready => 0
  | .grown _ n => n
  | .filled n k => n - k

/-- The buffer is the one before the rounds, with the bytes received behind its input, and
room for those that are being read. -/
structure Extends (b : TripleBuffer) (s : RoundState) : Prop where
  buf_eq : s.buf =
    { b with storage := b.storage ++ s.received ++ List.replicate s.spare 0 }
  fits : s.buf.storage.length ≤ maxSize
  reserved : s.buf.storage.length ≤ s.reserved
  /-- The new bytes are behind those received. -/
  pos_eq : ∀ pos n, s.phase = .grown pos n → n = 0 ∨
    s.buf.externalInputSize + pos = (b.storage ++ s.received).length

variable {b : TripleBuffer} {maximum : ℕ} {s t : RoundState}

/-- Within the limit `grow` adds bytes at the end of the vector, which is where the data end;
beyond it, it throws. -/
theorem dynamicGrow_cases (b : TripleBuffer) (maximum n : ℕ)
    (hext : b.externalInputSize ≤ b.storage.length) (hfits : b.storage.length ≤ maxSize) :
    (n ≤ b.dynamicMaxSize maximum - b.dynamicSize maximum ∧
      b.dynamicGrow maximum n = some { b with storage := b.storage ++ List.replicate n 0 } ∧
      b.storage.length + n ≤ maxSize ∧
      (n = 0 ∨ b.externalInputSize + b.dynamicSize maximum = b.storage.length)) ∨
    b.dynamicMaxSize maximum - b.dynamicSize maximum < n ∧ b.dynamicGrow maximum n = none := by
  by_cases hlimit : b.dynamicMaxSize maximum - b.dynamicSize maximum < n
  · exact .inr ⟨hlimit, if_pos hlimit⟩
  · refine .inl ⟨by omega, ?_⟩
    have hsum : b.storage.length + n ≤ maxSize ∧
        (n = 0 ∨ b.externalInputSize + b.dynamicSize maximum = b.storage.length) := by
      simp only [TripleBuffer.dynamicSize, TripleBuffer.dynamicMaxSize] at hlimit ⊢
      omega
    have hwrap : wrap (b.storage.length + n) = b.storage.length + n := by
      have := hsum.1
      rw [maxSize] at this
      exact Nat.mod_eq_of_lt (by omega)
    refine ⟨?_, hsum⟩
    rw [TripleBuffer.dynamicGrow, if_neg hlimit, TripleBuffer.growOutputBuffer, hwrap,
      TripleBuffer.resize_of_le hsum.1]
    simp

/-- Reading into the new bytes replaces the first of them. -/
theorem fill_spare {bytes : List Byte} {base : List Byte} {n pos : ℕ} (hlen : bytes.length ≤ n)
    (hpos : n = 0 ∨ pos = base.length) :
    ({ b with storage := base ++ List.replicate n 0 } : TripleBuffer).fill pos bytes =
      { b with storage := base ++ bytes ++ List.replicate (n - bytes.length) 0 } := by
  rcases hpos with rfl | rfl
  · obtain rfl := List.length_eq_zero_iff.mp (Nat.le_zero.mp hlen)
    simp [TripleBuffer.fill]
  · simp only [TripleBuffer.fill, List.take_left, TripleBuffer.mk.injEq, and_true]
    rw [← List.drop_drop, List.drop_left, List.drop_replicate]

/-- Shrinking cuts off what was not read. -/
theorem shrink_spare {base : List Byte} {n : ℕ} (hbase : b.outputOffset ≤ base.length) :
    ({ b with storage := base ++ List.replicate n 0 } : TripleBuffer).dynamicShrink n =
      { b with storage := base } := by
  rw [TripleBuffer.outputOffset] at hbase
  simp only [TripleBuffer.dynamicShrink, TripleBuffer.shrinkOutputBuffer,
    TripleBuffer.outputBufferSize, TripleBuffer.outputOffset, List.length_append,
    List.length_replicate, TripleBuffer.mk.injEq, and_true]
  rw [Nat.min_eq_left (by omega), Nat.add_sub_cancel, List.take_left]

theorem extends_step {e : RoundEvent} (hb : b.outputOffset ≤ b.storage.length)
    (h : s.Extends b) (hstep : Step maximum s e t) : t.Extends b := by
  obtain ⟨hbuf, hfits, hreserved, hpos⟩ := h
  have hext : s.buf.externalInputSize ≤ s.buf.storage.length := by
    rw [TripleBuffer.outputOffset] at hb
    rw [hbuf]
    simp only [List.length_append]
    omega
  cases hstep with
  | @grow n reserved buf hphase hgrow hres =>
      obtain ⟨-, hsome, hsum, hend⟩ | ⟨-, hnone⟩ := dynamicGrow_cases s.buf maximum n hext hfits
      · obtain rfl := Option.some.inj (hsome.symm.trans hgrow)
        have hstorage : s.buf.storage = b.storage ++ s.received := by
          rw [hbuf]
          simp [spare, hphase]
        refine ⟨?_, ?_, ?_, ?_⟩
        · rw [hstorage, hbuf]
          rfl
        · simpa using hsum
        · rw [TripleBuffer.Reserves] at hres
          simp only at hres ⊢
          split at hres <;> omega
        · intro pos m hm
          obtain ⟨rfl, rfl⟩ := RoundPhase.grown.inj hm
          rw [hstorage] at hend
          exact hend
      · exact absurd (hnone.symm.trans hgrow) (by simp)
  | threw hphase hgrow => exact ⟨hbuf, hfits, hreserved, hpos⟩
  | @fill pos n bytes hphase hlen =>
      have hspare : s.spare = n := by rw [spare, hphase]
      rw [hspare] at hbuf
      have hfill : s.buf.fill (s.buf.externalInputSize + pos) bytes =
          { b with storage :=
            b.storage ++ s.received ++ bytes ++ List.replicate (n - bytes.length) 0 } := by
        have hfilled := fill_spare (b := b) hlen (hpos pos n hphase)
        rwa [← hbuf] at hfilled
      have hlength : (s.buf.fill (s.buf.externalInputSize + pos) bytes).storage.length =
          s.buf.storage.length := by
        rw [hfill, hbuf]
        simp only [List.length_append, List.length_replicate]
        omega
      refine ⟨?_, ?_, ?_, by simp⟩
      · rw [hfill, ← List.append_assoc]
        rfl
      · rw [hlength]
        exact hfits
      · rw [hlength]
        exact hreserved
  | @shrink n k hphase =>
      have hspare : s.spare = n - k := by rw [spare, hphase]
      rw [hspare] at hbuf
      have hbase : b.outputOffset ≤ (b.storage ++ s.received).length := by
        rw [List.length_append]
        omega
      have hshrink : s.buf.dynamicShrink (n - k) =
          { b with storage := b.storage ++ s.received } := by
        rw [hbuf]
        exact shrink_spare hbase
      have hle : (b.storage ++ s.received).length ≤ s.buf.storage.length := by
        rw [hbuf]
        exact (List.sublist_append_left _ _).length_le
      rw [hshrink]
      exact ⟨by simp [spare], hle.trans hfits, hle.trans hreserved, by simp⟩

/-- The sizes are in order, no subtraction goes below zero, `grow` is refused beyond the limit
and nowhere else, and the input is untouched. -/
structure Bounded (b : TripleBuffer) (maximum : ℕ) (s : RoundState) : Prop where
  size_le : s.buf.dynamicSize maximum ≤ s.buf.dynamicMaxSize maximum
  size_le_capacity : s.buf.dynamicSize maximum ≤ s.buf.dynamicCapacity s.reserved maximum
  capacity_le : s.buf.dynamicCapacity s.reserved maximum ≤ s.buf.dynamicMaxSize maximum
  external_le : s.buf.externalInputSize ≤ s.buf.storage.length ∧
    s.buf.externalInputSize ≤ s.reserved ∧ s.buf.externalInputSize ≤ maxSize
  throws_iff : ∀ n, s.buf.dynamicGrow maximum n = none ↔
    s.buf.dynamicMaxSize maximum - s.buf.dynamicSize maximum < n
  external_eq : s.buf.externalInput = b.externalInput
  internal_eq : s.buf.internalInput = b.internalInput

/-- After a round the data are the input and the bytes received, as far as the limit allows,
and committing the output zone makes them the input. -/
structure Presents (b : TripleBuffer) (maximum : ℕ) (s : RoundState) : Prop where
  data_eq : s.buf.dynamicView maximum 0 (s.buf.dynamicSize maximum) =
    (b.internalInput ++ s.received).take
      (min (b.internalInput.length + s.received.length) (s.buf.dynamicMaxSize maximum))
  commit_internal : (s.buf.commitToInternalInput s.buf.outputBufferSize).internalInput =
    b.internalInput ++ s.received
  commit_external : (s.buf.commitToInternalInput s.buf.outputBufferSize).externalInput =
    b.externalInput

theorem Extends.bounded (h : s.Extends b) (hb : b.outputOffset ≤ b.storage.length) :
    s.Bounded b maximum := by
  obtain ⟨hbuf, hfits, hreserved, -⟩ := h
  have hexternal : s.buf.externalInputSize = b.externalInputSize := by rw [hbuf]
  have hinternal : s.buf.internalInputSize = b.internalInputSize := by rw [hbuf]
  have hle : b.storage.length ≤ s.buf.storage.length := by
    rw [hbuf]
    simp only [List.length_append]
    omega
  have htake : ∀ n ≤ b.storage.length, s.buf.storage.take n = b.storage.take n := by
    intro n hn
    rw [hbuf]
    simp only [List.append_assoc]
    exact List.take_append_of_le_length hn
  rw [TripleBuffer.outputOffset] at hb
  refine ⟨Nat.min_le_right _ _, ?_, Nat.min_le_right _ _, by omega, ?_, ?_, ?_⟩
  · simp only [TripleBuffer.dynamicSize, TripleBuffer.dynamicCapacity]
    omega
  · intro n
    obtain ⟨hn, hsome, -⟩ | ⟨hn, hnone⟩ := dynamicGrow_cases s.buf maximum n (by omega) hfits
    · rw [hsome]
      simp only [reduceCtorEq, false_iff]
      omega
    · simp only [hnone, hn]
  · rw [TripleBuffer.externalInput, TripleBuffer.externalInput, hexternal]
    exact htake _ (by omega)
  · rw [TripleBuffer.internalInput_eq_input, TripleBuffer.internalInput_eq_input,
      TripleBuffer.input, TripleBuffer.input, TripleBuffer.outputOffset, TripleBuffer.outputOffset,
      hexternal, hinternal, htake _ (by omega)]

theorem Extends.presents (h : s.Extends b) (hb : b.storage.length = b.outputOffset)
    (hphase : s.phase = .ready) : s.Presents b maximum := by
  obtain ⟨hbuf, hfits, -, -⟩ := h
  have hspare : s.spare = 0 := by rw [spare, hphase]
  rw [hspare, List.replicate_zero, List.append_nil] at hbuf
  rw [TripleBuffer.outputOffset] at hb
  have hinput : b.internalInput = b.storage.drop b.externalInputSize := by
    apply List.take_of_length_le
    rw [List.length_drop]
    omega
  have hdrop : (b.storage ++ s.received).drop b.externalInputSize =
      b.internalInput ++ s.received := by
    rw [hinput, List.drop_append_of_le_length (by omega)]
  have hlen : b.internalInput.length = b.internalInputSize := by
    rw [hinput, List.length_drop]
    omega
  have hstorage : s.buf.storage = b.storage ++ s.received := by rw [hbuf]
  have hexternal : s.buf.externalInputSize = b.externalInputSize := by rw [hbuf]
  have hlength : s.buf.storage.length = b.storage.length + s.received.length := by
    rw [hstorage, List.length_append]
  have hsize : s.buf.dynamicSize maximum =
      min (b.internalInput.length + s.received.length) (s.buf.dynamicMaxSize maximum) := by
    rw [TripleBuffer.dynamicSize, hlength, hexternal, hlen]
    congr 1
    omega
  have hout : s.buf.outputBufferSize = s.received.length := by
    rw [TripleBuffer.outputBufferSize, hlength, TripleBuffer.outputOffset, hbuf]
    simp only
    omega
  have hcommit : s.buf.commitToInternalInput s.buf.outputBufferSize = { b with
      storage := b.storage ++ s.received
      internalInputSize := b.internalInputSize + s.received.length } := by
    rw [TripleBuffer.commitToInternalInput, Nat.min_self, hout, hbuf]
  refine ⟨?_, ?_, ?_⟩
  · rw [TripleBuffer.dynamicView, TripleBuffer.dynamicData, List.drop_zero, List.take_take,
      Nat.min_self, hsize, hstorage, hexternal, hdrop]
  · rw [hcommit, TripleBuffer.internalInput]
    simp only
    rw [hdrop, List.take_of_length_le]
    rw [List.length_append, hlen]
  · have hle : b.externalInputSize ≤ b.storage.length := by omega
    rw [hcommit, TripleBuffer.externalInput, TripleBuffer.externalInput]
    exact List.take_append_of_le_length hle

end RoundState

/-- In every state of every sequence of rounds the dynamic buffer is bounded, and after each
round it presents the input and the bytes received. -/
theorem rounds_present (b : TripleBuffer) (reserved maximum : ℕ)
    (hshrunk : b.storage.length = b.outputOffset) (hfits : b.storage.length ≤ maxSize)
    (hreserved : b.storage.length ≤ reserved) {s : RoundState}
    (hs : (roundSystem b reserved maximum).Reachable s) :
    s.Bounded b maximum ∧ (s.phase = .ready → s.Presents b maximum) := by
  have hextends : s.Extends b := by
    apply hs.invariant
    · rintro s rfl
      exact ⟨by simp [RoundState.spare], hfits, hreserved, by simp⟩
    · intro s e t hi ht
      exact RoundState.extends_step hshrunk.ge hi ht
  exact ⟨hextends.bounded hshrunk.ge, hextends.presents hshrunk⟩

/-- A buffer of one byte of external and two of internal input. -/
def oneAndTwo : TripleBuffer where
  storage := [1, 2, 3]
  externalInputSize := 1
  internalInputSize := 2

/-- A round with two bytes to read, of which one arrives. -/
theorem rounds_present_one :
    ∃ s : RoundState, (roundSystem oneAndTwo 3 9).Reachable s ∧ s.received = [4] ∧
      s.Presents oneAndTwo 9 := by
  have hrun : (roundSystem oneAndTwo 3 9).Run ⟨oneAndTwo, 3, .ready, []⟩
      [.grow 2 8, .fill [4], .shrink]
      ⟨{ oneAndTwo with storage := [1, 2, 3, 4] }, 8, .ready, [4]⟩ := by
    refine .cons (t := ⟨{ oneAndTwo with storage := [1, 2, 3, 0, 0] }, 8, .grown 2 2, []⟩) ?_
      (.cons (t := ⟨{ oneAndTwo with storage := [1, 2, 3, 4, 0] }, 8, .filled 2 1, [4]⟩) ?_
        (.cons ?_ .nil))
    · exact RoundState.Step.grow rfl (by decide) (by decide)
    · exact @RoundState.Step.fill _ _ 2 2 [4] rfl (by decide)
    · exact RoundState.Step.shrink (n := 2) (k := 1) rfl
  exact ⟨_, ⟨_, _, rfl, hrun⟩, rfl,
    (rounds_present oneAndTwo 3 9 rfl (by decide) (by decide) ⟨_, _, rfl, hrun⟩).2 rfl⟩

end Minapp
