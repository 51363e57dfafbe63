import Minapp.Verification.Receive.Invariant

/-! # Conservation of the received bytes

The three zones of the receive buffer, after the bytes dropped from it, are the bytes
received so far; every upcall is shown the stream up to the end of its segment. -/

namespace Minapp

namespace TripleBuffer

variable {b : TripleBuffer}

/-- The stream position where the current segment ends. -/
def segmentEnd (b : TripleBuffer) : ℕ := b.erased.length + b.segmentOffset + b.segmentSize

/-- The zones in order are the stored part of the stream. -/
theorem zones_eq_stream (b : TripleBuffer) (k : ℕ) :
    b.erased ++ b.externalInput ++ b.internalInput ++
      (b.storage.drop b.outputOffset).take k = b.stream k := by
  simp only [externalInput, internalInput, stream, outputOffset, List.append_assoc]
  rw [List.take_add (i := b.externalInputSize + b.internalInputSize), List.take_add,
    List.append_assoc]

theorem stream_zero (b : TripleBuffer) :
    b.erased ++ b.externalInput ++ b.internalInput = b.stream 0 := by
  rw [← zones_eq_stream, List.take_zero, List.append_nil]

/-- The external input is the stretch of the stream between the bytes dropped and its end. -/
theorem whole_eq_stretch (hv : b.Valid 0) :
    b.whole = ((b.stream 0).take b.externalEnd).drop b.erased.length := by
  have hz := hv.zones
  have hlen : b.externalInput.length = b.externalInputSize :=
    length_externalInput (by unfold outputOffset at hz; omega)
  rw [← stream_zero, List.append_assoc, externalEnd, ← hlen, List.take_length_add_append,
    List.drop_left, List.take_left]
  rfl

/-- A segment that ends the external input is its tail. -/
theorem segment_suffix_whole (hends : b.segmentOffset + b.segmentSize = b.externalInputSize) :
    b.segment <:+ b.whole := by
  have hsegment : b.segment = b.externalInput.drop b.segmentOffset := by
    rw [segment, externalInput, List.drop_take, ← hends, Nat.add_sub_cancel_left]
  rw [hsegment]
  exact List.drop_suffix _ _

end TripleBuffer

namespace ReadState

/-- The bytes that an asynchronous read in progress has stored in the output zone. -/
def arrivedOutput (s : ReadState) : List Byte :=
  (s.buf.storage.drop s.buf.outputOffset).take s.arrived

/-- What a handler finds in an upcall that follows `consumes` calls of `buf.consume`. -/
structure Conserved (s : ReadState) (b : TripleBuffer) (consumes : List ℕ) : Prop where
  zones : b.erased ++ b.externalInput ++ b.internalInput = s.received
  whole : b.whole = (s.received.take s.buf.segmentEnd).drop b.erased.length
  kept : b.externalInputSize = consumes.foldl (· - ·) s.buf.externalInputSize

variable {s : ReadState}

theorem arrivedOutput_eq_nil (hw : s.waiting = false) (hf : ∀ ec, s.control ≠ .failed ec) :
    s.arrivedOutput = [] := by
  have harr : s.arrived = 0 := by
    cases hc : s.control <;> simp_all [waiting, arrived]
  rw [arrivedOutput, harr, List.take_zero]

theorem conserved_of_delivering {tail : ℕ} (ha : s.Accounts 0) (hd : s.Delivering tail)
    (ns : List ℕ) : s.Conserved (ns.foldl TripleBuffer.consume s.buf) ns := by
  have hc := TripleBuffer.consumed_foldl ns ha.valid
  have hstream := hc.stream.trans ha.conserved
  have hend : s.buf.externalEnd = s.buf.segmentEnd := by
    have := hd.ends
    rw [TripleBuffer.externalEnd, TripleBuffer.segmentEnd]
    omega
  refine ⟨?_, ?_, hc.external⟩
  · rw [TripleBuffer.stream_zero, hstream]
  · rw [TripleBuffer.whole_eq_stretch hc.valid, hstream, hc.externalEnd, hend]

end ReadState

open ReadState

/-- In every reachable state the bytes dropped, the external input and the internal input,
with those an asynchronous read has stored so far, are the bytes received in order. At an
upcall, however much the handler has consumed, `whole` is what the stream holds between
the bytes dropped and the end of the segment, which is its tail. -/
theorem received_conserved (h : ReadHandler) (s : ReadState)
    (hh : ∀ segments, (h segments).settings.readBufferSize ≤ maxSize)
    (hs : (boundedReadSystem h).Reachable s) :
    s.buf.erased ++ s.buf.externalInput ++ s.buf.internalInput ++ s.arrivedOutput = s.received ∧
    (s.waiting = false → (∀ ec, s.control ≠ .failed ec) → s.arrivedOutput = []) ∧
    ∀ tail, s.control = .upcall tail →
      s.buf.segment <:+ s.buf.whole ∧
      ∀ consumes, s.Conserved (consumes.foldl TripleBuffer.consume s.buf) consumes := by
  obtain ⟨ha, hci⟩ := boundedReadSystem_inv hh hs
  refine ⟨?_, arrivedOutput_eq_nil, ?_⟩
  · rw [← ha.conserved]
    exact TripleBuffer.zones_eq_stream _ _
  · intro tail hc
    simp only [arrived, ControlInv, hc] at ha hci
    exact ⟨TripleBuffer.segment_suffix_whole hci.ends,
      fun consumes => conserved_of_delivering ha hci consumes⟩

/-- A handler that reads lines, and consumes three bytes of each. -/
def lineHandler : ReadHandler := fun _ => ⟨[3], ⟨.delimLf, 1, 4096, []⟩⟩

theorem lineHandler_limit (segments : List (List Byte)) :
    (lineHandler segments).settings.readBufferSize ≤ maxSize := by
  simp [lineHandler, maxSize]

/-- The peer sends a line and part of the next one; the session delivers the line. -/
def lineAndMore : List ReadEvent := [.run, .receive 4096 [97, 98, 99, 10, 100], .run]

theorem received_conserved_lines : ∃ s, (boundedReadSystem lineHandler).Reachable s ∧
    s.control = .upcall 0 ∧
    s.buf.erased ++ s.buf.externalInput ++ s.buf.internalInput ++ s.arrivedOutput =
      [97, 98, 99, 10, 100] ∧
    s.buf.segment <:+ s.buf.whole ∧ s.Conserved (s.buf.consume 3) [3] := by
  obtain ⟨s, hr, hp⟩ := TransitionSystem.exists_run_restrict_of_exec
    (fun s _ => ¬ s.LengthOverflow) (· = initial lineHandler) (ReadState.step lineHandler)
    (initial lineHandler) lineAndMore
    (fun s => decide (s.control = .upcall 0 ∧ s.received = [97, 98, 99, 10, 100]))
    (by decide +kernel)
  obtain ⟨hc, hreceived⟩ := of_decide_eq_true hp
  have hs : (boundedReadSystem lineHandler).Reachable s := ⟨_, _, rfl, hr⟩
  obtain ⟨hall, -, hupcall⟩ := received_conserved lineHandler s lineHandler_limit hs
  obtain ⟨hsegment, hconsume⟩ := hupcall 0 hc
  exact ⟨s, hs, hc, hall.trans hreceived, hsegment, hconsume [3]⟩

end Minapp
