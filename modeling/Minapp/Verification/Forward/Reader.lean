import Minapp.Model.Forward
import Minapp.Verification.Receive.Invariant

/-! The session that is read from: what it has been sent and not shown yet is its current
segment, and its buffer holds no more than what no peer has been given. -/

namespace Minapp

namespace ReadState

/-- The segment of an upcall that has not returned. -/
def shown (s : ReadState) : List Byte :=
  match s.control with
  | .upcall _ => s.buf.segment
  | _ => []

/-- What the upcalls that have returned gave to a peer: nothing if the last found none. -/
def given (s : ReadState) : List Byte :=
  if s.settings.doNotConsume then [] else s.delivered.flatten

/-- Where a session that forwards can be, and what its buffer has dropped there. -/
def ForwardControl (s : ReadState) : Prop :=
  match s.control with
  | .read => s.settings.doNotConsume = true → s.buf.erased = []
  | .readSome _ => s.buf.erased = s.given
  | .upcall tail => tail = 0 ∧ s.buf.erased = s.given
  | .idle | .threw => True
  | _ => False

structure Forwards (s : ReadState) : Prop where
  inv : s.Inv
  settings : ∃ peered, s.settings = (forwardHandler peered []).settings
  committed : s.buf.internalInputSize = 0
  shown : s.delivered.flatten ++ s.shown = s.received
  control : s.ForwardControl

variable {s t : ReadState}

theorem forwardHandler_limit (peered : Bool) (segments : List (List Byte)) :
    (forwardHandler peered segments).settings.readBufferSize ≤ maxSize := by
  simp [forwardHandler, maxSize]

theorem Forwards.protocol (hs : s.Forwards) : s.settings.protocol = .any := by
  obtain ⟨peered, h⟩ := hs.settings
  rw [h]
  rfl

theorem doNotConsume_forwardHandler (peered : Bool) :
    (forwardHandler peered []).settings.doNotConsume = !peered := by
  cases peered <;> decide

/-- The buffer is the stream from what it has dropped on. -/
theorem erased_whole (ha : s.Accounts 0) (hc : s.buf.internalInputSize = 0) :
    s.buf.erased ++ s.buf.whole = s.received := by
  rw [← ha.conserved, TripleBuffer.stream, TripleBuffer.outputOffset, hc]
  rfl

/-- At an upcall the buffer holds all that no peer has been given. -/
theorem Forwards.given_whole (hs : s.Forwards) {tail : ℕ} (hc : s.control = .upcall tail) :
    s.given ++ s.buf.whole = s.received := by
  have ha := hs.inv.accounts
  have hcontrol := hs.control
  simp only [arrived, hc] at ha
  simp only [ForwardControl, hc] at hcontrol
  rw [← hcontrol.2]
  exact erased_whole ha hs.committed

theorem Forwards.committed_beginFrame (hs : s.Forwards) :
    s.beginFrame.buf.internalInputSize = 0 := by
  rw [beginFrame]
  split <;> exact hs.committed

theorem Forwards.read_eq (hs : s.Forwards) : s.read =
    s.beginFrame.asyncRead s.settings.readBufferSize (.readSome s.settings.readBufferSize) := by
  rw [ReadState.read_eq, hs.protocol]
  exact if_neg (Nat.not_lt.mpr (Nat.le_of_eq hs.committed_beginFrame))

/-- The session reads on, with what it keeps of the buffer before the next bytes. -/
theorem Forwards.read (hs : s.Forwards) (hc : s.control = .read) : s.read.Forwards := by
  have ha := hs.inv.accounts
  have hcontrol := hs.control
  have hshown := hs.shown
  simp only [arrived, hc] at ha
  simp only [ForwardControl, hc] at hcontrol
  simp only [ReadState.shown, hc, List.append_nil] at hshown
  have hinternal := hs.committed_beginFrame
  have herased : s.beginFrame.buf.erased = s.given := by
    rw [beginFrame, given]
    by_cases hdnc : s.settings.doNotConsume = true
    · rw [if_pos hdnc, if_pos hdnc]
      exact hcontrol hdnc
    · rw [if_neg hdnc, if_neg hdnc, hshown]
      exact erased_whole ha hs.committed
  have hvalid := (accounts_beginFrame ha).valid
  have hinv : s.read.Inv := inv_read ha
  rw [hs.read_eq, asyncRead_eq hvalid ha.limit] at hinv ⊢
  split at hinv
  · rename_i hroom
    rw [if_pos hroom]
    exact ⟨hinv, hs.settings, hinternal, (List.append_nil _).trans hshown, herased⟩
  · rename_i hroom
    rw [if_neg hroom]
    exact ⟨hinv, hs.settings, hinternal, (List.append_nil _).trans hshown, trivial⟩

/-- The socket delivers, and all that it delivers is shown. -/
theorem Forwards.receive (hs : s.Forwards) {asked : ℕ} {bytes : List Byte}
    (hw : s.waiting = true) (hlen : bytes.length ≤ asked) (hasked : asked ≤ s.room)
    (hne : bytes = [] → s.control = .readSome 0) : (s.receive asked bytes).Forwards := by
  have hinv := inv_receive hs.inv hlen hasked hne
  have hcontrol := hs.control
  have hshown := hs.shown
  obtain ⟨ha, hci⟩ := hs.inv
  cases hc : s.control <;> simp only [waiting, hc, Bool.false_eq_true] at hw <;>
    simp only [ForwardControl, hc] at hcontrol
  case readSome n =>
    simp only [arrived, ControlInv, room, hc] at ha hci hasked
    obtain ⟨hbegun, hzero, -, hinside⟩ := hci
    simp only [ReadState.shown, hc, List.append_nil] at hshown
    have hcontrol' : (s.receive asked bytes).control = .upcall 0 := by
      simp only [ReadState.receive, hc]
      rfl
    have herased : (s.receive asked bytes).buf.erased = s.buf.erased := by
      simp only [ReadState.receive, hc]
      rfl
    have hinternal : (s.receive asked bytes).buf.internalInputSize = 0 := by
      simp only [ReadState.receive, hc]
      rfl
    have hreceived : (s.receive asked bytes).received = s.received ++ bytes := by
      simp only [ReadState.receive, hc]
      rfl
    have hsame : (s.receive asked bytes).settings = s.settings ∧
        (s.receive asked bytes).delivered = s.delivered := by
      simp only [ReadState.receive, hc]
      exact ⟨rfl, rfl⟩
    have hoffset : (s.receive asked bytes).buf.segmentOffset = s.buf.externalInputSize := by
      have hle : s.buf.segmentSize ≤ s.buf.externalInputSize + (s.buf.internalInputSize +
          min bytes.length (s.buf.fill s.buf.outputOffset bytes).outputBufferSize) := by
        rw [hbegun.mark, hbegun.external]
        omega
      simp only [ReadState.receive, hc]
      exact (Nat.min_eq_left hle).trans (hbegun.mark.trans hbegun.external.symm)
    generalize s.receive asked bytes = t at *
    have ha' := hinv.accounts
    have hci' := hinv.control
    simp only [arrived, ControlInv, hcontrol'] at ha' hci'
    have hwhole : t.buf.whole = s.buf.whole ++ bytes := by
      have hboth : s.buf.erased ++ t.buf.whole = s.buf.erased ++ (s.buf.whole ++ bytes) := by
        rw [← List.append_assoc, erased_whole ha hzero, ← hreceived,
          ← erased_whole ha' hinternal, herased]
      exact List.append_cancel_left hboth
    have hsegment : t.buf.segment = bytes := by
      have hlen : s.buf.whole.length = s.buf.externalInputSize :=
        TripleBuffer.length_externalInput (by
          have hz := ha.valid.zones
          rw [TripleBuffer.outputOffset] at hz
          omega)
      rw [TripleBuffer.segment_eq_drop hci'.ends, hoffset, hwhole, ← hlen, List.drop_left]
    refine ⟨hinv, hsame.1 ▸ hs.settings, hinternal, ?_, ?_⟩
    · rw [hsame.2, ReadState.shown, hcontrol', hreceived]
      exact congrArg₂ (· ++ ·) hshown hsegment
    · rw [ForwardControl, hcontrol', herased, given, hsame.1, hsame.2]
      exact ⟨rfl, hcontrol⟩

/-- The upcall returns. It drops nothing by itself, and if it has found no peer none before it
has. -/
theorem Forwards.handlerRead (hs : s.Forwards) {tail : ℕ} (hc : s.control = .upcall tail)
    {peered : Bool} (hfirst : peered = false → s.settings.doNotConsume = true ∨ s.delivered = []) :
    (s.handlerRead (forwardHandler peered) tail).Forwards := by
  have ha := hs.inv.accounts
  have hcontrol := hs.control
  have hshown := hs.shown
  simp only [arrived, hc] at ha
  simp only [ForwardControl, hc] at hcontrol
  simp only [ReadState.shown, hc] at hshown
  obtain ⟨rfl, herased⟩ := hcontrol
  refine ⟨inv_handlerRead 0 ha (forwardHandler_limit peered), ⟨peered, rfl⟩, ?_, ?_, ?_⟩
  · change (s.buf.commitToExternalInput 0).internalInputSize = 0
    rw [TripleBuffer.commitToExternalInput_eq]
    exact (Nat.sub_zero _).trans hs.committed
  · change (s.delivered ++ [s.buf.segment]).flatten ++ [] = s.received
    rw [List.append_nil, List.flatten_append, List.flatten_singleton]
    exact hshown
  · intro hdnc
    change (forwardHandler peered []).settings.doNotConsume = true at hdnc
    rw [doNotConsume_forwardHandler] at hdnc
    change s.buf.erased = []
    rw [herased, given]
    rcases hfirst (by simpa using hdnc) with hkept | hnil
    · rw [if_pos hkept]
    · rw [hnil]
      exact ite_self _

/-- The session is closed in its upcall. -/
theorem Forwards.idle (hs : s.Forwards) (hc : s.control = .read) :
    Forwards { s with control := .idle } := by
  have ha := hs.inv.accounts
  have hshown := hs.shown
  simp only [arrived, hc] at ha
  simp only [ReadState.shown, hc] at hshown
  exact ⟨⟨⟨ha.valid, ha.conserved, ha.limit⟩, trivial⟩, hs.settings, hs.committed, hshown, trivial⟩

/-- A step that does not call the handler, under whatever handler. -/
theorem Forwards.step {h : ReadHandler} {e : ReadEvent} (hs : s.Forwards)
    (hne : ∀ tail, s.control ≠ .upcall tail) (ht : s.step h e = some t) : t.Forwards := by
  have hcontrol := hs.control
  cases step_cases ht with
  | read hc => exact hs.read hc
  | readPrefix hc | completeUntil hc _ => simp only [ForwardControl, hc] at hcontrol
  | upcall hc => exact absurd hc (hne _)
  | receive hw hlen hasked hbytes => exact hs.receive hw hlen hasked hbytes

/-- What such a step keeps. -/
structure KeepsGiven (s t : ReadState) : Prop where
  settings : t.settings = s.settings
  delivered : t.delivered = s.delivered
  received : s.received <+: t.received

theorem KeepsGiven.given (h : KeepsGiven s t) : t.given = s.given := by
  rw [ReadState.given, ReadState.given, h.settings, h.delivered]

theorem Forwards.keeps_step {h : ReadHandler} {e : ReadEvent} (hs : s.Forwards)
    (hne : ∀ tail, s.control ≠ .upcall tail) (ht : s.step h e = some t) : KeepsGiven s t := by
  have hcontrol := hs.control
  cases step_cases ht with
  | read hc =>
      rw [hs.read_eq, asyncRead]
      cases s.beginFrame.buf.prepareOutputBuffer s.settings.readBufferSize <;>
        exact ⟨rfl, rfl, List.prefix_rfl⟩
  | readPrefix hc | completeUntil hc _ => simp only [ForwardControl, hc] at hcontrol
  | upcall hc => exact absurd hc (hne _)
  | receive hw _ _ _ =>
      cases hc : s.control <;> simp only [waiting, hc, Bool.false_eq_true] at hw <;>
        simp only [ForwardControl, hc] at hcontrol
      simp only [ReadState.receive, hc]
      exact ⟨rfl, rfl, List.prefix_append _ _⟩

theorem forwards_initial : (initial (forwardHandler true)).Forwards where
  inv := inv_initial (forwardHandler_limit true)
  settings := ⟨true, rfl⟩
  committed := rfl
  shown := rfl
  control := fun _ => rfl

end ReadState

end Minapp
