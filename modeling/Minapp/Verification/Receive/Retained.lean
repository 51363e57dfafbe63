import Minapp.Verification.Receive.Conservation
import Minapp.Verification.Receive.Framing

/-! What a handler that calls no `consume` finds in `buf.whole()`: the segments of the upcalls
since the session last read without `do_not_consume_buffer`. -/

namespace Minapp

/-- A handler that frames its input, is shown the frames whole, and consumes nothing itself. -/
structure ReadHandler.Plain (h : ReadHandler) : Prop where
  framing : ∀ segments, (h segments).settings.Framing
  consumes : ∀ segments, (h segments).consumes = []
  shown : ∀ segments, (h segments).settings.ignoreProtocol = false

/-- `kept` is what the session retains before the next frame. -/
structure ReadHandler.Keeps (h : ReadHandler) (kept : List (List Byte) → List Byte) : Prop where
  nil : kept [] = []
  snoc : ∀ segments segment, kept (segments ++ [segment]) =
    if (h (segments ++ [segment])).settings.doNotConsume then kept segments ++ segment else []

/-- A frame of which the handler is shown everything. -/
theorem parseFrame_shown {s : Settings} {room total tail : ℕ} {input segment : List Byte}
    (hs : s.ignoreProtocol = false) (h : parseFrame s room input = .frame total tail segment) :
    tail = 0 ∧ segment = input.take total := by
  have hfixed : ∀ {n : ℕ}, fixedFrame room n 0 input = .frame total tail segment →
      tail = 0 ∧ segment = input.take total := by
    intro n h
    rw [fixedFrame] at h
    split_ifs at h
    obtain ⟨rfl, rfl, rfl⟩ := Frame.frame.inj h
    exact ⟨rfl, List.drop_zero⟩
  have hdelim : ∀ {delim : List Byte}, delimFrame s delim room input = .frame total tail segment →
      tail = 0 ∧ segment = input.take total := by
    intro delim h
    simp only [delimFrame, hs, Bool.false_eq_true, if_false, Nat.sub_zero] at h
    split at h
    · obtain ⟨rfl, rfl, rfl⟩ := Frame.frame.inj h
      exact ⟨rfl, rfl⟩
    · split_ifs at h
  have hfield : prefixFrame s room input = .frame total tail segment →
      tail = 0 ∧ segment = input.take total := by
    intro h
    simp only [prefixFrame, fieldFrame, hs, Bool.false_eq_true, if_false] at h
    split_ifs at h
    exact hfixed h
  rw [parseFrame] at h
  split at h
  · cases hp : s.protocol <;> rw [hp] at h
    case fixed => exact hfixed h
    case delim | delimZero | delimCr | delimLf | delimCrlf => exact hdelim h
    case prefix8 | prefix16 | prefix32 | prefix64 | prefixVar => exact hfield h
    all_goals cases h
  · cases h

namespace ReadState

/-- The external input before the current frame. -/
def frameKept (s : ReadState) : List Byte :=
  (s.inFrame.received.drop s.inFrame.buf.erased.length).take s.inFrame.frameStart

/-- What is retained is what `kept` says, and the frame begins after it. -/
structure Retains (kept : List (List Byte) → List Byte) (s : ReadState) : Prop where
  bytes : s.frameKept = kept s.delivered
  start : s.inFrame.frameStart = (kept s.delivered).length

variable {h : ReadHandler} {kept : List (List Byte) → List Byte} {s t : ReadState}

theorem Retains.sameFrame (hk : s.Retains kept) (hs : SameFrame s.inFrame t)
    (hne : t.control ≠ .read) : t.Retains kept := by
  have hdelivered : s.inFrame.delivered = s.delivered := by
    rw [inFrame]
    split <;> rfl
  have hin : t.inFrame = t := if_neg hne
  constructor
  · rw [frameKept, hin, hs.received, hs.erased, hs.frameStart, hs.delivered, hdelivered]
    exact hk.bytes
  · rw [hin, hs.frameStart, hs.delivered, hdelivered]
    exact hk.start

/-- The external input at an upcall: what was kept, and the segment. -/
theorem whole_of_upcall (hshown : s.settings.ignoreProtocol = false) {tail : ℕ} (hs : s.Inv)
    (hd : s.Decides) (hc : s.control = .upcall tail) :
    tail = 0 ∧ s.buf.whole = s.frameKept ++ s.buf.segment := by
  obtain ⟨ha, hci⟩ := hs
  simp only [arrived, ControlInv, hc] at ha hci
  simp only [Decides, hc] at hd
  obtain ⟨rfl, hsegment⟩ := parseFrame_shown hshown hd
  have hin : s.inFrame = s := if_neg (by simp [hc])
  have hstart : s.frameStart ≤ s.buf.externalInputSize := by
    have h₁ := hci.start_le
    have h₂ := hci.ends
    omega
  refine ⟨rfl, ?_⟩
  rw [hsegment, frameInput, frameKept, hin, TripleBuffer.whole_eq_stretch ha.valid, ha.conserved,
    TripleBuffer.externalEnd, List.drop_take, Nat.add_sub_cancel_left, ← List.drop_drop,
    ← List.take_add]
  congr 1
  omega

/-- After the upcall. -/
theorem retains_handlerRead (hplain : h.Plain) (hkeeps : h.Keeps kept) {tail : ℕ} (hs : s.Inv)
    (hsim : Simulates h s) (hk : s.Retains kept) (hc : s.control = .upcall tail) :
    (s.handlerRead h tail).Retains kept := by
  have hshown : s.settings.ignoreProtocol = false := hsim.settings ▸ hplain.shown _
  obtain ⟨rfl, hwhole⟩ := whole_of_upcall hshown hs hsim.decides hc
  obtain ⟨ha, hci⟩ := hs
  simp only [arrived, ControlInv, hc] at ha hci
  have hbuf : (s.handlerRead h 0).buf = s.buf := by
    rw [handlerRead, hplain.consumes]
    rw [List.foldl_nil, TripleBuffer.commitToExternalInput_eq]
    simp
  have hbegin : (s.handlerRead h 0).inFrame = (s.handlerRead h 0).beginFrame := if_pos rfl
  have hset : (s.handlerRead h 0).settings =
      (h (s.delivered ++ [s.buf.segment])).settings := rfl
  have hdelivered : (s.handlerRead h 0).delivered = s.delivered ++ [s.buf.segment] := rfl
  have hlen : s.buf.whole.length = s.buf.externalInputSize := by
    have hz := ha.valid.zones
    exact TripleBuffer.length_externalInput (by rw [TripleBuffer.outputOffset] at hz; omega)
  constructor
  · rw [hdelivered, hkeeps.snoc, frameKept, hbegin, beginFrame, hset, hbuf, ← hk.bytes]
    split
    · rw [← hwhole, TripleBuffer.whole_eq_stretch ha.valid, ha.conserved, TripleBuffer.externalEnd,
        List.drop_take, Nat.add_sub_cancel_left]
      rfl
    · exact List.take_zero
  · rw [hdelivered, hkeeps.snoc, hbegin, beginFrame, hset, hbuf, ← hk.bytes]
    split
    · rw [← hwhole, hlen]
    · rfl

/-- Outside the overflowing case every step of the session keeps what is retained. -/
theorem retains_step (hplain : h.Plain) (hkeeps : h.Keeps kept) {e : ReadEvent} (hs : s.Inv)
    (hsim : Simulates h s) (hk : s.Retains kept) (ht : s.step h e = some t) : t.Retains kept := by
  have hin : s.control ≠ .read → s.inFrame = s := fun hne => if_neg hne
  have hdec := hsim.decides
  have hframing : s.settings.Framing := hsim.settings ▸ hplain.framing s.delivered
  cases step_cases ht with
  | read hc =>
      have hbegin : s.inFrame = s.beginFrame := if_pos hc
      apply hk.sameFrame
      · rw [hbegin]
        exact sameFrame_read hframing
      · exact control_ne_read_of_rank (Nat.lt_succ_of_le s.rank_read)
  | readPrefix hc =>
      rename_i len
      apply hk.sameFrame
      · rw [hin (by simp [hc])]
        exact sameFrame_readPrefix s len
      · exact control_ne_read_of_rank ((s.rank_readPrefix len).trans_lt (by decide))
  | completeUntil hc hu =>
      simp only [Decides, hc] at hdec
      apply hk.sameFrame
      · rw [hin (by simp [hc])]
        exact (decides_completeUntil hc hs hdec hu).1
      · exact control_ne_read_of_rank ((rank_completeUntil hu).trans_lt (by decide))
  | upcall hc => exact retains_handlerRead hplain hkeeps hs hsim hk hc
  | receive hw hlen hasked hne =>
      rename_i asked bytes
      obtain ⟨hr, -, hne'⟩ := decides_receive hs hdec hw hlen hasked hne
      have hc : s.control ≠ .read := by
        intro hc
        simp [waiting, hc] at hw
      have hle := frameStart_le_of_waiting hs hw
      have hin' : (s.receive asked bytes).inFrame = s.receive asked bytes := if_neg hne'
      constructor
      · rw [frameKept, hin', hr.received, hr.erased, hr.frameStart, hr.delivered,
          List.drop_append_of_le_length (by omega),
          List.take_append_of_le_length (by rw [List.length_drop]; omega), ← hk.bytes, frameKept,
          hin hc]
      · rw [hin', hr.frameStart, hr.delivered, ← hk.start, hin hc]

theorem retains_initial (hkeeps : h.Keeps kept) : (initial h).Retains kept := by
  have hbegin : (initial h).inFrame = (initial h).beginFrame := if_pos rfl
  have hdelivered : (initial h).delivered = [] := rfl
  constructor
  · have hreceived : (initial h).beginFrame.received = [] := rfl
    rw [frameKept, hbegin, hreceived, List.drop_nil, List.take_nil, hdelivered, hkeeps.nil]
  · rw [hbegin, beginFrame, hdelivered, hkeeps.nil]
    split <;> rfl

end ReadState

end Minapp
