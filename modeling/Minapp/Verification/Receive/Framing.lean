import Minapp.Verification.Receive.Conservation
import Minapp.Verification.Receive.Limit
import Minapp.Verification.Receive.Simulation

/-! # Framing

However the stream is cut into received chunks, the segments delivered and the way
framing ends are those of the reference parser, unless a step decodes an overflowing
length field. -/

namespace Minapp

namespace ReadState

/-- `t` is in the same frame as `s`, of which it has received `bytes` more. -/
structure Receives (s t : ReadState) (bytes : List Byte) : Prop where
  settings : t.settings = s.settings
  delivered : t.delivered = s.delivered
  frameStart : t.frameStart = s.frameStart
  received : t.received = s.received ++ bytes
  erased : t.buf.erased = s.buf.erased

variable {s t : ReadState} {h : ReadHandler} {bytes : List Byte}

theorem Receives.frameInput (hr : Receives s t bytes)
    (hle : s.buf.erased.length + s.frameStart ≤ s.received.length) :
    t.frameInput = s.frameInput ++ bytes := by
  unfold ReadState.frameInput
  rw [hr.received, hr.erased, hr.frameStart, List.drop_append_of_le_length hle]

theorem Receives.frame (hr : Receives s t bytes)
    (hle : s.buf.erased.length + s.frameStart ≤ s.received.length) :
    t.frame = parseFrame s.settings s.frameRoom (s.frameInput ++ bytes) := by
  unfold ReadState.frame frameRoom
  rw [hr.settings, hr.frameStart, hr.frameInput hle]

/-- The frame begins inside what has been received. -/
theorem frameStart_le_received {k : ℕ} (ha : s.Accounts k)
    (hle : s.frameStart ≤ s.buf.outputOffset + k) :
    s.buf.erased.length + s.frameStart ≤ s.received.length := by
  have hz := ha.valid.zones
  rw [← ha.conserved, TripleBuffer.stream, List.length_append, List.length_take_of_le hz]
  omega

/-- While an asynchronous read is outstanding its frame has begun. -/
theorem frameStart_le_of_waiting (hs : s.Inv) (hw : s.waiting = true) :
    s.buf.erased.length + s.frameStart ≤ s.received.length := by
  apply frameStart_le_received hs.accounts
  have hci := hs.control
  rw [TripleBuffer.outputOffset]
  cases hc : s.control <;> simp only [ControlInv, waiting, hc, Bool.false_eq_true] at hci hw
  case readSome n =>
    have := hci.1.external
    omega
  case readFixed n got => omega
  case prefixBytes len n got =>
    have := hci.2.1.external
    omega
  case readDelim delim ignore maximum =>
    have := hci.1.external
    omega

theorem Announces.receives {total skip : ℕ} (ha : s.Announces total skip)
    (hr : Receives s t bytes)
    (hle : s.buf.erased.length + s.frameStart ≤ s.received.length) :
    t.Announces total skip := by
  intro future
  rw [frameRoom]
  rw [hr.settings, hr.frameStart, hr.frameInput hle, List.append_assoc]
  exact ha (bytes ++ future)

theorem Delimited.receives {delim : List Byte} (hd : s.Delimited delim) (hr : Receives s t bytes)
    (hle : s.buf.erased.length + s.frameStart ≤ s.received.length) : t.Delimited delim := by
  intro future
  rw [frameRoom]
  rw [hr.settings, hr.frameStart, hr.frameInput hle, List.append_assoc]
  exact hd (bytes ++ future)

/-- A read of the rest of a frame agrees with the reference, complete or not. -/
theorem decides_receive_fixed {n got asked : ℕ} (hc : s.control = .readFixed n got)
    (hs : s.Inv) (hd : s.Decides) (hlen : bytes.length ≤ asked) (hasked : asked ≤ s.room) :
    Receives s (s.receive asked bytes) bytes ∧ (s.receive asked bytes).Decides := by
  obtain ⟨ha, hci⟩ := hs
  have hn : asked ≤ n - got := by simpa [room, hc] using hasked
  simp only [arrived, ControlInv, hc] at ha hci
  simp only [Decides, hc] at hd
  obtain ⟨⟨hgot, hin⟩, hmark, hle, hwithin⟩ := hci
  have hfits := ha.valid.fits
  have hfill : s.buf.outputOffset + got + bytes.length ≤ s.buf.storage.length := by omega
  have hext : s.buf.externalInputSize ≤ s.buf.outputOffset := Nat.le_add_right _ _
  have hstart := frameStart_le_received ha (by omega)
  have hinput := length_frameInput ha
  set filled := s.buf.fill (s.buf.outputOffset + got) bytes with hfilled
  obtain ⟨hv, hs⟩ := ha.fill hfill
  simp only [receive, hc]
  rw [← hfilled] at hv hs ⊢
  split
  · rename_i hdone
    rw [hdone] at hv hs
    obtain ⟨-, hs'⟩ := accounts_commitWhole hv
    have heq := TripleBuffer.commitToInternalInput_eq hv
    set b := (filled.commitToInternalInput n).commitWholeInternalInput with hb
    have hbext : b.externalInputSize = s.buf.outputOffset + n := by
      rw [hb, heq]
      exact (Nat.add_assoc _ _ _).symm
    have hbmark : b.segmentSize = s.buf.segmentSize := by
      rw [hb, heq]
      rfl
    have hberased : b.erased = s.buf.erased := by
      rw [hb, heq]
      rfl
    set s' : ReadState := { s with
      control := .readFixed n got
      received := s.received ++ bytes } with hs''
    have hr' : Receives s s' bytes := ⟨rfl, rfl, rfl, rfl, rfl⟩
    have hr : Receives s (s'.deliver b 0) bytes := ⟨rfl, rfl, rfl, rfl, hberased⟩
    have hseg := segment_deliver (s := s') 0 (hs'.trans hs) hberased (hbmark ▸ hmark)
      (by omega)
    refine ⟨hr, ?_⟩
    change ReadState.frame _ = .frame (b.externalInputSize + 0 - s.frameStart) 0 _
    rw [hr.frame hstart, hd bytes, hseg, hr'.frameInput hstart, fixedFrame,
      if_neg (by rw [frameRoom]; omega), if_neg (by rw [List.length_append]; omega), hbext, hbmark]
    rfl
  · have hr : Receives s { s with
        received := s.received ++ bytes
        buf := filled
        control := .readFixed n (got + bytes.length) } bytes := ⟨rfl, rfl, rfl, rfl, rfl⟩
    exact ⟨hr, Announces.receives hd hr hstart⟩

theorem decides_receive {asked : ℕ} (hs : s.Inv) (hd : s.Decides) (hw : s.waiting = true)
    (hlen : bytes.length ≤ asked) (hasked : asked ≤ s.room)
    (hne : bytes = [] → s.control = .readSome 0) :
    Receives s (s.receive asked bytes) bytes ∧
      (s.receive asked bytes).Decides ∧ (s.receive asked bytes).control ≠ .read := by
  cases hc : s.control with
  | readSome n => simp only [Decides, hc] at hd
  | readFixed n got =>
      obtain ⟨hr, hd'⟩ := decides_receive_fixed hc hs hd hlen hasked
      refine ⟨hr, hd', ?_⟩
      simp only [receive, hc]
      split <;> simp [deliver]
  | prefixBytes len n got =>
      simp only [receive, hc]
      split
      · exact ⟨⟨rfl, rfl, rfl, rfl, rfl⟩, trivial, by simp⟩
      · exact ⟨⟨rfl, rfl, rfl, rfl, rfl⟩, trivial, by simp⟩
  | readDelim delim ignore maximum =>
      have hne' : bytes ≠ [] := by
        intro h
        have := hne h
        rw [hc] at this
        exact absurd this (by simp)
      obtain ⟨heq, -⟩ := inv_receive_delim hc hs hlen hasked hne'
      have hr : Receives s (s.receive asked bytes) bytes := by
        rw [heq]
        exact ⟨rfl, rfl, rfl, rfl, rfl⟩
      have hstart := frameStart_le_of_waiting hs hw
      simp only [Decides, hc] at hd
      refine ⟨hr, ?_, ?_⟩
      · have hctl : (s.receive asked bytes).control = .readDelim delim ignore maximum := by
          rw [heq]
          exact hc
        simp only [Decides, hctl]
        exact Delimited.receives hd hr hstart
      · rw [heq]
        simp [hc]
  | read | readPrefix len | upcall tail | idle | failed ec | threw | overrun =>
      simp [waiting, hc] at hw

/-! ## How far a state is from the next upcall -/

/-- The steps of the session that may follow without a byte received or delivered. -/
def rank (s : ReadState) : ℕ :=
  match s.control with
  | .read => 3
  | .readPrefix _ => 2
  | .readSome _ | .readFixed _ _ | .prefixBytes _ _ _ | .readDelim _ _ _ => 1
  | _ => 0

theorem control_ne_read_of_rank (hr : s.rank < 3) : s.control ≠ .read := by
  intro hc
  simp [rank, hc] at hr

theorem rank_asyncRead (s : ReadState) (n : ℕ) (c : Control) :
    (s.asyncRead n c).rank ≤ rank { s with control := c } := by
  rw [asyncRead]
  split
  · exact Nat.zero_le _
  · rw [rank]
    split_ifs
    · exact le_rfl
    · exact Nat.zero_le _

theorem rank_readSome (s : ReadState) (n : ℕ) : (s.readSome n).rank ≤ 1 := by
  rw [readSome]
  split
  · exact Nat.zero_le _
  · exact rank_asyncRead s n _

theorem rank_readFixed (s : ReadState) (n : ℕ) : (s.readFixed n).rank ≤ 1 := by
  unfold readFixed
  simp only
  split
  · exact Nat.zero_le _
  · exact rank_asyncRead s _ _

theorem rank_readDelim (s : ReadState) (delim : List Byte) : (s.readDelim delim).rank ≤ 1 := by
  rw [readDelim]
  split
  · exact rank_readSome s _
  · exact le_rfl

theorem rank_read (s : ReadState) : s.read.rank ≤ 2 := by
  rw [read_eq]
  split
  case h_2 => exact (rank_readSome _ _).trans (by decide)
  case h_3 => exact (rank_readFixed _ _).trans (by decide)
  case h_4 | h_5 | h_6 | h_7 | h_8 => exact (rank_readDelim _ _).trans (by decide)
  all_goals exact Nat.le_of_ble_eq_true rfl

theorem rank_readPrefix (s : ReadState) (len : ℕ) : (s.readPrefix len).rank ≤ 1 := by
  rw [readPrefix]
  simp only
  split
  · exact Nat.zero_le _
  · exact rank_asyncRead s _ _
  · exact rank_readFixed _ _

theorem rank_completeUntil {delim : List Byte} {ignore : Bool} {maximum : ℕ}
    (ht : s.completeUntil delim ignore maximum = some t) : t.rank = 0 := by
  rw [completeUntil] at ht
  split at ht
  · obtain rfl := Option.some.inj ht
    rfl
  · split at ht
    · obtain rfl := Option.some.inj ht
      rfl
    · exact absurd ht (by simp)

/-! ## Simulation of the reference parser -/

/-- The reference parser, between the frames before the current one and the rest. -/
def reference (s : ReadState) : ReferenceState := ⟨s.delivered, s.frameStart⟩

/-- Whatever is received next, parsing the stream goes on with the current frame. -/
def Resumes (h : ReadHandler) (s : ReadState) : Prop :=
  ∀ future, (referenceParser h).parseAll ⟨[], 0⟩ (s.received ++ future) =
    (referenceParser h).parseAll s.reference (s.frameInput ++ future)

/-- The state within its frame, which a call of `read` has yet to begin. -/
def inFrame (s : ReadState) : ReadState := if s.control = .read then s.beginFrame else s

/-- The session and the reference parser are at the same place of the stream. -/
structure Simulates (h : ReadHandler) (s : ReadState) : Prop where
  settings : s.settings = (h s.delivered).settings
  resumes : Resumes h s.inFrame
  decides : s.Decides

/-- What the reference parser decides about the current frame. -/
theorem parse_frame (hset : s.settings = (h s.delivered).settings) :
    (referenceParser h).parse s.reference s.frameInput = s.reference.decision h s.frame := by
  rw [ReadState.frame]
  rw [hset]
  rfl

theorem parse_frame_append (hset : s.settings = (h s.delivered).settings)
    (hne : s.frame ≠ .more) (future : List Byte) :
    (referenceParser h).parse s.reference (s.frameInput ++ future) =
      s.reference.decision h s.frame := by
  rw [← parse_frame hset]
  apply (referenceParser h).stable
  rw [parse_frame hset]
  cases hf : s.frame with
  | more => exact absurd hf hne
  | fail | tooLong | frame => simp [ReferenceState.decision]

theorem Resumes.sameFrame (hr : Resumes h s) (hs : SameFrame s t) : Resumes h t := by
  intro future
  rw [hs.received, hs.frameInput, reference, hs.delivered, hs.frameStart]
  exact hr future

theorem Resumes.receives (hr : Resumes h s) (hs : Receives s t bytes)
    (hle : s.buf.erased.length + s.frameStart ≤ s.received.length) : Resumes h t := by
  intro future
  rw [hs.received, hs.frameInput hle, reference, hs.delivered, hs.frameStart,
    List.append_assoc, List.append_assoc]
  exact hr (bytes ++ future)

theorem simulates_initial (h : ReadHandler) : Simulates h (initial h) := by
  refine ⟨rfl, ?_, trivial⟩
  have hbegin : (initial h).inFrame = (initial h).beginFrame := if_pos rfl
  have hstart : (initial h).beginFrame.frameStart = 0 ∧ (initial h).beginFrame.received = [] ∧
      (initial h).beginFrame.delivered = [] := by
    rw [beginFrame]
    split <;> exact ⟨rfl, rfl, rfl⟩
  intro future
  rw [hbegin, frameInput, reference, hstart.1, hstart.2.1, hstart.2.2, List.drop_nil]

/-- A frame begins where the previous one ends. -/
theorem framePosition_beginFrame (ha : s.Accounts 0) :
    s.beginFrame.buf.erased.length + s.beginFrame.frameStart = s.buf.externalEnd := by
  rw [beginFrame]
  split
  · rfl
  · have := TripleBuffer.externalEnd_eraseFront ha.valid (le_refl s.buf.externalInputSize)
    rw [Nat.sub_self] at this
    exact this

/-- The stream position and the retained bytes after the upcall, the handler's calls of
`consume` and the commit of the delimiter. -/
theorem handlerRead_position {tail : ℕ} (ha : s.Accounts 0) (hd : s.Delivering tail) :
    (s.handlerRead h tail).buf.externalEnd = s.buf.externalEnd + tail ∧
      (s.handlerRead h tail).buf.externalInputSize =
        (h (s.delivered ++ [s.buf.segment])).consumes.foldl (· - ·) s.buf.externalInputSize +
          tail := by
  have hc := TripleBuffer.consumed_foldl (h (s.delivered ++ [s.buf.segment])).consumes ha.valid
  have htail := hd.tail_le
  rw [← hc.internal] at htail
  rw [← hc.externalEnd, ← hc.external]
  rw [handlerRead]
  simp only
  rw [TripleBuffer.commitToExternalInput_eq, Nat.min_eq_left htail]
  exact ⟨(Nat.add_assoc _ _ _).symm, rfl⟩

theorem simulates_handlerRead {tail : ℕ} (hc : s.control = .upcall tail)
    (hh : ∀ segments, (h segments).settings.readBufferSize ≤ maxSize) (hs : s.Inv)
    (hsim : Simulates h s) : Simulates h (s.handlerRead h tail) := by
  obtain ⟨ha, hci⟩ := hs
  obtain ⟨hset, hres, hdec⟩ := hsim
  simp only [arrived, ControlInv, hc] at ha hci
  simp only [Decides, hc] at hdec
  have hin : s.inFrame = s := if_neg (by simp [hc])
  rw [hin] at hres
  set t := s.handlerRead h tail with ht
  have hat : t.Accounts 0 := (inv_handlerRead _ ha hh).accounts
  obtain ⟨hend, hext⟩ := handlerRead_position (h := h) ha hci
  rw [← ht] at hend hext
  have hstart : s.frameStart ≤ s.buf.externalInputSize := by
    have h₁ := hci.start_le
    have h₂ := hci.ends
    omega
  set total := s.buf.externalInputSize + tail - s.frameStart with htotal
  have hbounds := parseFrame_bounds hdec
  refine ⟨rfl, ?_, trivial⟩
  have hbegin : t.inFrame = t.beginFrame := if_pos rfl
  have hdelivered : t.beginFrame.delivered = s.delivered ++ [s.buf.segment] := rfl
  have hreceived : t.beginFrame.received = s.received := rfl
  have hretained : t.beginFrame.reference =
      s.reference.afterFrame h total tail s.buf.segment := by
    have hkept : s.frameStart + (total - tail) = s.buf.externalInputSize := by omega
    have hset' : t.settings = (h (s.delivered ++ [s.buf.segment])).settings := rfl
    unfold reference ReferenceState.afterFrame beginFrame
    simp only
    rw [hkept, ← hext, hset']
    cases (h (s.delivered ++ [s.buf.segment])).settings.doNotConsume <;> rfl
  have hinput : t.beginFrame.frameInput = s.frameInput.drop total := by
    unfold frameInput
    rw [framePosition_beginFrame hat, hend, hreceived, List.drop_drop]
    congr 1
    rw [TripleBuffer.externalEnd]
    omega
  have hstep : ∀ future, (referenceParser h).parse s.reference (s.frameInput ++ future) =
      .item total (s.reference.afterFrame h total tail s.buf.segment) := by
    intro future
    rw [parse_frame_append hset (by rw [hdec]; simp), hdec]
    rfl
  intro future
  rw [hbegin, hreceived, hretained, hinput, hres future,
    (referenceParser h).parseAll_of_item (hstep future),
    List.drop_append_of_le_length hbounds.2]

/-- Outside the overflowing case every step of the session stays with the reference. -/
theorem simulates_step {e : ReadEvent} (hh : ∀ segments, (h segments).settings.Framing)
    (hs : s.Inv) (hsim : Simulates h s) (hno : ¬ s.LengthOverflow) (ht : s.step h e = some t) :
    Simulates h t := by
  obtain ⟨ha, hci⟩ := id hs
  obtain ⟨hset, hres, hdec⟩ := id hsim
  have hframing : s.settings.Framing := hset ▸ hh s.delivered
  have hin : s.control ≠ .read → s.inFrame = s := fun hne => if_neg hne
  cases step_cases ht with
  | read hc =>
      simp only [arrived, hc] at ha
      have hsame := sameFrame_read hframing
      have hbegin : s.inFrame = s.beginFrame := if_pos hc
      have hne := control_ne_read_of_rank (Nat.lt_succ_of_le s.rank_read)
      rw [hbegin] at hres
      refine ⟨?_, ?_, decides_read ha hframing⟩
      · rw [hsame.settings, hsame.delivered]
        exact hset
      · rw [inFrame, if_neg hne]
        exact hres.sameFrame hsame
  | readPrefix hc =>
      rename_i len
      simp only [arrived, ControlInv, hc] at ha hci
      have hsame := sameFrame_readPrefix s len
      have hne := control_ne_read_of_rank ((s.rank_readPrefix len).trans_lt (by decide))
      rw [hin (by simp [hc])] at hres
      refine ⟨?_, ?_, decides_readPrefix hc ha hci.1 hci.2 hframing hno⟩
      · rw [hsame.settings, hsame.delivered]
        exact hset
      · rw [inFrame, if_neg hne]
        exact hres.sameFrame hsame
  | completeUntil hc hu =>
      simp only [Decides, hc] at hdec
      obtain ⟨hsame, hdec'⟩ := decides_completeUntil hc hs hdec hu
      have hne := control_ne_read_of_rank ((rank_completeUntil hu).trans_lt (by decide))
      rw [hin (by simp [hc])] at hres
      refine ⟨?_, ?_, hdec'⟩
      · rw [hsame.settings, hsame.delivered]
        exact hset
      · rw [inFrame, if_neg hne]
        exact hres.sameFrame hsame
  | upcall hc => exact simulates_handlerRead hc (fun segments => (hh segments).1) hs hsim
  | receive hw hlen hasked hne =>
      obtain ⟨hr, hdec', hne'⟩ := decides_receive hs hdec hw hlen hasked hne
      have hc : s.control ≠ .read := by
        intro hc
        simp [waiting, hc] at hw
      rw [hin hc] at hres
      refine ⟨?_, ?_, hdec'⟩
      · rw [hr.settings, hr.delivered]
        exact hset
      · rw [inFrame, if_neg hne']
        exact hres.receives hr (frameStart_le_of_waiting hs hw)

/-! ## Runs over a stream -/

/-- Nothing more can happen to the session over the stream. -/
def Finished (h : ReadHandler) (stream : List Byte) (s : ReadState) : Prop :=
  s.received <+: stream ∧ ∀ e t, s.step h e = some t → ¬ t.received <+: stream

/-- The segments delivered, and why framing has ended if it has. -/
def outcome (s : ReadState) : List (List Byte) × Option Verdict :=
  (s.delivered, match s.control with
    | .failed _ => some .failed
    | .threw => some .threw
    | .overrun => some .overrun
    | _ => none)

/-- The position of the current frame in the stream. -/
def framePosition (s : ReadState) : ℕ := s.inFrame.buf.erased.length + s.inFrame.frameStart

/-- Bounds the steps the session can make over a stream of `l` bytes. -/
def remaining (l : ℕ) (s : ReadState) : ℕ :=
  4 * (l - s.received.length) + 4 * (l - s.framePosition) + s.rank

theorem remaining_sameFrame {l : ℕ} (hs : SameFrame s.inFrame t) (hne : t.control ≠ .read)
    (hrank : t.rank < s.rank) : t.remaining l < s.remaining l := by
  have hreceived : s.inFrame.received = s.received := by
    rw [inFrame]
    split <;> rfl
  have hpos : t.framePosition = s.framePosition := by
    rw [framePosition, framePosition, inFrame, if_neg hne, hs.erased, hs.frameStart]
  unfold remaining
  rw [hpos, hs.received, hreceived]
  omega

theorem remaining_step {l : ℕ} {e : ReadEvent} (hs : s.Inv)
    (hh : ∀ segments, (h segments).settings.Framing) (hsim : Simulates h s)
    (ht : s.step h e = some t) (hl : t.received.length ≤ l) : t.remaining l < s.remaining l := by
  obtain ⟨ha, hci⟩ := id hs
  obtain ⟨hset, hres, hdec⟩ := hsim
  have hin : s.control ≠ .read → s.inFrame = s := fun hne => if_neg hne
  cases step_cases ht with
  | read hc =>
      have hbegin : s.inFrame = s.beginFrame := if_pos hc
      have hr := s.rank_read
      refine remaining_sameFrame ?_ (control_ne_read_of_rank (by omega)) ?_
      · rw [hbegin]
        exact sameFrame_read (hset ▸ hh s.delivered)
      · have : s.rank = 3 := by simp [rank, hc]
        omega
  | readPrefix hc =>
      rename_i len
      have hr := s.rank_readPrefix len
      refine remaining_sameFrame ?_ (control_ne_read_of_rank (by omega)) ?_
      · rw [hin (by simp [hc])]
        exact sameFrame_readPrefix s len
      · have : s.rank = 2 := by simp [rank, hc]
        omega
  | completeUntil hc hu =>
      simp only [Decides, hc] at hdec
      have hr := rank_completeUntil hu
      refine remaining_sameFrame ?_ (control_ne_read_of_rank (by omega)) ?_
      · rw [hin (by simp [hc])]
        exact (decides_completeUntil hc hs hdec hu).1
      · have : s.rank = 1 := by simp [rank, hc]
        omega
  | upcall hc =>
      rename_i tail
      simp only [arrived, ControlInv, hc] at ha hci
      simp only [Decides, hc] at hdec
      have hat := (inv_handlerRead (h := h) tail ha fun segments => (hh segments).1).accounts
      have hbounds := parseFrame_bounds hdec
      have hstart : s.buf.erased.length + s.frameStart ≤ s.received.length := by
        apply frameStart_le_received ha
        have h₁ := hci.start_le
        have h₂ := hci.ends
        rw [TripleBuffer.outputOffset]
        omega
      have hlen : s.frameInput.length =
          s.received.length - (s.buf.erased.length + s.frameStart) := List.length_drop
      have hpos : s.framePosition = s.buf.erased.length + s.frameStart := by
        rw [framePosition, hin (by simp [hc])]
      have hpos' : (s.handlerRead h tail).framePosition = s.buf.externalEnd + tail := by
        have hbegin : (s.handlerRead h tail).inFrame = (s.handlerRead h tail).beginFrame :=
          if_pos rfl
        rw [framePosition, hbegin, framePosition_beginFrame hat, (handlerRead_position ha hci).1]
      have hrank : s.rank = 0 := by simp [rank, hc]
      have hrank' : (s.handlerRead h tail).rank = 3 := rfl
      have hreceived : (s.handlerRead h tail).received = s.received := rfl
      unfold remaining
      rw [hreceived] at hl ⊢
      rw [hpos, hpos', hrank, hrank']
      rw [TripleBuffer.externalEnd]
      omega
  | receive hw hlen hasked hne =>
      rename_i asked bytes
      obtain ⟨hr, hdec', hne'⟩ := decides_receive hs hdec hw hlen hasked hne
      have hc : s.control ≠ .read := by
        intro hc
        simp [waiting, hc] at hw
      have hpos : (s.receive asked bytes).framePosition = s.framePosition := by
        rw [framePosition, framePosition, inFrame, if_neg hne', hin hc, hr.erased, hr.frameStart]
      have hbytes : 0 < bytes.length := by
        apply List.length_pos_iff.mpr
        intro hnil
        rw [Decides, hne hnil] at hdec
        exact hdec
      have hrank : s.rank = 1 := by
        cases hcs : s.control <;> simp [waiting, hcs] at hw <;> simp [rank, hcs]
      have hrank' : (s.receive asked bytes).rank ≤ 2 := by
        rw [rank]
        split <;> simp_all
      have hreceived := congrArg List.length hr.received
      rw [List.length_append] at hreceived
      unfold remaining
      rw [hpos]
      omega

/-- A step that decodes an overflowing field is the last one, and is bounded like others. -/
theorem remaining_overflow {l : ℕ} {e : ReadEvent} (hno : s.LengthOverflow)
    (ht : s.step h e = some t) : t.remaining l < s.remaining l := by
  have hc := hno.1
  have hin : s.inFrame = s := if_neg (by simp [hc])
  cases step_cases ht with
  | readPrefix hc' =>
      rename_i len
      have hr := s.rank_readPrefix len
      refine remaining_sameFrame ?_ (control_ne_read_of_rank (by omega)) ?_
      · rw [hin]
        exact sameFrame_readPrefix s len
      · have : s.rank = 2 := by simp [rank, hc]
        omega
  | read hc' | upcall hc' | completeUntil hc' =>
      rw [hc] at hc'
      exact absurd hc' (by simp)
  | receive hwait =>
      simp [waiting, hc] at hwait

theorem no_step_of_overrun (hc : s.control = .overrun) (e : ReadEvent) : s.step h e = none := by
  cases e <;> simp [step, waiting, hc]

theorem received_prefix_step {e : ReadEvent} (hs : s.Inv)
    (hh : ∀ segments, (h segments).settings.Framing) (hsim : Simulates h s)
    (ht : s.step h e = some t) : s.received <+: t.received := by
  have hdec := hsim.decides
  cases step_cases ht with
  | read hc =>
      rw [(sameFrame_read (hsim.settings ▸ hh s.delivered)).received]
      exact List.prefix_rfl
  | readPrefix hc =>
      rw [(sameFrame_readPrefix s _).received]
  | completeUntil hc hu =>
      simp only [Decides, hc] at hdec
      rw [(decides_completeUntil hc hs hdec hu).1.received]
  | upcall hc => exact List.prefix_rfl
  | receive hw hlen hasked hne =>
      rw [(decides_receive hs hdec hw hlen hasked hne).1.received]
      exact List.prefix_append _ _

/-- What holds along every run: it is bounded, and before the step that decodes an
overflowing field it stays with the reference. -/
structure Tracks (h : ReadHandler) (l : ℕ) (es : List ReadEvent) (s : ReadState) : Prop where
  bounded : s.received.length ≤ l → es.length + s.remaining l ≤ 8 * l + 3
  follows : (boundedReadSystem h).Run (initial h) es s ∧ s.Inv ∧ Simulates h s ∨
    s.control = .overrun

theorem tracks_initial (l : ℕ) (hh : ∀ segments, (h segments).settings.Framing) :
    Tracks h l [] (initial h) := by
  refine ⟨?_, .inl ⟨.nil, inv_initial fun segments => (hh segments).1, simulates_initial h⟩⟩
  intro _
  have hrank : (initial h).rank = 3 := rfl
  rw [remaining]
  rw [hrank, List.length_nil]
  omega

theorem tracks_step {l : ℕ} {es : List ReadEvent} {e : ReadEvent}
    (hh : ∀ segments, (h segments).settings.Framing) (htr : Tracks h l es s)
    (ht : s.step h e = some t) : Tracks h l (es ++ [e]) t := by
  obtain ⟨hbound, ⟨hrun, hs, hsim⟩ | hc⟩ := htr
  · have hbegins := (received_prefix_step hs hh hsim ht).length_le
    by_cases hno : s.LengthOverflow
    · refine ⟨?_, .inr (control_of_overflow hs hno ht)⟩
      intro hl
      have := hbound (hbegins.trans hl)
      have := remaining_overflow (l := l) hno ht
      rw [List.length_append, List.length_singleton]
      omega
    · refine ⟨?_, .inl ⟨hrun.snoc ⟨hno, ht⟩, inv_step (fun segments => (hh segments).1) hs hno ht,
        simulates_step hh hs hsim hno ht⟩⟩
      intro hl
      have := hbound (hbegins.trans hl)
      have := remaining_step hs hh hsim ht hl
      rw [List.length_append, List.length_singleton]
      omega
  · rw [no_step_of_overrun hc] at ht
    exact absurd ht (by simp)

/-! ## Finished runs -/

/-- While a read is outstanding that is not complete, the frame needs more bytes. -/
theorem frame_of_waiting (hs : s.Inv) (hset : s.settings.Framing) (hd : s.Decides)
    (hw : s.waiting = true) (hrun : s.step h .run = none) : s.frame = .more := by
  obtain ⟨ha, hci⟩ := id hs
  have hz := ha.valid.zones
  have hfits := ha.valid.fits
  have hlen := length_frameInput ha
  cases hc : s.control <;> simp only [waiting, hc, Bool.false_eq_true] at hw <;>
    simp only [arrived, ControlInv, Decides, hc] at ha hci hd hz hlen
  case readFixed n got =>
    obtain ⟨⟨hgot, hin⟩, hmark, hle, hwithin⟩ := hci
    have hframe := hd []
    rw [List.append_nil] at hframe
    apply hframe.trans
    have hext : s.buf.externalInputSize ≤ s.buf.outputOffset := Nat.le_add_right _ _
    rw [fixedFrame, if_neg (by rw [frameRoom]; omega), if_pos (by omega)]
  case prefixBytes len n got =>
    obtain ⟨⟨hgot, hin⟩, hf, hpend, hwithin⟩ := hci
    have hext := hf.external
    rw [TripleBuffer.outputOffset] at hz hlen hin
    have hfield : (∃ n, prefixSize s.settings.protocol = some n) ∨
        s.settings.protocol = .prefixVar :=
      hpend.imp (fun h => ⟨len, h.1⟩) fun h => h.1
    have hneed : fieldSize s.settings s.frameInput = s.buf.internalInputSize + n := by
      rcases hpend with ⟨hp, hsum⟩ | ⟨hp, rfl, -, hcont⟩
      · rw [fieldSize, hp]
        exact hsum.symm
      · -- only continuation bytes have arrived
        obtain rfl : got = 0 := by omega
        have hlen' := TripleBuffer.length_internalInput (b := s.buf) ha.valid.zones
        rw [frameInput_of_begun ha hf, fieldSize, hp]
        change varintLength _ = _
        rw [varintLength, List.takeWhile_eq_self_iff.mpr hcont, hlen']
    rw [ReadState.frame, parseFrame_of_field hset hfield, prefixFrame]
    simp only [hneed]
    rw [if_neg (by rw [frameRoom]; omega), if_neg (by omega),
      if_neg (by rw [frameRoom]; omega), if_pos (by omega)]
  case readDelim delim ignore maximum =>
    obtain ⟨hf, -, rfl, rfl⟩ := hci
    obtain ⟨hdata, hfull, -⟩ := dynamicData_eq ha hf
    have hframe := hd []
    rw [List.append_nil] at hframe
    apply hframe.trans
    simp only [step, hc, completeUntil, hdata] at hrun
    rw [delimFrame]
    simp only
    cases hfind : FirstOccurrence.firstEnd delim
        (s.frameInput.take (min s.frameRoom s.settings.readBufferSize)) with
    | some pos =>
        rw [hfind] at hrun
        exact absurd hrun (by simp)
    | none =>
        rw [hfind] at hrun
        simp only at hrun ⊢
        split at hrun
        · exact absurd hrun (by simp)
        · exact if_neg (mt hfull.mpr ‹_›)

/-- A read that is not complete has room for a byte. -/
theorem room_pos (hs : s.Inv) (hd : s.Decides) (hw : s.waiting = true)
    (hrun : s.step h .run = none) : 0 < s.room := by
  have hci := hs.control
  cases hc : s.control <;> simp only [waiting, hc, Bool.false_eq_true] at hw <;>
    simp only [ControlInv, Decides, hc] at hci hd
  case readFixed n got =>
    have := hci.1.got_lt
    simp only [room, hc]
    omega
  case prefixBytes len n got =>
    have := hci.1.got_lt
    simp only [room, hc]
    omega
  case readDelim delim ignore maximum =>
    have hle : s.buf.dynamicSize maximum ≤ s.buf.dynamicMaxSize maximum := Nat.min_le_right _ _
    simp only [step, hc, completeUntil] at hrun
    simp only [room, hc]
    cases hfind : FirstOccurrence.firstEnd delim (s.buf.dynamicData maximum) with
    | some pos =>
        rw [hfind] at hrun
        exact absurd hrun (by simp)
    | none =>
        rw [hfind] at hrun
        simp only [Option.isSome_none, Bool.false_eq_true, if_false] at hrun ⊢
        split at hrun
        · exact absurd hrun (by simp)
        · omega

/-- The session receives nothing while it runs. -/
theorem received_run (hs : s.Inv) (hframing : s.settings.Framing) (hd : s.Decides)
    (ht : s.step h .run = some t) : t.received = s.received := by
  cases step_cases ht with
  | read hc => exact (sameFrame_read hframing).received
  | readPrefix hc => exact (sameFrame_readPrefix s _).received
  | completeUntil hc hu =>
      simp only [Decides, hc] at hd
      exact (decides_completeUntil hc hs hd hu).1.received

/-- A session that waits when nothing more can happen over the stream has received it all. -/
theorem eq_nil_of_waiting {stream future : List Byte} (hs : s.Inv) (hd : s.Decides)
    (hw : s.waiting = true) (hrun : s.step h .run = none) (hfuture : s.received ++ future = stream)
    (hstop : ∀ e t, s.step h e = some t → ¬ t.received <+: stream) : future = [] := by
  have hroom := room_pos hs hd hw hrun
  cases future with
  | nil => rfl
  | cons c rest =>
      have hreceive : s.step h (.receive 1 [c]) = some (s.receive 1 [c]) := by
        simp only [step]
        exact if_pos ⟨hw, le_rfl, hroom, by simp⟩
      refine absurd ?_ (hstop _ _ hreceive)
      rw [(decides_receive hs hd hw (show [c].length ≤ 1 from le_rfl) hroom (by simp)).1.received,
        ← hfuture]
      exact ⟨rest, by simp⟩

/-- Where the reference parser goes on from between two calls of `read()`. -/
theorem Simulates.referenceParse_eq {stream future : List Byte} (hsim : Simulates h s)
    (hne : s.control ≠ .read) (hfuture : s.received ++ future = stream) :
    referenceParse h stream =
      (((referenceParser h).parseAll s.reference (s.frameInput ++ future)).1.delivered,
        ((referenceParser h).parseAll s.reference (s.frameInput ++ future)).2) := by
  have hres := hsim.resumes
  rw [show s.inFrame = s from if_neg hne] at hres
  rw [referenceParse, ← hfuture, hres future]

/-- Once the session can do nothing more over the stream it has delivered what the
reference parser finds in it, and framing has ended as it does there. -/
theorem outcome_of_finished {stream : List Byte} (hs : s.Inv)
    (hh : ∀ segments, (h segments).settings.Framing) (hsim : Simulates h s)
    (hfin : s.Finished h stream) : s.outcome = referenceParse h stream := by
  obtain ⟨⟨future, hfuture⟩, hstop⟩ := hfin
  have hdec := hsim.decides
  have hset := hsim.settings
  have hframing : s.settings.Framing := hset ▸ hh s.delivered
  have hrun : s.step h .run = none := by
    cases hstep : s.step h .run with
    | none => rfl
    | some t =>
        refine absurd ?_ (hstop .run t hstep)
        rw [received_run hs hframing hdec hstep]
        exact ⟨future, hfuture⟩
  -- the three ways of not going on
  have hended : ∀ v, s.control ≠ .read → s.reference.decision h s.frame = .stop v →
      referenceParse h stream = (s.delivered, some v) := by
    intro v hne hd
    have hmore : s.frame ≠ .more := by
      intro hm
      simp [hm, ReferenceState.decision] at hd
    have hp := parse_frame_append hset hmore future
    rw [hd] at hp
    rw [hsim.referenceParse_eq hne hfuture, (referenceParser h).parseAll_of_stop hp]
    rfl
  have hwaits : s.waiting = true → referenceParse h stream = (s.delivered, none) := by
    intro hw
    have hne : s.control ≠ .read := by
      intro hc
      simp [waiting, hc] at hw
    have hnil := eq_nil_of_waiting hs hdec hw hrun hfuture hstop
    have hp := parse_frame (h := h) hset
    rw [frame_of_waiting hs hframing hdec hw hrun] at hp
    rw [hsim.referenceParse_eq hne hfuture, hnil, List.append_nil,
      (referenceParser h).parseAll_of_more hp]
    rfl
  cases hc : s.control with
  | readSome n => simp only [Decides, hc] at hdec
  | idle => simp only [Decides, hc] at hdec
  | overrun => simp only [Decides, hc] at hdec
  | read | readPrefix len =>
      simp only [step, hc] at hrun
      exact absurd hrun (by simp)
  | upcall tail =>
      have hstep : s.step h .upcall = some (s.handlerRead h tail) := by simp only [step, hc]
      exact absurd ⟨future, hfuture⟩ (hstop .upcall (s.handlerRead h tail) hstep)
  | readFixed n got | prefixBytes len n got | readDelim delim ignore maximum =>
      rw [hwaits (by simp [waiting, hc]), outcome, hc]
  | failed ec =>
      simp only [Decides, hc] at hdec
      rw [hended .failed (by simp [hc]) (by rw [hdec]; rfl), outcome, hc]
  | threw =>
      simp only [Decides, hc] at hdec
      rw [hended .threw (by simp [hc]) (by rw [hdec]; rfl), outcome, hc]

end ReadState

open ReadState

/-- A run of the session over a stream, however the stream is cut into chunks, is bounded;
when nothing more can happen it has delivered the segments of the reference parse and
ended as the reference does, exactly if no step has decoded an overflowing length field. -/
theorem framing_matches_reference (h : ReadHandler) (stream : List Byte) (es : List ReadEvent)
    (s : ReadState) (hh : ∀ segments, (h segments).settings.Framing)
    (hr : (readSystem h).Run (initial h) es s) :
    (s.received <+: stream → es.length ≤ 8 * stream.length + 3) ∧
    (s.Finished h stream →
      (s.outcome = referenceParse h stream ↔ (boundedReadSystem h).Run (initial h) es s)) := by
  have htracks : Tracks h stream.length es s :=
    hr.rec_invariant (tracks_initial stream.length hh) fun _ _ _ _ => tracks_step hh
  obtain ⟨hbound, hfollows⟩ := htracks
  constructor
  · intro hp
    have := hbound hp.length_le
    omega
  · intro hfin
    rcases hfollows with ⟨hrun, hs, hsim⟩ | hc
    · exact ⟨fun _ => hrun, fun _ => outcome_of_finished hs hh hsim hfin⟩
    · constructor
      · intro hout
        have hv := congrArg Prod.snd hout
        simp only [outcome, hc] at hv
        exact absurd hv.symm (referenceParse_ne_overrun h stream)
      · intro hrun
        have hreach : (boundedReadSystem h).Reachable s := ⟨initial h, es, rfl, hrun⟩
        have hci := (boundedReadSystem_inv (fun segments => (hh segments).1) hreach).control
        simp only [ControlInv, hc] at hci

theorem ReadState.received_receive {s : ReadState} (asked : ℕ) (bytes : List Byte)
    (hw : s.waiting = true) : (s.receive asked bytes).received = s.received ++ bytes := by
  cases hc : s.control <;> simp only [waiting, hc, Bool.false_eq_true] at hw <;>
    simp only [receive, hc]
  case readSome n => rfl
  all_goals split <;> rfl

theorem ReadState.finished_of_waiting {h : ReadHandler} {s : ReadState} (hw : s.waiting = true)
    (hne : s.control ≠ .readSome 0) (hrun : s.step h .run = none) :
    s.Finished h s.received := by
  refine ⟨List.prefix_rfl, ?_⟩
  intro e t ht hp
  cases step_cases ht with
  | read hc | upcall hc => simp [waiting, hc] at hw
  | readPrefix hc => simp [waiting, hc] at hw
  | completeUntil hc hu =>
      rw [ht] at hrun
      exact absurd hrun (by simp)
  | receive _ hle hasked hempty =>
      have hlen := hp.length_le
      rw [received_receive _ _ hw, List.length_append] at hlen
      exact hne (hempty (List.length_eq_zero_iff.mp (by omega)))

/-- Two lines in three chunks. -/
def twoLines : List ReadEvent :=
  [.run, .receive 4096 [97], .receive 512 [98, 10, 99], .run, .upcall, .run, .receive 1 [10],
    .run, .upcall, .run]

theorem framing_matches_reference_lines :
    ∃ s, (boundedReadSystem lineHandler).Run (initial lineHandler) twoLines s ∧
      s.Finished lineHandler [97, 98, 10, 99, 10] ∧ s.delivered = [[97, 98, 10], [99, 10]] ∧
      s.outcome = referenceParse lineHandler [97, 98, 10, 99, 10] := by
  obtain ⟨s, hb, hp⟩ := TransitionSystem.exists_run_restrict_of_exec
    (fun s _ => ¬ s.LengthOverflow) (· = initial lineHandler) (ReadState.step lineHandler)
    (initial lineHandler) twoLines
    (fun s => decide (s.waiting = true ∧ s.control ≠ .readSome 0 ∧
      s.step lineHandler .run = none ∧ s.received = [97, 98, 10, 99, 10] ∧
      s.delivered = [[97, 98, 10], [99, 10]])) (by decide +kernel)
  obtain ⟨hw, hne, hrun, hreceived, hdelivered⟩ := of_decide_eq_true hp
  have hfin : s.Finished lineHandler [97, 98, 10, 99, 10] :=
    hreceived ▸ finished_of_waiting hw hne hrun
  have hframing : ∀ segments, (lineHandler segments).settings.Framing := by
    intro segments
    simp [lineHandler, Settings.Framing, Settings.frames, maxSize]
  refine ⟨s, hb, hfin, hdelivered, ?_⟩
  exact ((framing_matches_reference lineHandler _ twoLines s hframing hb.of_restrict).2 hfin).mpr hb

/-- On a maximal field the session neither goes on nor fails. -/
theorem not_framing_matches_reference : ¬ ∀ (h : ReadHandler) (stream : List Byte)
    (es : List ReadEvent) (s : ReadState), (∀ segments, (h segments).settings.Framing) →
      (readSystem h).Run (initial h) es s → s.Finished h stream →
        s.outcome = referenceParse h stream := by
  intro hall
  obtain ⟨s, hr, hp⟩ := TransitionSystem.exists_run_restrict_of_exec
    (fun _ _ => True) (· = initial prefix64Handler) (ReadState.step prefix64Handler)
    (initial prefix64Handler) maximalField
    (fun s => decide (s.control = .overrun ∧ s.received = List.replicate 8 0xff))
    (by decide +kernel)
  obtain ⟨hc, hreceived⟩ := of_decide_eq_true hp
  have hfin : s.Finished prefix64Handler s.received :=
    ⟨List.prefix_rfl, fun e t ht => absurd ht (by simp [no_step_of_overrun hc])⟩
  have hout := hall prefix64Handler s.received maximalField s (by
    intro segments
    simp [prefix64Handler, Settings.Framing, Settings.frames, maxSize]) hr.of_restrict hfin
  have hv := congrArg Prod.snd hout
  simp only [outcome, hc] at hv
  exact referenceParse_ne_overrun _ _ hv.symm

end Minapp
