import Minapp.Verification.Receive.Invariant
import Minapp.Verification.Receive.Reference

/-! The session decides about the bytes of its current frame as the reference parser
does. Each function of the session keeps the frame, and leaves a state whose control
agrees with the parse of the bytes received of it. -/

namespace Minapp

open FirstOccurrence

namespace ReadState

/-- What has been received from the beginning of the current frame on. -/
def frameInput (s : ReadState) : List Byte := s.received.drop (s.buf.erased.length + s.frameStart)

/-- How much of the vector is left to the current frame. -/
def frameRoom (s : ReadState) : ℕ := maxSize - s.frameStart

/-- The reference parse of the current frame. -/
def frame (s : ReadState) : Frame := parseFrame s.settings s.frameRoom s.frameInput

/-- Whatever is received next, the current frame has `total` bytes and a segment that
begins after the first `skip` of them. -/
def Announces (s : ReadState) (total skip : ℕ) : Prop :=
  ∀ future, parseFrame s.settings s.frameRoom (s.frameInput ++ future) =
    fixedFrame s.frameRoom total skip (s.frameInput ++ future)

/-- Whatever is received next, the current frame ends with `delim`. -/
def Delimited (s : ReadState) (delim : List Byte) : Prop :=
  ∀ future, parseFrame s.settings s.frameRoom (s.frameInput ++ future) =
    delimFrame s.settings delim s.frameRoom (s.frameInput ++ future)

/-- The control agrees with the reference parse of the current frame. -/
def Decides (s : ReadState) : Prop :=
  match s.control with
  | .read | .readPrefix _ | .prefixBytes _ _ _ => True
  | .upcall tail =>
    s.frame = .frame (s.buf.externalInputSize + tail - s.frameStart) tail s.buf.segment
  | .readFixed n _ =>
    s.Announces (s.buf.outputOffset + n - s.frameStart) (s.buf.segmentSize - s.frameStart)
  | .readDelim delim _ _ => s.Delimited delim
  | .failed _ => s.frame = .fail
  | .threw => s.frame = .tooLong
  | .readSome _ | .idle | .overrun => False

/-- What no function keeps but `read` and the upcall: the frame, and what is parsed of it. -/
structure SameFrame (s t : ReadState) : Prop where
  settings : t.settings = s.settings
  delivered : t.delivered = s.delivered
  frameStart : t.frameStart = s.frameStart
  received : t.received = s.received
  erased : t.buf.erased = s.buf.erased

variable {s t : ReadState}

theorem SameFrame.frameInput (h : SameFrame s t) : t.frameInput = s.frameInput := by
  unfold ReadState.frameInput
  rw [h.received, h.erased, h.frameStart]

theorem SameFrame.frame (h : SameFrame s t) : t.frame = s.frame := by
  unfold ReadState.frame frameRoom
  rw [h.settings, h.frameStart, h.frameInput]

/-! ## The bytes of the frame in the buffer -/

theorem frameInput_eq {k : ℕ} (h : s.Accounts k) :
    s.frameInput = (s.buf.storage.take (s.buf.outputOffset + k)).drop s.frameStart := by
  rw [frameInput, ← h.conserved, TripleBuffer.stream, List.drop_append]
  simp

theorem length_frameInput {k : ℕ} (h : s.Accounts k) :
    s.frameInput.length = s.buf.outputOffset + k - s.frameStart := by
  rw [frameInput_eq h, List.length_drop, List.length_take_of_le h.valid.zones]

/-- At the beginning of a frame all of its bytes are internal input. -/
theorem frameInput_of_begun (h : s.Accounts 0) (hf : s.FrameBegun) :
    s.frameInput = s.buf.internalInput := by
  rw [frameInput_eq h, TripleBuffer.internalInput_eq_input, TripleBuffer.input, hf.external]

/-- The segment delivered is the frame up to the committed bytes, after the mark. -/
theorem segment_deliver {b : TripleBuffer} {k : ℕ} (tail : ℕ)
    (hs : b.stream k = s.received) (herased : b.erased = s.buf.erased)
    (hmark : s.frameStart ≤ b.segmentSize) (hle : b.segmentSize ≤ b.externalInputSize) :
    (s.deliver b tail).buf.segment =
      (s.frameInput.take (b.externalInputSize - s.frameStart)).drop
        (b.segmentSize - s.frameStart) := by
  have hext : b.externalInputSize ≤ b.outputOffset + k := by
    rw [TripleBuffer.outputOffset]
    omega
  have hinput : s.frameInput = (b.storage.take (b.outputOffset + k)).drop s.frameStart := by
    rw [frameInput, ← hs, TripleBuffer.stream, List.drop_append, herased]
    simp
  rw [hinput, List.take_drop, Nat.add_comm, Nat.sub_add_cancel (by omega), List.take_take,
    Nat.min_eq_left hext, List.drop_drop, Nat.add_comm, Nat.sub_add_cancel hmark, List.drop_take]
  simp only [deliver, TripleBuffer.moveToNewExternalInputSegment, TripleBuffer.segment,
    Nat.min_eq_left hle]

/-! ## Functions that stay within the frame -/

theorem sameFrame_asyncRead (s : ReadState) (n : ℕ) (c : Control) :
    SameFrame s (s.asyncRead n c) := by
  rw [asyncRead, TripleBuffer.prepareOutputBuffer]
  cases TripleBuffer.resize s.buf.storage (wrap (s.buf.outputOffset + n)) <;>
    exact ⟨rfl, rfl, rfl, rfl, rfl⟩

theorem sameFrame_deliver {b : TripleBuffer} {tail : ℕ} (h : b.erased = s.buf.erased) :
    SameFrame s (s.deliver b tail) := ⟨rfl, rfl, rfl, rfl, h⟩

theorem sameFrame_readFixed (s : ReadState) (n : ℕ) : SameFrame s (s.readFixed n) := by
  unfold readFixed
  simp only
  split
  · exact sameFrame_deliver (s.buf.erased_commitToExternalInput n)
  · exact sameFrame_asyncRead _ _ _

theorem SameFrame.trans {u : ReadState} (h : SameFrame s t) (h' : SameFrame t u) :
    SameFrame s u :=
  ⟨h'.settings.trans h.settings, h'.delivered.trans h.delivered, h'.frameStart.trans h.frameStart,
    h'.received.trans h.received, h'.erased.trans h.erased⟩

theorem sameFrame_readPrefix (s : ReadState) (len : ℕ) : SameFrame s (s.readPrefix len) := by
  rw [readPrefix]
  simp only
  split
  · exact ⟨rfl, rfl, rfl, rfl, rfl⟩
  · exact sameFrame_asyncRead _ _ _
  · rename_i n dataSize _
    refine SameFrame.trans ?_ (sameFrame_readFixed _ _)
    refine ⟨rfl, rfl, rfl, rfl, ?_⟩
    split
    · exact s.buf.erased_commitToExternalInput n
    · exact s.buf.erased_commitToExternalInput n

/-! ## Frames of a known size -/

/-- Committing `n` buffered bytes, or waiting for them, once they complete the frame. -/
theorem decides_readFixed {n : ℕ} (h : s.Accounts 0) (hmark : s.frameStart ≤ s.buf.segmentSize)
    (hle : s.buf.segmentSize ≤ s.buf.externalInputSize) (hn : n ≤ maxSize)
    (ha : s.Announces (s.buf.externalInputSize + n - s.frameStart)
      (s.buf.segmentSize - s.frameStart)) : (s.readFixed n).Decides := by
  have hfits := h.valid.fits
  have hz := h.valid.zones
  have hframe : s.frame = fixedFrame s.frameRoom (s.buf.externalInputSize + n - s.frameStart)
      (s.buf.segmentSize - s.frameStart) s.frameInput := by
    have := ha []
    rwa [List.append_nil] at this
  have hsame := sameFrame_readFixed s n
  unfold readFixed at hsame ⊢
  simp only at hsame ⊢
  rw [TripleBuffer.outputOffset] at hz
  split
  · -- the frame is complete
    rw [if_pos ‹_›] at hsame
    have heq := s.buf.commitToExternalInput_eq n
    rw [Nat.min_eq_left ‹_›] at heq
    have hseg := segment_deliver (s := s) 0
      ((s.buf.stream_commitToExternalInput n 0).trans h.conserved)
      (s.buf.erased_commitToExternalInput n)
      (by simpa using hmark) (by rw [heq]; exact hle.trans (Nat.le_add_right _ _))
    have hlen := length_frameInput h
    rw [TripleBuffer.outputOffset] at hlen
    change SameFrame s _ at hsame
    change ReadState.frame _ = .frame _ _ _
    rw [hsame.frame, hframe, fixedFrame, if_neg (by rw [frameRoom]; omega),
      if_neg (by omega), hseg, heq]
    rfl
  · rw [if_neg ‹_›] at hsame
    rw [asyncRead_eq h.valid (by omega)] at hsame ⊢
    by_cases hroom : s.buf.outputOffset + (n - s.buf.internalInputSize) ≤ maxSize
    · rw [if_pos hroom] at hsame ⊢
      have htotal : s.buf.outputOffset + (n - s.buf.internalInputSize) =
          s.buf.externalInputSize + n := by
        rw [TripleBuffer.outputOffset]
        omega
      intro future
      rw [hsame.frameInput]
      simp only [TripleBuffer.outputOffset_prepared, htotal]
      exact ha future
    · rw [if_neg hroom] at hsame ⊢
      change ReadState.frame _ = .tooLong
      rw [hsame.frame, hframe, fixedFrame, if_pos]
      rw [frameRoom]
      rw [TripleBuffer.outputOffset] at hroom
      omega

/-! ## Length prefixes -/

theorem parseFrame_of_field {room : ℕ} {input : List Byte} (hset : s.settings.Framing)
    (hp : (∃ n, prefixSize s.settings.protocol = some n) ∨ s.settings.protocol = .prefixVar) :
    parseFrame s.settings room input = prefixFrame s.settings room input := by
  rw [parseFrame, if_pos hset]
  rcases hp with ⟨n, hn⟩ | hp
  · cases hp : s.settings.protocol <;> simp only [prefixSize, hp, reduceCtorEq] at hn <;> rfl
  · rw [hp]

theorem parseFrame_of_prefixArg {len room : ℕ} {input : List Byte} (hset : s.settings.Framing)
    (ha : s.PrefixArg len) :
    parseFrame s.settings room input = prefixFrame s.settings room input :=
  parseFrame_of_field hset (ha.imp (fun h => ⟨len, h⟩) fun h => h.1)

/-- Outside the overflowing case the modular limit test is the one over integers. -/
theorem wrap_fieldTotal_lt {len : ℕ} (hc : s.control = .readPrefix len) (ha : s.PrefixArg len)
    (hn : s.prefixNeed ≤ s.buf.internalInput.length) (hno : ¬ s.LengthOverflow)
    (hle : s.prefixNeed ≤ 8 + s.prefixVar.toNat) :
    s.settings.readBufferSize <
        wrap (fieldTotal s.settings s.prefixVar (s.buf.internalInput.take s.prefixNeed)) ↔
      s.settings.readBufferSize <
        fieldTotal s.settings s.prefixVar (s.buf.internalInput.take s.prefixNeed) := by
  constructor
  · intro h
    exact h.trans_le (Nat.mod_le _ _)
  · intro h
    by_contra hw
    exact absurd (fieldTotal_le hc ha hn hle hno (Nat.le_of_not_lt hw)) (Nat.not_le.mpr h)

/-- The reference parse of a frame whose field is complete. -/
theorem prefixFrame_of_field {len : ℕ} (hc : s.control = .readPrefix len) (h : s.Accounts 0)
    (hf : s.FrameBegun) (ha : s.PrefixArg len) (hset : s.settings.Framing)
    (hno : ¬ s.LengthOverflow) (hn : s.prefixNeed ≤ s.buf.internalInput.length)
    (future : List Byte) :
    parseFrame s.settings s.frameRoom (s.frameInput ++ future) =
      match parseField s.settings s.prefixVar s.buf.internalInput s.prefixNeed with
      | .body l d => fixedFrame s.frameRoom (l + d)
          (if s.settings.ignoreProtocol then l else 0) (s.frameInput ++ future)
      | _ => .fail := by
  have hsize := TripleBuffer.length_internalInput h.valid.zones
  have hz := h.valid.zones
  have hfits := h.valid.fits
  have hext := hf.external
  have hlen : (s.buf.internalInput ++ future).length =
      s.buf.internalInput.length + future.length := List.length_append
  rw [TripleBuffer.outputOffset] at hz
  have hfield : fieldSize s.settings (s.buf.internalInput ++ future) = s.prefixNeed :=
    fieldSize_append future hn
  rw [parseFrame_of_prefixArg hset ha, frameInput_of_begun h hf,
    prefixFrame_of_complete (by omega) (by rw [frameRoom]; omega), hfield]
  exact fieldFrame_eq_parseField hn future (wrap_fieldTotal_lt hc ha hn hno)

/-- The reference parse of a frame whose field is not complete. -/
theorem frame_of_short {len : ℕ} (h : s.Accounts 0) (hf : s.FrameBegun) (ha : s.PrefixArg len)
    (hset : s.settings.Framing) (hn : s.buf.internalInput.length < s.prefixNeed) :
    s.frame = if s.settings.readBufferSize < s.prefixNeed then .fail
      else if s.frameRoom < s.prefixNeed then .tooLong else .more := by
  have hsize := TripleBuffer.length_internalInput h.valid.zones
  have hz := h.valid.zones
  have hfits := h.valid.fits
  have hext := hf.external
  rw [TripleBuffer.outputOffset] at hz
  have hfield : fieldSize s.settings s.buf.internalInput = s.prefixNeed := rfl
  rw [ReadState.frame, frameInput_of_begun h hf, parseFrame_of_prefixArg hset ha, prefixFrame]
  simp only [hfield]
  by_cases hlim : s.settings.readBufferSize < s.prefixNeed
  · rw [if_pos hlim, if_pos hlim, if_neg]
    -- the vector holds all but at most the last byte of a varint
    rintro ⟨hv, hroom⟩
    rcases varField_or_fieldSize s.settings s.buf.internalInput with ⟨-, hle⟩ | ⟨hv', -⟩
    · rw [frameRoom] at hroom
      omega
    · rw [hv'] at hv
      exact Bool.false_ne_true hv
  · rw [if_neg hlim, if_neg hlim, if_pos hn, Nat.min_eq_left (Nat.le_of_not_lt hlim)]
    by_cases hroom : s.frameRoom < s.prefixNeed
    · simp only [hroom, and_true, if_true, ite_self]
    · simp only [hroom, and_false, if_false]

/-- `read_prefix` decides about its field as the reference parser does. -/
theorem decides_readPrefix {len : ℕ} (hc : s.control = .readPrefix len) (h : s.Accounts 0)
    (hf : s.FrameBegun) (ha : s.PrefixArg len) (hset : s.settings.Framing)
    (hno : ¬ s.LengthOverflow) : (s.readPrefix len).Decides := by
  have hparse := parsePrefix_of_arg ha
  have hsame := sameFrame_readPrefix s len
  have hsize := TripleBuffer.length_internalInput h.valid.zones
  have hz := h.valid.zones
  have hfits := h.valid.fits
  have hext := hf.external
  have hmark := hf.mark
  by_cases hshort : s.buf.internalInput.length < s.prefixNeed
  · have hframe := frame_of_short h hf ha hset hshort
    rw [if_pos hshort] at hparse
    by_cases hlim : s.settings.readBufferSize < s.prefixNeed
    · rw [if_pos hlim] at hparse hframe
      rw [readPrefix_of_error hparse] at hsame ⊢
      exact hsame.frame.trans hframe
    · rw [if_neg hlim] at hparse hframe
      have hle : s.prefixNeed ≤ maxSize := (Nat.le_of_not_lt hlim).trans h.limit
      rw [readPrefix_of_incomplete hparse, asyncRead_eq h.valid (by omega)] at hsame ⊢
      rw [TripleBuffer.outputOffset] at hz hsame ⊢
      split
      · trivial
      · rw [if_neg ‹_›] at hsame
        refine hsame.frame.trans (hframe.trans (if_pos ?_))
        rw [frameRoom]
        omega
  · have hn := Nat.le_of_not_lt hshort
    have hreference := prefixFrame_of_field hc h hf ha hset hno hn
    rw [if_neg hshort] at hparse
    cases hres : parseField s.settings s.prefixVar s.buf.internalInput s.prefixNeed with
    | incomplete n => exact absurd hres (parseField_ne_incomplete hn)
    | error ec =>
        rw [hres] at hparse hreference
        rw [readPrefix_of_error hparse] at hsame ⊢
        have hframe := hreference []
        rw [List.append_nil] at hframe
        exact hsame.frame.trans hframe
    | body l d =>
        rw [hres] at hparse hreference
        obtain ⟨rfl, h8, htotal, hw⟩ := parseField_body hn hres
        have hle := fieldTotal_le hc ha hn h8 hno hw
        have hlimit := h.limit
        obtain ⟨hacc, hext', hmark'⟩ :=
          fieldCommitted_commitField h hf (n := s.prefixNeed) (by omega)
        have herased : (s.commitField s.prefixNeed).buf.erased = s.buf.erased := by
          rw [commitField]
          split
          · exact s.buf.erased_commitToExternalInput s.prefixNeed
          · exact s.buf.erased_commitToExternalInput s.prefixNeed
        have hcommitted : SameFrame s (s.commitField s.prefixNeed) := ⟨rfl, rfl, rfl, rfl, herased⟩
        rw [readPrefix_of_body hparse]
        refine decides_readFixed hacc ?_ ?_ (by omega) ?_
        · rw [hmark']
          exact Nat.le_add_right _ _
        · rw [hmark', hext']
          split <;> omega
        · intro future
          rw [hcommitted.frameInput, hext', hmark']
          change parseFrame s.settings s.frameRoom _ =
            fixedFrame s.frameRoom (s.frameStart + s.prefixNeed + d - s.frameStart)
              (s.frameStart + (if s.settings.ignoreProtocol then s.prefixNeed else 0) -
                s.frameStart) _
          rw [hreference future, Nat.add_assoc, Nat.add_sub_cancel_left, Nat.add_sub_cancel_left]

/-! ## Delimiters -/

theorem sameFrame_readDelim {delim : List Byte} (hne : delim ≠ []) :
    SameFrame s (s.readDelim delim) := by
  rw [readDelim, if_neg hne]
  exact ⟨rfl, rfl, rfl, rfl, rfl⟩

theorem decides_readDelim {delim : List Byte} (hne : delim ≠ []) (hd : s.Delimited delim) :
    (s.readDelim delim).Decides := by
  rw [readDelim, if_neg hne]
  exact hd

/-- The dynamic buffer shows the part of the frame that is searched. -/
theorem dynamicData_eq (h : s.Accounts s.buf.outputBufferSize) (hf : s.FrameBegun) :
    s.buf.dynamicData s.settings.readBufferSize =
        s.frameInput.take (min s.frameRoom s.settings.readBufferSize) ∧
      (s.buf.dynamicSize s.settings.readBufferSize =
          s.buf.dynamicMaxSize s.settings.readBufferSize ↔
        min s.frameRoom s.settings.readBufferSize ≤ s.frameInput.length) ∧
      s.frameInput.length = s.buf.storage.length - s.frameStart := by
  have hz := h.valid.zones
  have hext := hf.external
  have hlen := length_frameInput h
  rw [TripleBuffer.outputBufferSize, TripleBuffer.outputOffset] at hz hlen
  have hinput : s.frameInput = s.buf.storage.drop s.buf.externalInputSize := by
    rw [frameInput_eq h, hext, List.take_of_length_le]
    rw [TripleBuffer.outputBufferSize, TripleBuffer.outputOffset]
    omega
  have hlength : s.frameInput.length = s.buf.storage.length - s.frameStart := by omega
  rw [TripleBuffer.dynamicData, TripleBuffer.dynamicSize, TripleBuffer.dynamicMaxSize, frameRoom]
  refine ⟨?_, ?_, hlength⟩
  · rw [hinput, hext]
    apply List.take_eq_take_iff.mpr
    rw [List.length_drop]
    omega
  · rw [hext]
    omega

/-- The callback of a delimiter read finds what the reference parser finds. -/
theorem decides_completeUntil {delim : List Byte} {ignore : Bool} {maximum : ℕ}
    (hc : s.control = .readDelim delim ignore maximum) (h : s.Inv) (hd : s.Delimited delim)
    (ht : s.completeUntil delim ignore maximum = some t) : SameFrame s t ∧ t.Decides := by
  obtain ⟨ha, hci⟩ := h
  simp only [ControlInv, arrived, hc] at ha hci
  obtain ⟨hf, -, rfl, rfl⟩ := hci
  obtain ⟨hdata, hfull, hlen⟩ := dynamicData_eq ha hf
  have hframe : s.frame = delimFrame s.settings delim s.frameRoom s.frameInput := by
    have := hd []
    simp only [List.append_nil] at this
    exact this
  rw [delimFrame] at hframe
  simp only at hframe
  rw [completeUntil] at ht
  rw [hdata] at ht
  cases hfind : firstEnd delim
      (s.frameInput.take (min s.frameRoom s.settings.readBufferSize)) with
  | none =>
      rw [hfind] at ht hframe
      simp only at ht hframe
      by_cases hle : min s.frameRoom s.settings.readBufferSize ≤ s.frameInput.length
      · rw [if_pos (hfull.mpr hle)] at ht
        rw [if_pos hle] at hframe
        obtain rfl := Option.some.inj ht
        have hsame : SameFrame s (s.check .notFound) := ⟨rfl, rfl, rfl, rfl, rfl⟩
        exact ⟨hsame, hsame.frame.trans hframe⟩
      · rw [if_neg (mt hfull.mp hle)] at ht
        exact absurd ht (by simp)
  | some pos =>
      rw [hfind] at ht hframe
      simp only at ht hframe
      have hb := firstEnd_bounds hfind
      rw [List.length_take] at hb
      have htail : delim.length * s.settings.ignoreProtocol.toNat =
          if s.settings.ignoreProtocol then delim.length else 0 := by
        cases s.settings.ignoreProtocol <;> simp
      rw [htail] at ht
      set tail := if s.settings.ignoreProtocol then delim.length else 0 with htaildef
      have htle : tail ≤ pos := by
        rw [htaildef]
        split <;> omega
      obtain rfl := Option.some.inj ht
      set b := (s.buf.commitToInternalInput s.buf.outputBufferSize).commitToExternalInput
        (pos - tail) with hbuf
      have heq := TripleBuffer.commitToInternalInput_eq ha.valid
      have hext : b.externalInputSize = s.frameStart + (pos - tail) := by
        have hz := ha.valid.zones
        have hfe := hf.external
        rw [hbuf, TripleBuffer.commitToExternalInput_eq, heq]
        rw [TripleBuffer.outputBufferSize, TripleBuffer.outputOffset] at *
        simp only
        omega
      have hmark : b.segmentSize = s.frameStart := by
        rw [hbuf, TripleBuffer.segmentSize_commitToExternalInput, heq]
        exact hf.mark
      have herased : b.erased = s.buf.erased := by
        rw [hbuf, TripleBuffer.erased_commitToExternalInput, heq]
      have hstream : b.stream 0 = s.received := by
        rw [hbuf, TripleBuffer.stream_commitToExternalInput,
          TripleBuffer.stream_commitToInternalInput ha.valid, ha.conserved]
      have hseg := segment_deliver tail hstream herased hmark.ge (by omega)
      have hsame : SameFrame s (s.deliver b tail) := sameFrame_deliver herased
      refine ⟨hsame, ?_⟩
      change ReadState.frame _ = .frame (b.externalInputSize + tail - s.frameStart) _ _
      rw [hsame.frame, hframe, hseg, hext, hmark, Nat.sub_self, List.drop_zero,
        Nat.add_sub_cancel_left, Nat.add_assoc, Nat.sub_add_cancel htle, Nat.add_sub_cancel_left]

/-! ## `read` -/

theorem sameFrame_read (hset : s.settings.Framing) : SameFrame s.beginFrame s.read := by
  have hne := hset.2
  rw [read_eq]
  cases hp : s.settings.protocol <;>
    simp only [Settings.frames, hp, Bool.false_eq_true, decide_eq_true_eq] at hne
  case fixed => exact sameFrame_readFixed _ _
  case delim => exact sameFrame_readDelim hne
  case delimZero | delimCr | delimLf => exact sameFrame_readDelim (List.cons_ne_nil _ _)
  case delimCrlf => exact sameFrame_readDelim (by simp [crlf])
  all_goals exact ⟨rfl, rfl, rfl, rfl, rfl⟩

theorem decides_read (h : s.Accounts 0) (hset : s.settings.Framing) : s.read.Decides := by
  have ha := accounts_beginFrame h
  have hf := s.frameBegun_beginFrame
  have hne := hset.2
  have hparse : ∀ room input, parseFrame s.settings room input = _ :=
    fun room input => if_pos hset
  rw [read_eq]
  cases hp : s.settings.protocol <;>
    simp only [Settings.frames, hp, Bool.false_eq_true, decide_eq_true_eq] at hne hparse
  case fixed =>
    apply decides_readFixed ha le_rfl le_rfl hset.1
    intro future
    rw [hf.external, hf.mark, Nat.add_sub_cancel_left, Nat.sub_self]
    exact hparse _ _
  case delim => exact decides_readDelim hne fun future => hparse _ _
  case delimZero | delimCr | delimLf =>
    exact decides_readDelim (List.cons_ne_nil _ _) fun future => hparse _ _
  case delimCrlf => exact decides_readDelim (by simp [crlf]) fun future => hparse _ _
  all_goals trivial

end ReadState

end Minapp
