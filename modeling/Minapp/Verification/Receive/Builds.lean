import Minapp.Library.Lockstep
import Minapp.Verification.Receive.Draining
import Minapp.Verification.Receive.Overlay

/-! # The two builds of the receive path

With either version of `dynamic_buffer_adaptor` a session shows its handler the same, as long as
it never waits for a delimiter with more buffered than `read_buffer_size_`. -/

namespace Minapp

open FirstOccurrence

namespace ReadState

/-- The same state with its buffer over another storage. -/
def onto (s : ReadState) (storage : List Byte) : ReadState := { s with buf := s.buf.onto storage }

/-- All that a delimiter is searched in is committed. -/
def committedOver (s : ReadState) (storage : List Byte) : ReadState :=
  { s with buf := (s.buf.commitToInternalInput s.buf.outputBufferSize).onto storage }

/-- The bytes asked for and those that have arrived, of a read into `prepare_output_buffer`. -/
def reads : Control → Option (ℕ × ℕ)
  | .readSome n => some (n, 0)
  | .readFixed n got => some (n, got)
  | .prefixBytes _ n got => some (n, got)
  | _ => none

/-- The session does not go on. -/
def stops : Control → Bool
  | .idle | .failed _ | .threw | .overrun => true
  | _ => false

/-- A state of the build with `DynamicBuffer_v2`, and one of the other build. They differ in what
their storages hold behind the bytes received, and in what is committed of the bytes that a
delimiter is searched in. -/
inductive Alike (s : ReadState) : ReadState → Prop where
  | running {storage} : (s.control = .read ∨ ∃ len, s.control = .readPrefix len) →
      s.buf.Overlay 0 storage → Alike s (s.onto storage)
  | upcall {storage tail} : s.control = .upcall tail →
      s.buf.segmentOffset + s.buf.segmentSize = s.buf.externalInputSize →
      s.buf.Overlay 0 storage → Alike s (s.onto storage)
  | reading {storage n got} : reads s.control = some (n, got) → s.buf.Overlay got storage →
      storage.length = s.buf.storage.length → s.buf.outputOffset + n ≤ storage.length →
      Alike s (s.onto storage)
  | searching {storage delim ignore maximum} : s.control = .readDelim delim ignore maximum →
      s.buf.Overlay s.buf.outputBufferSize storage →
      s.buf.storage.length - s.buf.externalInputSize ≤ s.buf.dynamicMaxSize maximum →
      Alike s (s.committedOver storage)
  | ended {t} : stops s.control = true → t.control = s.control → t.settings = s.settings →
      t.delivered = s.delivered → t.received = s.received → Alike s t

variable {s t : ReadState} {storage : List Byte}

/-! ## Functions that both builds share -/

theorem alike_check (ec : Errc) : Alike (s.check ec) ((s.onto storage).check ec) :=
  .ended rfl rfl rfl rfl rfl

theorem alike_asyncRead (h : s.buf.Overlay 0 storage) {n : ℕ} {c : Control}
    (hc : reads c = some (n, 0)) : Alike (s.asyncRead n c) ((s.onto storage).asyncRead n c) := by
  have hoffset : (s.onto storage).buf.outputOffset = s.buf.outputOffset := rfl
  simp only [asyncRead, TripleBuffer.prepareOutputBuffer, hoffset]
  by_cases hm : wrap (s.buf.outputOffset + n) ≤ maxSize
  · rw [TripleBuffer.resize_of_le hm, TripleBuffer.resize_of_le hm]
    simp only [Option.map_some, Region.Inside, TripleBuffer.length_resized]
    by_cases hin : s.buf.outputOffset + n ≤ wrap (s.buf.outputOffset + n)
    · have hoff : s.buf.outputOffset ≤ wrap (s.buf.outputOffset + n) :=
        Nat.le_trans (Nat.le_add_right _ _) hin
      rw [if_pos hin]
      apply Alike.reading hc ((h.resize hm hoff).resize_base hm hoff)
      · exact (TripleBuffer.length_resized _ _).trans (TripleBuffer.length_resized _ _).symm
      · exact (TripleBuffer.length_resized storage _).symm ▸ hin
    · rw [if_neg hin]
      exact .ended rfl rfl rfl rfl rfl
  · rw [TripleBuffer.resize, if_neg hm, TripleBuffer.resize, if_neg hm]
    exact .ended rfl rfl rfl rfl rfl

theorem alike_deliver {b : TripleBuffer} {r : List Byte} (tail : ℕ) (h : b.Overlay 0 storage) :
    Alike (s.deliver b tail) ((s.onto r).deliver (b.onto storage) tail) := by
  refine .upcall rfl ?_ (h.congr rfl rfl)
  change min b.segmentSize b.externalInputSize +
    (b.externalInputSize - min b.segmentSize b.externalInputSize) = b.externalInputSize
  omega

theorem alike_readSome (h : s.buf.Overlay 0 storage) (n : ℕ) :
    Alike (s.readSome n) ((s.onto storage).readSome n) := by
  have hsize : (s.onto storage).buf.internalInputSize = s.buf.internalInputSize := rfl
  rw [readSome, readSome, hsize]
  split
  · exact alike_deliver 0 (h.commitToExternalInput n)
  · exact alike_asyncRead h rfl

theorem alike_readFixed (h : s.buf.Overlay 0 storage) (n : ℕ) :
    Alike (s.readFixed n) ((s.onto storage).readFixed n) := by
  have hsize : (s.onto storage).buf.internalInputSize = s.buf.internalInputSize := rfl
  simp only [readFixed, hsize]
  split
  · exact alike_deliver 0 (h.commitToExternalInput n)
  · exact alike_asyncRead h rfl

theorem alike_readPrefix (h : s.buf.Overlay 0 storage) (len : ℕ) :
    Alike (s.readPrefix len) ((s.onto storage).readPrefix len) := by
  have hinput : (s.onto storage).buf.internalInput = s.buf.internalInput := h.internalInput
  have hset : (s.onto storage).settings = s.settings := rfl
  simp only [readPrefix, hinput, hset]
  split
  · exact alike_check _
  · exact alike_asyncRead h rfl
  · rename_i n dataSize _
    cases s.settings.ignoreProtocol with
    | false =>
        exact alike_readFixed (s := { s with buf := s.buf.commitToExternalInput n })
          (h.commitToExternalInput n) dataSize
    | true =>
        exact alike_readFixed
          (s := { s with buf := (s.buf.commitToExternalInput n).markCurrentExternalInput })
          ((h.commitToExternalInput n).congr rfl rfl) dataSize

theorem overlay_beginFrame (h : s.buf.Overlay 0 storage) : ∃ storage',
    (s.onto storage).beginFrame = s.beginFrame.onto storage' ∧
      s.beginFrame.buf.Overlay 0 storage' := by
  have hset : (s.onto storage).settings = s.settings := rfl
  rw [beginFrame, beginFrame, hset]
  split
  · exact ⟨storage, rfl, h.congr rfl rfl⟩
  · have htake : storage.take s.buf.externalInputSize =
        s.buf.storage.take s.buf.externalInputSize := h.whole
    refine ⟨storage.drop s.buf.externalInputSize, ?_, h.eraseFront ?_ rfl⟩
    · simp only [onto, TripleBuffer.onto, TripleBuffer.consumeWholeExternalInput,
        TripleBuffer.eraseFront, htake]
      rfl
    · change 0 + s.buf.internalInputSize + s.buf.externalInputSize = _
      rw [TripleBuffer.outputOffset]
      omega

theorem alike_handlerRead (h : ReadHandler) (tail : ℕ)
    (hends : s.buf.segmentOffset + s.buf.segmentSize = s.buf.externalInputSize)
    (ho : s.buf.Overlay 0 storage) :
    Alike (s.handlerRead h tail) ((s.onto storage).handlerRead h tail) := by
  have hsegment : (s.onto storage).buf.segment = s.buf.segment := ho.segment hends
  have hdelivered : (s.onto storage).delivered = s.delivered := rfl
  simp only [handlerRead, hsegment, hdelivered]
  obtain ⟨storage', hfold, ho'⟩ := ho.consumes (h (s.delivered ++ [s.buf.segment])).consumes
  have hbuf : (s.onto storage).buf = s.buf.onto storage := rfl
  rw [hbuf, hfold]
  exact .running (.inl rfl) (ho'.commitToExternalInput tail)

/-! ## Waiting for a delimiter -/

/-- The delimiter that the next frame ends with, or none. -/
def awaited (s : ReadState) : List Byte :=
  match s.settings.protocol with
  | .delim => s.settings.delimiter
  | .delimZero => [0]
  | .delimCr => [13]
  | .delimLf => [10]
  | .delimCrlf => crlf
  | _ => []

/-- The session is about to wait for a delimiter, and more is buffered than it may read. -/
def Overfull (s : ReadState) : Prop :=
  s.control = .read ∧ s.awaited ≠ [] ∧ s.settings.readBufferSize < s.buf.internalInputSize

instance (s : ReadState) : Decidable s.Overfull := inferInstanceAs (Decidable (_ ∧ _ ∧ _))

theorem readDelim_nil : s.readDelim [] = s.readSome s.settings.readBufferSize := if_pos rfl

theorem readDelimV1_nil : s.readDelimV1 [] = s.readSome s.settings.readBufferSize := if_pos rfl

/-- A frame that no delimiter ends. -/
theorem alike_read_of_nil (hnil : s.awaited = []) (h : s.buf.Overlay 0 storage) :
    Alike s.read (s.onto storage).readV1 := by
  obtain ⟨storage', hbegin, h'⟩ := overlay_beginFrame h
  have hread : (s.onto storage).readV1 = (s.onto storage).read := by
    have hset : (s.onto storage).settings = s.settings := rfl
    rw [awaited] at hnil
    rw [readV1, read, hset]
    cases hp : s.settings.protocol <;> simp only [hp] at hnil ⊢
    case delim => rw [hnil, readDelimV1_nil, readDelim_nil]
    all_goals cases hnil
  have hset : (s.onto storage).settings = s.settings := rfl
  rw [hread, read_eq, read_eq, hbegin, hset]
  rw [awaited] at hnil
  cases hp : s.settings.protocol <;> simp only [hp] at hnil ⊢
  case none => exact .ended rfl rfl rfl rfl rfl
  case any => exact alike_readSome h' _
  case fixed => exact alike_readFixed h' _
  case delim =>
    rw [hnil, readDelim_nil, readDelim_nil]
    exact alike_readSome h' _
  case prefix8 | prefix16 | prefix32 | prefix64 | prefixVar =>
    exact .running (.inr ⟨_, rfl⟩) (h'.congr rfl rfl)
  case other => exact alike_check _
  all_goals cases hnil

theorem read_of_awaited (hne : s.awaited ≠ []) : s.read = s.beginFrame.readDelim s.awaited ∧
    s.readV1 = s.beginFrame.readDelimV1 s.awaited := by
  rw [read_eq, readV1]
  cases hp : s.settings.protocol <;> simp only [awaited, hp] at hne ⊢
  case delim | delimZero | delimCr | delimLf | delimCrlf => exact ⟨trivial, rfl⟩
  all_goals exact absurd rfl hne

/-- `prepare` finds that the adaptor holds more than it may. -/
theorem readDelimV1_of_lt {delim : List Byte} (hne : delim ≠ [])
    (hlt : s.settings.readBufferSize < s.buf.internalInputSize) :
    (s.readDelimV1 delim).control = .threw := by
  have hmax : s.buf.dynamicMaxSize s.settings.readBufferSize < s.buf.internalInputSize :=
    Nat.lt_of_le_of_lt (Nat.min_le_right _ _) hlt
  simp only [readDelimV1, if_neg hne, TripleBuffer.dynamicPrepare, if_pos (Or.inl hmax)]

/-- Before any byte is read both search the internal input. -/
theorem alike_readDelim {delim : List Byte} (hne : delim ≠ []) (h : s.buf.Overlay 0 storage)
    (hfit : s.buf.internalInputSize ≤ s.settings.readBufferSize) :
    Alike (s.readDelim delim) ((s.onto storage).readDelimV1 delim) := by
  have hvalid : (s.onto storage).buf.Valid 0 := ⟨h.zones, h.fits⟩
  have hmax : s.buf.internalInputSize ≤ s.buf.dynamicMaxSize s.settings.readBufferSize :=
    h.valid.le_dynamicMaxSize hfit
  have hprepare : (s.onto storage).buf.dynamicPrepare s.settings.readBufferSize 0 =
      some ((s.onto storage).buf.prepared 0) :=
    TripleBuffer.dynamicPrepare_eq hvalid hmax (Nat.zero_le _)
  have hcut : (s.buf.storage.take s.buf.outputOffset).length = s.buf.outputOffset :=
    List.length_take_of_le h.valid.zones
  -- the output zone is cut off, and what is committed is what there is
  have halike : ∀ {storage'}, s.buf.Overlay 0 storage' → Alike (s.readDelim delim)
      { s.onto storage' with
        control := .readDelim delim s.settings.ignoreProtocol s.settings.readBufferSize } := by
    intro storage' h'
    rw [readDelim, if_neg hne, TripleBuffer.shrink_output h.valid]
    have hzero : (s.buf.onto (s.buf.storage.take s.buf.outputOffset)).outputBufferSize = 0 :=
      Nat.sub_eq_zero_of_le hcut.le
    set cut : ReadState := { s with
      buf := s.buf.onto (s.buf.storage.take s.buf.outputOffset)
      control := .readDelim delim s.settings.ignoreProtocol s.settings.readBufferSize }
    have hsearching : Alike cut (cut.committedOver storage') := by
      apply Alike.searching rfl
      · exact hzero.symm ▸ h'.shrink
      · change (s.buf.storage.take s.buf.outputOffset).length - s.buf.externalInputSize ≤ _
        rw [hcut, TripleBuffer.outputOffset, Nat.add_sub_cancel_left]
        exact hmax
    rw [committedOver, hzero] at hsearching
    exact hsearching
  have hset : (s.onto storage).settings = s.settings := rfl
  rw [readDelimV1, if_neg hne]
  simp only [hset, hprepare]
  split
  · exact halike (h.resize (h.zones.trans h.fits) (Nat.le_refl _))
  · exact halike h

theorem alike_read (h : s.buf.Overlay 0 storage) (hc : s.control = .read) (hfit : ¬ s.Overfull) :
    Alike s.read (s.onto storage).readV1 := by
  by_cases hne : s.awaited = []
  · exact alike_read_of_nil hne h
  · have hsize : s.buf.internalInputSize ≤ s.settings.readBufferSize :=
      Nat.le_of_not_lt fun hlt => hfit ⟨hc, hne, hlt⟩
    obtain ⟨storage', hbegin, h'⟩ := overlay_beginFrame h
    have hawaited : (s.onto storage).awaited = s.awaited := rfl
    rw [(read_of_awaited hne).1, (read_of_awaited (s := s.onto storage) hne).2, hbegin, hawaited]
    exact alike_readDelim hne h' (s.internalInputSize_beginFrame.le.trans hsize)

section Searching

variable {delim : List Byte} {ignore : Bool} {maximum : ℕ}

/-- Both search the same bytes. -/
theorem searched_eq (h : s.buf.Overlay s.buf.outputBufferSize storage)
    (hmax : s.buf.storage.length - s.buf.externalInputSize ≤ s.buf.dynamicMaxSize maximum) :
    (s.committedOver storage).buf.internalInput = s.buf.dynamicData maximum ∧
      (s.committedOver storage).buf.internalInputSize = s.buf.dynamicSize maximum := by
  have hzones := h.valid.zones
  have hsize : s.buf.dynamicSize maximum = s.buf.storage.length - s.buf.externalInputSize :=
    Nat.min_eq_left hmax
  have hcommit := TripleBuffer.commitToInternalInput_eq h.valid
  constructor
  · have hinput := h.commitToInternalInput.2.internalInput
    have hall : s.buf.storage.length ≤ s.buf.outputOffset + s.buf.outputBufferSize := by
      rw [TripleBuffer.outputBufferSize]
      omega
    calc (s.committedOver storage).buf.internalInput
        = (s.buf.commitToInternalInput s.buf.outputBufferSize).internalInput := hinput
      _ = s.buf.input s.buf.outputBufferSize :=
          TripleBuffer.internalInput_commitToInternalInput h.valid
      _ = s.buf.storage.drop s.buf.externalInputSize := by
          rw [TripleBuffer.input, List.take_of_length_le hall]
      _ = s.buf.dynamicData maximum := by
          rw [TripleBuffer.dynamicData, hsize, List.take_of_length_le (by rw [List.length_drop])]
  · change (s.buf.commitToInternalInput s.buf.outputBufferSize).internalInputSize = _
    rw [hcommit, hsize]
    simp only [TripleBuffer.outputBufferSize, TripleBuffer.outputOffset] at hzones ⊢
    omega

theorem rel_completeUntil (h : s.buf.Overlay s.buf.outputBufferSize storage)
    (hmax : s.buf.storage.length - s.buf.externalInputSize ≤ s.buf.dynamicMaxSize maximum) :
    Option.Rel Alike (s.completeUntil delim ignore maximum)
      ((s.committedOver storage).completeUntilV1 delim ignore maximum) := by
  obtain ⟨hdata, hsize⟩ := searched_eq h hmax
  have hlimit : (s.committedOver storage).buf.dynamicMaxSize maximum =
      s.buf.dynamicMaxSize maximum := rfl
  rw [completeUntil, completeUntilV1, hdata, hsize, hlimit]
  cases firstEnd delim (s.buf.dynamicData maximum) with
  | some transferred =>
      apply Option.Rel.some
      exact alike_deliver (s := s) (r := storage) _
        (h.commitToInternalInput.2.commitToExternalInput _)
  | none =>
      simp only
      split
      · exact .some (.ended rfl rfl rfl rfl rfl)
      · exact .none

theorem roomV1_eq (hc : s.control = .readDelim delim ignore maximum)
    (h : s.buf.Overlay s.buf.outputBufferSize storage)
    (hmax : s.buf.storage.length - s.buf.externalInputSize ≤ s.buf.dynamicMaxSize maximum) :
    (s.committedOver storage).roomV1 = s.room := by
  obtain ⟨hdata, hsize⟩ := searched_eq h hmax
  have hcontrol : (s.committedOver storage).control = .readDelim delim ignore maximum := hc
  have hlimit : (s.committedOver storage).buf.dynamicMaxSize maximum =
      s.buf.dynamicMaxSize maximum := rfl
  simp only [roomV1, room, hcontrol, hc, hdata, hsize, hlimit]

end Searching

/-! ## Bytes that arrive -/

/-- The read is complete: what has arrived is committed, and shown. -/
theorem alike_commit {got : ℕ} {received : List Byte} (h : s.buf.Overlay got storage) :
    Alike (({ s with received } : ReadState).deliver
        (s.buf.commitToInternalInput got).commitWholeInternalInput 0)
      (({ s.onto storage with received } : ReadState).deliver
        ((s.buf.onto storage).commitToInternalInput got).commitWholeInternalInput 0) := by
  obtain ⟨hcommit, ho⟩ := h.commitToInternalInput
  rw [hcommit]
  exact alike_deliver (b := (s.buf.commitToInternalInput got).commitWholeInternalInput)
    (s := { s with received }) (r := storage) 0 (ho.congr rfl rfl)

/-- The read is into `prepare_output_buffer`. -/
theorem alike_receive {n got asked : ℕ} {bytes : List Byte} (hc : reads s.control = some (n, got))
    (h : s.buf.Overlay got storage) (hlength : storage.length = s.buf.storage.length)
    (hn : s.buf.outputOffset + n ≤ storage.length) (hlen : bytes.length ≤ n - got) :
    Alike (s.receive asked bytes) ((s.onto storage).receiveV1 asked bytes) := by
  have hzones := h.zones
  have hroom' : s.buf.outputOffset + got + bytes.length ≤ storage.length := by omega
  have hroom : s.buf.outputOffset + got + bytes.length ≤ s.buf.storage.length := hlength ▸ hroom'
  have hfill := h.fill hroom hroom'
  have hfilled := TripleBuffer.length_fill (b := s.buf) hroom
  have hfilled' := TripleBuffer.length_fill (b := s.buf.onto storage) hroom'
  have hcontrol : (s.onto storage).control = s.control := rfl
  have hsame : (s.onto storage).receiveV1 asked bytes = (s.onto storage).receive asked bytes := by
    rw [receiveV1, hcontrol]
    cases hs : s.control <;> simp only [hs, reads, reduceCtorEq] at hc ⊢
  rw [hsame]
  -- the state after the bytes are stored
  set filled : ReadState := { s with
    buf := s.buf.fill (s.buf.outputOffset + got) bytes, received := s.received ++ bytes }
  have hnext : ∀ {c}, reads c = some (n, got + bytes.length) →
      Alike { filled with control := c }
        { filled.onto ((s.buf.onto storage).fill (s.buf.outputOffset + got) bytes).storage with
          control := c } := by
    intro c hc'
    apply Alike.reading hc' hfill
    · rw [hfilled']
      exact hlength.trans hfilled.symm
    · rw [hfilled']
      exact hn
  cases hs : s.control <;> simp only [hs, reads, reduceCtorEq] at hc
  case readSome m =>
    obtain ⟨rfl, rfl⟩ := Prod.mk.inj (Option.some.inj hc)
    rw [Nat.zero_add] at hfill
    simp only [receive, hcontrol, hs]
    exact alike_commit (s := filled) hfill
  case readFixed m got' =>
    obtain ⟨rfl, rfl⟩ := Prod.mk.inj (Option.some.inj hc)
    simp only [receive, hcontrol, hs]
    split
    · rename_i hall
      rw [← hall]
      exact alike_commit (s := filled) hfill
    · exact hnext rfl
  case prefixBytes len m got' =>
    obtain ⟨rfl, rfl⟩ := Prod.mk.inj (Option.some.inj hc)
    simp only [receive, hcontrol, hs]
    split
    · rename_i hall
      rw [← hall]
      obtain ⟨hcommit, ho⟩ := hfill.commitToInternalInput
      have hrunning := Alike.running (s := { filled with
        buf := filled.buf.commitToInternalInput (got' + bytes.length)
        control := .readPrefix len }) (.inr ⟨len, rfl⟩) ho
      rw [onto, ← hcommit] at hrunning
      exact hrunning
    · exact hnext rfl

theorem receiveV1_of_delim {delim bytes : List Byte} {ignore : Bool} {maximum asked : ℕ}
    {buf : TripleBuffer} (hc : s.control = .readDelim delim ignore maximum)
    (hprepare : s.buf.dynamicPrepare maximum asked = some buf) :
    s.receiveV1 asked bytes = { s with
      buf := (buf.fill buf.outputOffset bytes).dynamicCommit bytes.length
      received := s.received ++ bytes } := by
  simp only [receiveV1, hc, hprepare]

/-- The read is for a delimiter, which has not been found. -/
theorem alike_receive_delim {delim : List Byte} {ignore : Bool} {maximum asked : ℕ}
    {bytes : List Byte} (hc : s.control = .readDelim delim ignore maximum)
    (h : s.buf.Overlay s.buf.outputBufferSize storage)
    (hmax : s.buf.storage.length - s.buf.externalInputSize ≤ s.buf.dynamicMaxSize maximum)
    (hlen : bytes.length ≤ asked) (hasked : asked ≤ s.room) (hne : bytes ≠ []) :
    Alike (s.receive asked bytes) ((s.committedOver storage).receiveV1 asked bytes) := by
  have hpos := List.length_pos_of_ne_nil hne
  have hsize : s.buf.dynamicSize maximum = s.buf.storage.length - s.buf.externalInputSize :=
    Nat.min_eq_left hmax
  have hroom : asked ≤ s.buf.dynamicMaxSize maximum - s.buf.dynamicSize maximum := by
    simp only [room, hc] at hasked
    split at hasked <;> omega
  have hvalid := (h.mono (Nat.zero_le _)).valid
  have hzones := hvalid.zones
  have hfits := hvalid.fits
  have hmost : s.buf.dynamicMaxSize maximum ≤ maxSize - s.buf.externalInputSize :=
    Nat.min_le_left _ _
  -- the bytes are appended to the storage
  have hgrows : s.buf.dynamicGrow maximum asked = some { s.buf with
      storage := s.buf.storage ++ List.replicate asked 0 } ∧
      s.buf.externalInputSize + s.buf.dynamicSize maximum = s.buf.storage.length :=
    dynamicGrow_eq hvalid (by omega) hroom
  set appended : ReadState := { s with
    buf := s.buf.onto (s.buf.storage ++ bytes), received := s.received ++ bytes }
  have hreceive : s.receive asked bytes = appended := by
    simp only [appended, receive, hc, hgrows.1, hgrows.2, grow_fill_shrink hzones]
    rfl
  -- they are committed
  have hinternal := (searched_eq h hmax).2
  have ho := h.commitToInternalInput.2
  have hcommitted : (s.committedOver storage).buf.Valid 0 := ⟨ho.zones, ho.fits⟩
  have hprepare : (s.committedOver storage).buf.dynamicPrepare maximum asked =
      some ((s.committedOver storage).buf.prepared asked) := by
    apply TripleBuffer.dynamicPrepare_eq hcommitted
    · rw [hinternal]
      exact hsize.trans_le hmax
    · rw [hinternal]
      exact hroom
  obtain ⟨hcommit, honto⟩ := h.append rfl rfl hlen (by omega)
  have hcontrol : (s.committedOver storage).control = .readDelim delim ignore maximum := hc
  have hstate : (s.committedOver storage).receiveV1 asked bytes = appended.committedOver
      (((s.committedOver storage).buf.prepared asked).fill
        ((s.committedOver storage).buf.prepared asked).outputOffset bytes).storage := by
    rw [receiveV1_of_delim hcontrol hprepare]
    exact congrArg
      (fun buf => { s.committedOver storage with buf, received := s.received ++ bytes }) hcommit
  rw [hreceive, hstate]
  apply Alike.searching (s := appended) hc honto
  change (s.buf.storage ++ bytes).length - s.buf.externalInputSize ≤ s.buf.dynamicMaxSize maximum
  rw [List.length_append]
  omega

/-! ## Steps -/

theorem Alike.control (h : Alike s t) : t.control = s.control := by
  cases h with
  | ended _ hc _ _ _ => exact hc
  | running _ _ | upcall _ _ _ | reading _ _ _ _ | searching _ _ _ => rfl

theorem waiting_congr (hc : t.control = s.control) : t.waiting = s.waiting := by
  rw [waiting, waiting, hc]

/-- How much more a read into `prepare_output_buffer` takes. -/
theorem room_of_reads {n got : ℕ} (hc : reads s.control = some (n, got)) :
    s.waiting = true ∧ s.room = n - got ∧ s.roomV1 = n - got := by
  cases hs : s.control <;> simp only [hs, reads, reduceCtorEq] at hc
  all_goals
    obtain ⟨rfl, rfl⟩ := Prod.mk.inj (Option.some.inj hc)
    simp [waiting, room, roomV1, hs]

/-- Both receive, or neither does. -/
theorem rel_receive {h : ReadHandler} {asked : ℕ} {bytes : List Byte} (hc : t.control = s.control)
    (hroom : s.waiting = true → t.roomV1 = s.room)
    (hreceive : bytes.length ≤ asked → asked ≤ s.room →
      (bytes = [] → s.control = .readSome 0) → s.waiting = true →
      Alike (s.receive asked bytes) (t.receiveV1 asked bytes)) :
    Option.Rel Alike (s.step h (.receive asked bytes)) (t.stepV1 h (.receive asked bytes)) := by
  rw [step, stepV1, waiting_congr hc, hc]
  by_cases hwaiting : s.waiting = true
  · rw [hroom hwaiting]
    split
    · rename_i hg
      exact .some (hreceive hg.2.1 hg.2.2.1 hg.2.2.2 hwaiting)
    · exact .none
  · rw [if_neg fun hg => hwaiting hg.1, if_neg fun hg => hwaiting hg.1]
    exact .none

/-- Unless too much is buffered both builds take the same step. -/
theorem rel_step (h : ReadHandler) (hst : Alike s t) (hfit : ¬ s.Overfull) (e : ReadEvent) :
    Option.Rel Alike (s.step h e) (t.stepV1 h e) := by
  have hcontrol := hst.control
  cases hst with
  | running hc ho =>
      rename_i storage
      have hquiet : ¬ s.waiting = true := by
        rcases hc with hc | ⟨len, hc⟩ <;> simp [waiting, hc]
      cases e with
      | run =>
          rcases hc with hc | ⟨len, hc⟩
          · simp only [step, stepV1, hcontrol, hc]
            exact .some (alike_read ho hc hfit)
          · simp only [step, stepV1, hcontrol, hc]
            exact .some (alike_readPrefix ho len)
      | upcall =>
          rcases hc with hc | ⟨len, hc⟩ <;> simp only [step, stepV1, hcontrol, hc] <;> exact .none
      | receive asked bytes =>
          exact rel_receive hcontrol (fun hw => absurd hw hquiet) fun _ _ _ hw => absurd hw hquiet
  | upcall hc hends ho =>
      have hquiet : ¬ s.waiting = true := by simp [waiting, hc]
      cases e with
      | run =>
          simp only [step, stepV1, hcontrol, hc]
          exact .none
      | upcall =>
          simp only [step, stepV1, hcontrol, hc]
          exact .some (alike_handlerRead h _ hends ho)
      | receive asked bytes =>
          exact rel_receive hcontrol (fun hw => absurd hw hquiet) fun _ _ _ hw => absurd hw hquiet
  | reading hc ho hlength hn =>
      rename_i storage n got
      cases e with
      | run =>
          cases hs : s.control <;> simp only [hs, reads, reduceCtorEq] at hc <;>
            simp only [step, stepV1, hcontrol, hs] <;> exact .none
      | upcall =>
          cases hs : s.control <;> simp only [hs, reads, reduceCtorEq] at hc <;>
            simp only [step, stepV1, hcontrol, hs] <;> exact .none
      | receive asked bytes =>
          obtain ⟨-, hroom, -⟩ := room_of_reads hc
          obtain ⟨-, -, hroom'⟩ := room_of_reads (s := s.onto storage) hc
          apply rel_receive hcontrol fun _ => hroom'.trans hroom.symm
          intro hlen hasked _ _
          exact alike_receive hc ho hlength hn (hlen.trans (hasked.trans hroom.le))
  | searching hc ho hmax =>
      cases e with
      | run =>
          simp only [step, stepV1, hcontrol, hc]
          exact rel_completeUntil ho hmax
      | upcall =>
          simp only [step, stepV1, hcontrol, hc]
          exact .none
      | receive asked bytes =>
          apply rel_receive hcontrol fun _ => roomV1_eq hc ho hmax
          intro hlen hasked hempty _
          apply alike_receive_delim hc ho hmax hlen hasked
          intro hnil
          have hsome := hempty hnil
          rw [hc] at hsome
          cases hsome
  | ended hend hc _ _ _ =>
      have hquiet : ¬ s.waiting = true := by
        cases hs : s.control <;> simp_all [stops, waiting]
      cases e with
      | run =>
          cases hs : s.control <;> simp only [hs, stops, Bool.false_eq_true] at hend <;>
            simp only [step, stepV1, hcontrol, hs] <;> exact .none
      | upcall =>
          cases hs : s.control <;> simp only [hs, stops, Bool.false_eq_true] at hend <;>
            simp only [step, stepV1, hcontrol, hs] <;> exact .none
      | receive asked bytes =>
          exact rel_receive hcontrol (fun hw => absurd hw hquiet) fun _ _ _ hw => absurd hw hquiet

theorem alike_initial (h : ReadHandler) : Alike (.initial h) (.initial h) :=
  .running (.inl rfl) (.refl ⟨Nat.le_refl _, Nat.zero_le _⟩)

/-! ## What a handler sees -/

/-- Two states are the same to the handler and to the peer. -/
structure SameReading (s t : ReadState) : Prop where
  control : t.control = s.control
  settings : t.settings = s.settings
  delivered : t.delivered = s.delivered
  received : t.received = s.received
  shown : ∀ tail, s.control = .upcall tail →
    t.buf.segment = s.buf.segment ∧ t.buf.whole = s.buf.whole

theorem Alike.sameReading (h : Alike s t) : SameReading s t := by
  cases h with
  | running hc _ =>
      refine ⟨rfl, rfl, rfl, rfl, fun tail htail => ?_⟩
      rcases hc with hc | ⟨len, hc⟩ <;> cases hc.symm.trans htail
  | upcall _ hends ho => exact ⟨rfl, rfl, rfl, rfl, fun _ _ => ⟨ho.segment hends, ho.whole⟩⟩
  | reading hc _ _ _ =>
      refine ⟨rfl, rfl, rfl, rfl, fun tail htail => ?_⟩
      rw [htail] at hc
      cases hc
  | searching hc _ _ => exact ⟨rfl, rfl, rfl, rfl, fun tail htail => by cases hc.symm.trans htail⟩
  | ended hend hcontrol hset hdelivered hreceived =>
      refine ⟨hcontrol, hset, hdelivered, hreceived, fun tail htail => ?_⟩
      rw [htail] at hend
      cases hend

theorem Alike.overfull_iff (h : Alike s t) : t.Overfull ↔ s.Overfull := by
  have hcontrol := h.control
  cases h with
  | searching hc _ _ =>
      exact ⟨fun ho => (by cases hc.symm.trans ho.1), fun ho => (by cases hc.symm.trans ho.1)⟩
  | ended hend _ _ _ _ =>
      constructor
      · intro ho
        rw [← hcontrol, ho.1] at hend
        cases hend
      · intro ho
        rw [ho.1] at hend
        cases hend
  | running _ _ | upcall _ _ _ | reading _ _ _ _ => exact .rfl

/-- The builds part where too much is buffered: `prepare` throws, and the other adaptor goes on
with as much as it may hold. -/
theorem Alike.part (h : Alike s t) (ho : s.Overfull) :
    t.readV1.control = .threw ∧ ∃ delim ignore maximum,
      s.read.control = .readDelim delim ignore maximum := by
  obtain ⟨-, hne, -⟩ := id ho
  obtain ⟨-, hne', hlt'⟩ := h.overfull_iff.mpr ho
  constructor
  · rw [(read_of_awaited hne').2]
    exact readDelimV1_of_lt hne' (t.internalInputSize_beginFrame.symm ▸ hlt')
  · rw [(read_of_awaited hne).1, readDelim, if_neg hne]
    exact ⟨_, _, _, rfl⟩

end ReadState

open ReadState

/-- The runs of the build with `DynamicBuffer_v2` in which never too much is buffered. -/
def fittingReadSystem (h : ReadHandler) : TransitionSystem ReadState ReadEvent :=
  (readSystem h).restrict fun s _ => ¬ s.Overfull

/-- Those of the other build. -/
def fittingReadSystemV1 (h : ReadHandler) : TransitionSystem ReadState ReadEvent :=
  (readSystemV1 h).restrict fun t _ => ¬ t.Overfull

section Agree

variable {h : ReadHandler} {es : List ReadEvent} {s t : ReadState}

theorem exists_alike_of_fitting (hr : (fittingReadSystem h).Run (.initial h) es s) :
    ∃ t, (readSystemV1 h).Run (.initial h) es t ∧ Alike s t := by
  apply TransitionSystem.Run.lockstep (R := Alike) (C := fun s _ => ¬ s.Overfull) _
    (alike_initial h) hr
  intro u v e huv hfit
  exact rel_step h huv hfit e

theorem exists_alike_of_fittingV1 (hr : (fittingReadSystemV1 h).Run (.initial h) es t) :
    ∃ s, (readSystem h).Run (.initial h) es s ∧ Alike s t := by
  apply TransitionSystem.Run.lockstep (R := fun v u => Alike u v) (C := fun t _ => ¬ t.Overfull) _
    (alike_initial h) hr
  intro v u e huv hfit
  exact TransitionSystem.rel_flip (rel_step h huv (fun ho => hfit (huv.overfull_iff.mpr ho)) e)

end Agree

/-- Every run of one build is one of the other, with the same upcalls, as long as the session does
not wait for a delimiter with more buffered than it may read; there the builds part. -/
theorem dynamic_buffers_agree (h : ReadHandler) (es : List ReadEvent) :
    (∀ s, (fittingReadSystem h).Run (.initial h) es s →
      ∃ t, (readSystemV1 h).Run (.initial h) es t ∧ SameReading s t ∧
        (s.Overfull → t.readV1.control = .threw ∧ ∃ delim ignore maximum,
          s.read.control = .readDelim delim ignore maximum)) ∧
    ∀ t, (fittingReadSystemV1 h).Run (.initial h) es t →
      ∃ s, (readSystem h).Run (.initial h) es s ∧ SameReading s t := by
  constructor
  · intro s hr
    obtain ⟨t, ht, hst⟩ := exists_alike_of_fitting hr
    exact ⟨t, ht, hst.sameReading, hst.part⟩
  · intro t hr
    obtain ⟨s, hs, hst⟩ := exists_alike_of_fittingV1 hr
    exact ⟨s, hs, hst.sameReading⟩

/-- A line arrives with part of the next one. -/
def lineAndHalf : List ReadEvent := [.run, .receive 8 [97, 10, 98, 99], .run, .upcall]

/-- A handler that reads shorter lines after the first. -/
def loweringHandler : ReadHandler := fun segments =>
  ⟨[], ⟨.delimLf, 0, if segments = [] then 64 else 1, []⟩⟩

theorem dynamic_buffers_agree_lowered : ∃ t,
    (readSystemV1 loweringHandler).Run (.initial loweringHandler) lineAndHalf t ∧
    t.delivered = [[97, 10]] ∧ t.readV1.control = .threw := by
  obtain ⟨s, hr, hp⟩ := TransitionSystem.exists_run_restrict_of_exec
    (fun s _ => ¬ s.Overfull) (· = .initial loweringHandler) (ReadState.step loweringHandler)
    (.initial loweringHandler) lineAndHalf
    (fun s => decide (s.Overfull ∧ s.delivered = [[97, 10]])) (by decide +kernel)
  obtain ⟨hoverfull, hdelivered⟩ := of_decide_eq_true hp
  obtain ⟨t, ht, hst, hpart⟩ := (dynamic_buffers_agree loweringHandler _).1 s hr
  exact ⟨t, ht, hst.delivered.trans hdelivered, (hpart hoverfull).1⟩

/-! ## Handlers that never lower the size of the buffer -/

namespace ReadState

/-- What is buffered is no more than the session may read. -/
def Contained (s : ReadState) : Prop :=
  match s.control with
  | .readDelim _ _ maximum => maximum ≤ s.settings.readBufferSize
  | .prefixBytes _ n _ => s.buf.internalInputSize + n ≤ s.settings.readBufferSize
  | .idle | .failed _ | .threw | .overrun => True
  | _ => s.buf.internalInputSize ≤ s.settings.readBufferSize

/-- Where a function goes on with the same frame. -/
structure Continues (s t : ReadState) : Prop where
  settings : t.settings = s.settings
  delivered : t.delivered = s.delivered
  contained : t.Contained

variable {s t : ReadState}

theorem continues_asyncRead {n : ℕ} {c : Control}
    (hc : ({ s with control := c } : ReadState).Contained) : s.Continues (s.asyncRead n c) := by
  rw [asyncRead, TripleBuffer.prepareOutputBuffer]
  cases TripleBuffer.resize s.buf.storage (wrap (s.buf.outputOffset + n)) with
  | none => exact ⟨rfl, rfl, trivial⟩
  | some storage =>
      simp only [Option.map_some]
      split
      · exact ⟨rfl, rfl, hc⟩
      · exact ⟨rfl, rfl, trivial⟩

theorem internalInputSize_commitToExternalInput_le (b : TripleBuffer) (n : ℕ) :
    (b.commitToExternalInput n).internalInputSize ≤ b.internalInputSize := by
  rw [TripleBuffer.commitToExternalInput_eq]
  exact Nat.sub_le _ _

theorem continues_readSome (hle : s.buf.internalInputSize ≤ s.settings.readBufferSize) (n : ℕ) :
    s.Continues (s.readSome n) := by
  rw [readSome]
  split
  · exact ⟨rfl, rfl, (internalInputSize_commitToExternalInput_le _ n).trans hle⟩
  · exact continues_asyncRead hle

theorem continues_readFixed (hle : s.buf.internalInputSize ≤ s.settings.readBufferSize) (n : ℕ) :
    s.Continues (s.readFixed n) := by
  simp only [readFixed]
  split
  · exact ⟨rfl, rfl, (internalInputSize_commitToExternalInput_le _ n).trans hle⟩
  · exact continues_asyncRead hle

theorem continues_readDelim (hle : s.buf.internalInputSize ≤ s.settings.readBufferSize)
    (delim : List Byte) : s.Continues (s.readDelim delim) := by
  rw [readDelim]
  split
  · exact continues_readSome hle _
  · exact ⟨rfl, rfl, Nat.le_refl _⟩

theorem incomplete_le {st : Settings} {p : List Byte} {len n : ℕ}
    (h : parsePrefix st p len = .incomplete n) : n ≤ st.readBufferSize := by
  have hfield : ∀ var p len, parseField st var p len ≠ .incomplete n := by
    intro var p len
    simp only [parseField]
    split_ifs <;> exact PrefixResult.noConfusion
  simp only [parsePrefix] at h
  split_ifs at h with hshort hlimit hlimit
  all_goals first
    | exact absurd h (hfield _ _ _)
    | (obtain rfl := PrefixResult.incomplete.inj h; omega)

theorem continues_readPrefix (hv : s.buf.Valid 0)
    (hle : s.buf.internalInputSize ≤ s.settings.readBufferSize) (len : ℕ) :
    s.Continues (s.readPrefix len) := by
  simp only [readPrefix]
  split
  · exact ⟨rfl, rfl, trivial⟩
  · rename_i n hn
    apply continues_asyncRead
    have hlimit := incomplete_le hn
    have hlength := TripleBuffer.length_internalInput hv.zones
    change s.buf.internalInputSize + (n - s.buf.internalInput.length) ≤ s.settings.readBufferSize
    omega
  · rename_i n dataSize _
    have hcommit := (internalInputSize_commitToExternalInput_le s.buf n).trans hle
    cases s.settings.ignoreProtocol with
    | false =>
        obtain ⟨hset, hdelivered, hcontained⟩ := continues_readFixed
          (s := { s with buf := s.buf.commitToExternalInput n }) hcommit dataSize
        exact ⟨hset, hdelivered, hcontained⟩
    | true =>
        obtain ⟨hset, hdelivered, hcontained⟩ := continues_readFixed
          (s := { s with buf := (s.buf.commitToExternalInput n).markCurrentExternalInput })
          hcommit dataSize
        exact ⟨hset, hdelivered, hcontained⟩

theorem continues_read (hle : s.buf.internalInputSize ≤ s.settings.readBufferSize) :
    s.Continues s.read := by
  have hbegin : s.beginFrame.buf.internalInputSize ≤ s.beginFrame.settings.readBufferSize :=
    s.internalInputSize_beginFrame.trans_le hle
  suffices hcontinues : s.beginFrame.Continues s.read from
    ⟨hcontinues.settings, hcontinues.delivered, hcontinues.contained⟩
  rw [read_eq]
  cases hp : s.settings.protocol with
  | none => exact ⟨rfl, rfl, trivial⟩
  | any => exact continues_readSome hbegin _
  | fixed => exact continues_readFixed hbegin _
  | delim | delimZero | delimCr | delimLf | delimCrlf => exact continues_readDelim hbegin _
  | prefix8 | prefix16 | prefix32 | prefix64 | prefixVar => exact ⟨rfl, rfl, hbegin⟩
  | other n => exact ⟨rfl, rfl, trivial⟩

theorem Alike.valid (h : Alike s t) (hend : stops s.control = false) : s.buf.Valid 0 := by
  cases h with
  | running _ ho | upcall _ _ ho => exact ho.valid
  | reading _ ho _ _ | searching _ ho _ => exact (ho.mono (Nat.zero_le _)).valid
  | ended h _ _ _ _ =>
      rw [hend] at h
      cases h

theorem continues_completeUntil {delim : List Byte} {ignore : Bool} {maximum : ℕ} {u : ReadState}
    (h : Alike s t) (hcontained : s.Contained) (hc : s.control = .readDelim delim ignore maximum)
    (hu : s.completeUntil delim ignore maximum = some u) : s.Continues u := by
  have hbuffered : s.buf.storage.length - s.buf.externalInputSize ≤ s.settings.readBufferSize := by
    simp only [Contained, hc] at hcontained
    cases h with
    | searching hc' _ hmax =>
        obtain ⟨-, -, rfl⟩ := Control.readDelim.inj (hc.symm.trans hc')
        exact hmax.trans ((Nat.min_le_right _ _).trans hcontained)
    | running hc' _ => rcases hc' with hc' | ⟨len, hc'⟩ <;> cases hc.symm.trans hc'
    | upcall hc' _ _ => cases hc.symm.trans hc'
    | reading hc' _ _ _ =>
        rw [hc] at hc'
        cases hc'
    | ended hc' _ _ _ _ =>
        rw [hc] at hc'
        cases hc'
  have hzones := (h.valid (by rw [hc]; rfl)).zones
  rw [completeUntil] at hu
  split at hu
  · obtain rfl := Option.some.inj hu
    refine ⟨rfl, rfl, (internalInputSize_commitToExternalInput_le _ _).trans ?_⟩
    refine Nat.le_trans ?_ hbuffered
    simp only [TripleBuffer.commitToInternalInput, TripleBuffer.outputBufferSize,
      TripleBuffer.outputOffset] at hzones ⊢
    omega
  · split at hu
    · obtain rfl := Option.some.inj hu
      exact ⟨rfl, rfl, trivial⟩
    · cases hu

theorem contained_handlerRead {h : ReadHandler} (tail : ℕ) (hv : s.buf.Valid 0)
    (hle : s.buf.internalInputSize ≤
      (h (s.delivered ++ [s.buf.segment])).settings.readBufferSize) :
    (s.handlerRead h tail).Contained := by
  have hconsumed := TripleBuffer.consumed_foldl (h (s.delivered ++ [s.buf.segment])).consumes hv
  exact (internalInputSize_commitToExternalInput_le _ tail).trans (hconsumed.internal.trans_le hle)

theorem continues_receive {asked : ℕ} {bytes : List Byte} (hcontained : s.Contained)
    (hw : s.waiting = true) : s.Continues (s.receive asked bytes) := by
  cases hc : s.control <;> simp only [waiting, hc, Bool.false_eq_true] at hw
  all_goals simp only [Contained, hc] at hcontained
  case readSome n =>
    simp only [receive, hc]
    exact ⟨rfl, rfl, Nat.zero_le _⟩
  case readFixed n got =>
    simp only [receive, hc]
    split
    · exact ⟨rfl, rfl, Nat.zero_le _⟩
    · exact ⟨rfl, rfl, hcontained⟩
  case prefixBytes len n got =>
    simp only [receive, hc]
    split
    · exact ⟨rfl, rfl, (Nat.add_le_add_left (Nat.min_le_left _ _) _).trans hcontained⟩
    · exact ⟨rfl, rfl, hcontained⟩
  case readDelim delim ignore maximum =>
    simp only [receive, hc]
    split
    · exact ⟨rfl, rfl, trivial⟩
    · exact ⟨rfl, rfl, hcontained⟩

/-- What holds of every reachable state under a handler that never lowers the size. -/
structure Fitting (h : ReadHandler) (s : ReadState) : Prop where
  alike : ∃ t, Alike s t
  settings : s.settings = (h s.delivered).settings
  contained : s.Contained

theorem Fitting.not_overfull {h : ReadHandler} (hs : s.Fitting h) : ¬ s.Overfull := by
  intro ho
  have hcontained := hs.contained
  simp only [Contained, ho.1] at hcontained
  exact absurd ho.2.2 (Nat.not_lt.mpr hcontained)

theorem Fitting.step {h : ReadHandler} {e : ReadEvent} (hs : s.Fitting h)
    (hgrows : ∀ segments segment, (h segments).settings.readBufferSize ≤
      (h (segments ++ [segment])).settings.readBufferSize) (ht : s.step h e = some t) :
    t.Fitting h := by
  obtain ⟨u, hu⟩ := hs.alike
  have hrel := rel_step h hu hs.not_overfull e
  obtain ⟨v, -, hv⟩ := TransitionSystem.exists_of_rel hrel ht
  have hcontained := hs.contained
  suffices hnext : t.settings = (h t.delivered).settings ∧ t.Contained from
    ⟨⟨v, hv⟩, hnext.1, hnext.2⟩
  have hgo : ∀ {w}, s.Continues w → w.settings = (h w.delivered).settings ∧ w.Contained := by
    intro w hw
    rw [hw.settings, hw.delivered]
    exact ⟨hs.settings, hw.contained⟩
  cases step_cases ht with
  | read hc =>
      simp only [Contained, hc] at hcontained
      exact hgo (continues_read hcontained)
  | readPrefix hc =>
      simp only [Contained, hc] at hcontained
      exact hgo (continues_readPrefix (hu.valid (by rw [hc]; rfl)) hcontained _)
  | completeUntil hc hcomplete => exact hgo (continues_completeUntil hu hcontained hc hcomplete)
  | upcall hc =>
      simp only [Contained, hc] at hcontained
      refine ⟨rfl, contained_handlerRead _ (hu.valid (by rw [hc]; rfl)) ?_⟩
      rw [hs.settings] at hcontained
      exact hcontained.trans (hgrows _ _)
  | receive hw _ _ _ => exact hgo (continues_receive hcontained hw)

end ReadState

section Growing

variable {h : ReadHandler} {es : List ReadEvent} {s t : ReadState}

theorem fitting_initial (h : ReadHandler) : (ReadState.initial h).Fitting h where
  alike := ⟨_, alike_initial h⟩
  settings := rfl
  contained := Nat.zero_le _

variable (hgrows : ∀ segments segment, (h segments).settings.readBufferSize ≤
  (h (segments ++ [segment])).settings.readBufferSize)

include hgrows

/-- Never too much is buffered. -/
theorem fitting_of_run (hr : (readSystem h).Run (.initial h) es s) :
    (fittingReadSystem h).Run (.initial h) es s ∧ s.Fitting h := by
  apply hr.rec_invariant
    (I := fun es s => (fittingReadSystem h).Run (.initial h) es s ∧ s.Fitting h)
  · exact ⟨.nil, fitting_initial h⟩
  · intro es u e v hu hv
    exact ⟨hu.1.snoc ⟨hu.2.not_overfull, hv⟩, hu.2.step hgrows hv⟩

theorem exists_fitting_of_run (hr : (readSystemV1 h).Run (.initial h) es t) :
    ∃ s, (readSystem h).Run (.initial h) es s ∧ Alike s t ∧ s.Fitting h := by
  apply hr.rec_invariant
    (I := fun es t => ∃ s, (readSystem h).Run (.initial h) es s ∧ Alike s t ∧ s.Fitting h)
  · exact ⟨_, .nil, alike_initial h, fitting_initial h⟩
  · intro es t e v hs hv
    obtain ⟨s, hr, hst, hfit⟩ := hs
    have hrel := TransitionSystem.rel_flip (rel_step h hst hfit.not_overfull e)
    obtain ⟨u, hu, huv⟩ := TransitionSystem.exists_of_rel hrel hv
    exact ⟨u, hr.snoc hu, huv, hfit.step hgrows hu⟩

end Growing

/-- A handler that never lowers `read_buffer_size_` cannot tell the builds apart. -/
theorem buffers_agree_of_growing (h : ReadHandler)
    (hgrows : ∀ segments segment, (h segments).settings.readBufferSize ≤
      (h (segments ++ [segment])).settings.readBufferSize) (es : List ReadEvent) :
    (∀ s, (readSystem h).Run (.initial h) es s →
      ∃ t, (readSystemV1 h).Run (.initial h) es t ∧ SameReading s t) ∧
    ∀ t, (readSystemV1 h).Run (.initial h) es t →
      ∃ s, (readSystem h).Run (.initial h) es s ∧ SameReading s t := by
  constructor
  · intro s hr
    obtain ⟨t, ht, hst⟩ := exists_alike_of_fitting (fitting_of_run hgrows hr).1
    exact ⟨t, ht, hst.sameReading⟩
  · intro t hr
    obtain ⟨s, hs, hst, -⟩ := exists_fitting_of_run hgrows hr
    exact ⟨s, hs, hst.sameReading⟩

theorem buffers_agree_of_growing_lines : ∃ t,
    (readSystemV1 (quietHandler ⟨.delimLf, 0, 64, []⟩)).Run
      (.initial (quietHandler ⟨.delimLf, 0, 64, []⟩)) lineAndHalf t ∧ t.delivered = [[97, 10]] := by
  have hexec : (TransitionSystem.exec (ReadState.step (quietHandler ⟨.delimLf, 0, 64, []⟩))
      (.initial (quietHandler ⟨.delimLf, 0, 64, []⟩)) lineAndHalf).map (·.delivered) =
        some [[97, 10]] := by decide +kernel
  obtain ⟨s, hs, hdelivered⟩ := Option.map_eq_some_iff.mp hexec
  obtain ⟨t, ht, hst⟩ := (buffers_agree_of_growing (quietHandler ⟨.delimLf, 0, 64, []⟩)
    (fun _ _ => Nat.le_refl _) lineAndHalf).1 s (TransitionSystem.run_of_exec hs)
  exact ⟨t, ht, hst.delivered.trans hdelivered⟩

end Minapp
