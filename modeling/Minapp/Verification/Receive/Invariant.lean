import Minapp.Verification.Receive.Prefix
import Mathlib.Data.List.TakeWhile
import Mathlib.Tactic.Set

/-! The invariant of the receive path. Every function of the session is given one
lemma that says what state it leaves, and the step lemma assembles them. -/

namespace Minapp

open FirstOccurrence

namespace TripleBuffer

variable (b : TripleBuffer)

/-- The buffer after a successful `prepare_output_buffer(n)`. -/
def prepared (n : ℕ) : TripleBuffer :=
  { b with storage := b.storage.take (b.outputOffset + n) ++
      List.replicate (b.outputOffset + n - b.storage.length) 0 }

@[simp] theorem length_prepared (n : ℕ) :
    (b.prepared n).storage.length = b.outputOffset + n := length_resized _ _

@[simp] theorem outputOffset_prepared (n : ℕ) : (b.prepared n).outputOffset = b.outputOffset := rfl

theorem take_prepared {b : TripleBuffer} (h : b.Valid 0) (n : ℕ) :
    (b.prepared n).storage.take b.outputOffset = b.storage.take b.outputOffset :=
  take_resized _ (Nat.le_add_right _ _) h.zones

theorem stream_prepared {b : TripleBuffer} (h : b.Valid 0) (n : ℕ) :
    (b.prepared n).stream 0 = b.stream 0 := by
  simp only [stream, Nat.add_zero, outputOffset_prepared]
  rw [take_prepared h]
  rfl

theorem valid_prepared {b : TripleBuffer} {n : ℕ} (hn : b.outputOffset + n ≤ maxSize) :
    (b.prepared n).Valid 0 := by
  constructor <;> simp [hn]

/-- While the sum does not exceed `max_size()` the region handed out ends the storage;
beyond it the resize throws. -/
theorem prepareOutputBuffer_eq {b : TripleBuffer} {n : ℕ} (h : b.Valid 0) (hn : n ≤ maxSize) :
    b.prepareOutputBuffer n =
      if b.outputOffset + n ≤ maxSize then some (b.prepared n, ⟨b.outputOffset, n⟩) else none := by
  have hw : wrap (b.outputOffset + n) = b.outputOffset + n := by
    have hz := h.zones
    have hf := h.fits
    rw [maxSize] at hf hn
    exact Nat.mod_eq_of_lt (by omega)
  rw [prepareOutputBuffer]
  rw [hw]
  split
  · rw [resize_of_le ‹_›]
    rfl
  · rw [resize, if_neg ‹_›]
    rfl

/-- Cutting off the whole output zone leaves exactly the input zones. -/
theorem shrink_output {b : TripleBuffer} (h : b.Valid 0) :
    b.shrinkOutputBuffer b.outputBufferSize =
      { b with storage := b.storage.take b.outputOffset } := by
  have hz := h.zones
  rw [shrinkOutputBuffer, Nat.min_self, outputBufferSize,
    show b.storage.length - (b.storage.length - b.outputOffset) = b.outputOffset by omega]

end TripleBuffer

namespace ReadState

/-- The bytes that have arrived in the output zone and are not committed yet. -/
def arrived (s : ReadState) : ℕ :=
  match s.control with
  | .readFixed _ got => got
  | .prefixBytes _ _ got => got
  | .readDelim _ _ _ | .failed .notFound => s.buf.outputBufferSize
  | _ => 0

/-- The buffer accounts for every received byte, the last `k` of them in its output zone. -/
structure Accounts (s : ReadState) (k : ℕ) : Prop where
  valid : s.buf.Valid k
  conserved : s.buf.stream k = s.received
  limit : s.settings.readBufferSize ≤ maxSize

/-- The bytes that have arrived are accounted for once they are stored after the others. -/
theorem Accounts.fill {s : ReadState} {k : ℕ} {bytes : List Byte} (ha : s.Accounts k)
    (hfill : s.buf.outputOffset + k + bytes.length ≤ s.buf.storage.length) :
    (s.buf.fill (s.buf.outputOffset + k) bytes).Valid (k + bytes.length) ∧
      (s.buf.fill (s.buf.outputOffset + k) bytes).stream (k + bytes.length) =
        s.received ++ bytes := by
  refine ⟨TripleBuffer.valid_fill ha.valid hfill, ?_⟩
  rw [← ha.conserved]
  exact TripleBuffer.stream_fill hfill

/-- Nothing of the current frame has been committed. -/
structure FrameBegun (s : ReadState) : Prop where
  external : s.buf.externalInputSize = s.frameStart
  mark : s.buf.segmentSize = s.frameStart

/-- The arguments `read_prefix` is called with: the width of the protocol's field, the
flag alone, or the flag with the number of bytes read one by one. -/
def PrefixArg (s : ReadState) (len : ℕ) : Prop :=
  prefixSize s.settings.protocol = some len ∨
    s.settings.protocol = .prefixVar ∧ (len = sizeMsb ∨
      len = s.buf.internalInput.length + sizeMsb ∧ s.buf.internalInput ≠ [] ∧
        ∀ c ∈ s.buf.internalInput.dropLast, continues c = true)

/-- The argument of the `read_prefix` that follows once `n` more bytes are read. -/
def PendingPrefixArg (s : ReadState) (len n : ℕ) : Prop :=
  prefixSize s.settings.protocol = some len ∧ s.buf.internalInputSize + n = len ∨
    s.settings.protocol = .prefixVar ∧ n = 1 ∧ len = s.buf.internalInputSize + 1 + sizeMsb ∧
      ∀ c ∈ s.buf.internalInput, continues c = true

/-- `n` bytes were asked for, fewer than `n` have arrived, and all have their place. -/
structure Outstanding (s : ReadState) (n got : ℕ) : Prop where
  got_lt : got < n
  inside : s.buf.outputOffset + n ≤ s.buf.storage.length

/-- The upcall sees a segment that ends the external input, and with the bytes
committed after it the frame is within the limit. -/
structure Delivering (s : ReadState) (tail : ℕ) : Prop where
  start_le : s.frameStart ≤ s.buf.segmentOffset
  ends : s.buf.segmentOffset + s.buf.segmentSize = s.buf.externalInputSize
  tail_le : tail ≤ s.buf.internalInputSize
  within : s.buf.externalInputSize + tail ≤ s.frameStart + s.settings.readBufferSize

def ControlInv (s : ReadState) : Prop :=
  match s.control with
  | .read | .idle | .failed _ | .threw => True
  | .readPrefix len => s.FrameBegun ∧ s.PrefixArg len
  | .upcall tail => s.Delivering tail
  | .readSome n =>
    s.FrameBegun ∧ s.buf.internalInputSize = 0 ∧ n = s.settings.readBufferSize ∧
      s.buf.outputOffset + n ≤ s.buf.storage.length
  | .readFixed n got =>
    s.Outstanding n got ∧ s.frameStart ≤ s.buf.segmentSize ∧
      s.buf.segmentSize ≤ s.buf.externalInputSize ∧
      s.buf.outputOffset + n ≤ s.frameStart + s.settings.readBufferSize
  | .prefixBytes len n got =>
    s.Outstanding n got ∧ s.FrameBegun ∧ s.PendingPrefixArg len n ∧
      s.buf.internalInputSize + n ≤ s.settings.readBufferSize
  | .readDelim delim ignore maximum =>
    s.FrameBegun ∧ delim ≠ [] ∧ maximum = s.settings.readBufferSize ∧
      ignore = s.settings.ignoreProtocol
  | .overrun => False

structure Inv (s : ReadState) : Prop where
  accounts : s.Accounts s.arrived
  control : s.ControlInv

variable {s : ReadState}

/-! ## Asynchronous reads and deliveries -/

theorem asyncRead_eq {n : ℕ} {c : Control} (h : s.buf.Valid 0) (hn : n ≤ maxSize) :
    s.asyncRead n c =
      if s.buf.outputOffset + n ≤ maxSize then { s with buf := s.buf.prepared n, control := c }
      else { s with control := .threw } := by
  rw [asyncRead]
  rw [TripleBuffer.prepareOutputBuffer_eq h hn]
  by_cases hm : s.buf.outputOffset + n ≤ maxSize
  · simp [hm, Region.Inside]
  · simp [hm]

theorem inv_threw (h : s.Accounts 0) : Inv { s with control := .threw } :=
  ⟨⟨h.valid, h.conserved, h.limit⟩, trivial⟩

theorem inv_check (h : s.Accounts 0) {ec : Errc} (hec : ec ≠ .notFound) : Inv (s.check ec) := by
  refine ⟨?_, trivial⟩
  have harr : (s.check ec).arrived = 0 := by
    cases ec <;> first | rfl | exact absurd rfl hec
  rw [harr]
  exact ⟨h.valid, h.conserved, h.limit⟩

/-- An asynchronous read into an empty output zone keeps what the buffer accounts for. -/
theorem inv_asyncRead {n : ℕ} {c : Control} (h : s.Accounts 0) (hn : n ≤ maxSize)
    (h₀ : ({ s with buf := s.buf.prepared n, control := c } : ReadState).arrived = 0)
    (hc : ({ s with buf := s.buf.prepared n, control := c } : ReadState).ControlInv) :
    Inv (s.asyncRead n c) := by
  rw [asyncRead_eq h.valid hn]
  split
  · refine ⟨?_, hc⟩
    rw [h₀]
    exact ⟨TripleBuffer.valid_prepared ‹_›,
      (TripleBuffer.stream_prepared h.valid n).trans h.conserved, h.limit⟩
  · exact inv_threw h

/-- Delivering a segment that starts at the mark. -/
theorem inv_deliver {b : TripleBuffer} {tail : ℕ} (hv : b.Valid 0)
    (hs : b.stream 0 = s.received) (hl : s.settings.readBufferSize ≤ maxSize)
    (hmark : s.frameStart ≤ b.segmentSize) (hle : b.segmentSize ≤ b.externalInputSize)
    (htail : tail ≤ b.internalInputSize)
    (hwithin : b.externalInputSize + tail ≤ s.frameStart + s.settings.readBufferSize) :
    Inv (s.deliver b tail) := by
  have hskip : min b.segmentSize b.externalInputSize = b.segmentSize := Nat.min_eq_left hle
  refine ⟨⟨hv.moveToNewExternalInputSegment, hs, hl⟩, ?_⟩
  constructor
  · simpa [deliver, TripleBuffer.moveToNewExternalInputSegment, hskip] using hmark
  · simp [deliver, TripleBuffer.moveToNewExternalInputSegment, hle]
  · simpa [deliver, TripleBuffer.moveToNewExternalInputSegment] using htail
  · simpa [deliver, TripleBuffer.moveToNewExternalInputSegment] using hwithin

/-- Committing `n` buffered bytes of the frame and delivering them. -/
theorem inv_deliver_commit {n : ℕ} (h : s.Accounts 0) (hmark : s.frameStart ≤ s.buf.segmentSize)
    (hle : s.buf.segmentSize ≤ s.buf.externalInputSize)
    (hwithin : s.buf.externalInputSize + n ≤ s.frameStart + s.settings.readBufferSize) :
    Inv (s.deliver (s.buf.commitToExternalInput n) 0) := by
  apply inv_deliver (h.valid.commitToExternalInput n)
    ((TripleBuffer.stream_commitToExternalInput _ _ _).trans h.conserved) h.limit
  · simpa using hmark
  · rw [TripleBuffer.commitToExternalInput_eq]
    exact hle.trans (Nat.le_add_right _ _)
  · exact Nat.zero_le _
  · rw [TripleBuffer.commitToExternalInput_eq]
    have := Nat.min_le_left n s.buf.internalInputSize
    simp only
    omega

theorem inv_readSome (h : s.Accounts 0) (hf : s.FrameBegun) :
    Inv (s.readSome s.settings.readBufferSize) := by
  rw [readSome]
  split
  · exact inv_deliver_commit h hf.mark.ge (hf.mark.trans hf.external.symm).le
      (by rw [hf.external])
  · have hzero : s.buf.internalInputSize = 0 := by omega
    refine inv_asyncRead h h.limit rfl ⟨⟨hf.external, hf.mark⟩, hzero, rfl, ?_⟩
    simp

theorem inv_readFixed {n : ℕ} (h : s.Accounts 0) (hmark : s.frameStart ≤ s.buf.segmentSize)
    (hle : s.buf.segmentSize ≤ s.buf.externalInputSize)
    (hwithin : s.buf.externalInputSize + n ≤ s.frameStart + s.settings.readBufferSize)
    (hn : n ≤ maxSize) : Inv (s.readFixed n) := by
  unfold readFixed
  simp only
  split
  · exact inv_deliver_commit h hmark hle hwithin
  · refine inv_asyncRead h (by omega) rfl ⟨⟨by omega, ?_⟩, hmark, hle, ?_⟩
    · simp
    · change s.buf.outputOffset + (n - s.buf.internalInputSize) ≤
        s.frameStart + s.settings.readBufferSize
      rw [TripleBuffer.outputOffset]
      omega

theorem inv_readDelim {delim : List Byte} (h : s.Accounts 0) (hf : s.FrameBegun) :
    Inv (s.readDelim delim) := by
  rw [readDelim]
  split
  · exact inv_readSome h hf
  · have hz := h.valid.zones
    have hfits := h.valid.fits
    rw [TripleBuffer.shrink_output h.valid]
    refine ⟨⟨?_, ?_, h.limit⟩, ⟨hf.external, hf.mark⟩, ‹_›, rfl, rfl⟩
    · constructor <;>
        simp only [arrived, TripleBuffer.outputBufferSize, TripleBuffer.outputOffset,
          List.length_take] at * <;> omega
    · rw [← h.conserved]
      simp only [arrived, TripleBuffer.stream, TripleBuffer.outputBufferSize,
        TripleBuffer.outputOffset, List.length_take, List.take_take] at *
      congr 2
      omega

/-! ## `read` -/

/-- What `read` does before it looks at the protocol: a frame begins after the external
input that is kept. -/
def beginFrame (s : ReadState) : ReadState :=
  let buf := if s.settings.doNotConsume then s.buf else s.buf.consumeWholeExternalInput
  { s with buf := buf.markCurrentExternalInput, frameStart := buf.externalInputSize }

theorem frameBegun_beginFrame (s : ReadState) : s.beginFrame.FrameBegun := ⟨rfl, rfl⟩

theorem accounts_beginFrame (h : s.Accounts 0) : s.beginFrame.Accounts 0 := by
  rw [beginFrame]
  split
  · exact ⟨⟨h.valid.zones, h.valid.fits⟩, h.conserved, h.limit⟩
  · have hv := h.valid.eraseFront (le_refl s.buf.externalInputSize)
    have hs := TripleBuffer.stream_eraseFront (b := s.buf) (k := 0) le_rfl
    rw [Nat.sub_self] at hv hs
    exact ⟨⟨hv.zones, hv.fits⟩, hs.trans h.conserved, h.limit⟩

theorem read_eq (s : ReadState) : s.read =
    match s.settings.protocol with
    | .none => { s.beginFrame with control := .idle }
    | .any => s.beginFrame.readSome s.settings.readBufferSize
    | .fixed => s.beginFrame.readFixed s.settings.readBufferSize
    | .delim => s.beginFrame.readDelim s.settings.delimiter
    | .delimZero => s.beginFrame.readDelim [0]
    | .delimCr => s.beginFrame.readDelim [13]
    | .delimLf => s.beginFrame.readDelim [10]
    | .delimCrlf => s.beginFrame.readDelim crlf
    | .prefix8 => { s.beginFrame with control := .readPrefix 1 }
    | .prefix16 => { s.beginFrame with control := .readPrefix 2 }
    | .prefix32 => { s.beginFrame with control := .readPrefix 4 }
    | .prefix64 => { s.beginFrame with control := .readPrefix 8 }
    | .prefixVar => { s.beginFrame with control := .readPrefix sizeMsb }
    | .other _ => s.beginFrame.check .protocolNotSupported := rfl

theorem inv_read (h : s.Accounts 0) : Inv s.read := by
  have ha := accounts_beginFrame h
  have hf := s.frameBegun_beginFrame
  have hset : s.beginFrame.settings = s.settings := rfl
  have hfield : ∀ len, s.beginFrame.PrefixArg len →
      Inv { s.beginFrame with control := .readPrefix len } :=
    fun len hl => ⟨⟨ha.valid, ha.conserved, ha.limit⟩, ⟨hf.external, hf.mark⟩, hl⟩
  rw [read_eq]
  cases hp : s.settings.protocol with
  | none => exact ⟨⟨ha.valid, ha.conserved, ha.limit⟩, trivial⟩
  | any => exact inv_readSome ha hf
  | fixed => exact inv_readFixed ha le_rfl le_rfl le_rfl ha.limit
  | delim => exact inv_readDelim ha hf
  | delimZero => exact inv_readDelim ha hf
  | delimCr => exact inv_readDelim ha hf
  | delimLf => exact inv_readDelim ha hf
  | delimCrlf => exact inv_readDelim ha hf
  | prefix8 => exact hfield 1 (.inl (by rw [hset, hp]; rfl))
  | prefix16 => exact hfield 2 (.inl (by rw [hset, hp]; rfl))
  | prefix32 => exact hfield 4 (.inl (by rw [hset, hp]; rfl))
  | prefix64 => exact hfield 8 (.inl (by rw [hset, hp]; rfl))
  | prefixVar => exact hfield sizeMsb (.inr ⟨hset ▸ hp, .inl rfl⟩)
  | other v => exact inv_check ha (by decide)

/-! ## `read_prefix` -/

/-- The bytes the current prefix takes, given the buffered ones. -/
def prefixNeed (s : ReadState) : ℕ := fieldSize s.settings s.buf.internalInput

/-- Whether the prefix is a varint. -/
def prefixVar (s : ReadState) : Bool := varField s.settings

/-- The 64-bit length field that `read_prefix` is about to decode exceeds the 64 bits
of its sum with the prefix length, and what is left of the sum passes the limit test. -/
def LengthOverflow (s : ReadState) : Prop :=
  s.control = .readPrefix 8 ∧ s.settings.protocol = .prefix64 ∧
    s.settings.includePrefix = false ∧ 8 ≤ s.buf.internalInput.length ∧
    2 ^ 64 ≤ fieldValue s.settings false (s.buf.internalInput.take 8) + 8 ∧
    fieldValue s.settings false (s.buf.internalInput.take 8) + 8 - 2 ^ 64 ≤
      s.settings.readBufferSize

instance : DecidablePred LengthOverflow := fun _ => inferInstanceAs (Decidable (_ ∧ _))

theorem parsePrefix_of_arg {len : ℕ} (h : s.PrefixArg len) :
    parsePrefix s.settings s.buf.internalInput len =
      if s.buf.internalInput.length < s.prefixNeed then
        if s.settings.readBufferSize < s.prefixNeed then .error .messageSize
        else .incomplete s.prefixNeed
      else parseField s.settings s.prefixVar s.buf.internalInput s.prefixNeed := by
  rw [prefixNeed, prefixVar, fieldSize, varField]
  rcases h with h | ⟨hp, h⟩
  · rw [parsePrefix_fixed h, h]
    rfl
  · have hnone : prefixSize s.settings.protocol = none := by rw [hp]; rfl
    rw [hnone]
    rcases h with rfl | ⟨rfl, hne, hc⟩
    · exact parsePrefix_var _ _
    · rw [parsePrefix_reenter hne hc]
      exact parsePrefix_var _ _

/-- A field that is accepted announces a frame whose length passed the modular test. -/
theorem parseField_body {st : Settings} {var : Bool} {p : List Byte} {n l d : ℕ}
    (hn : n ≤ p.length) (h : parseField st var p n = .body l d) :
    l = n ∧ n ≤ 8 + var.toNat ∧ d + n = fieldTotal st var (p.take n) ∧
      wrap (fieldTotal st var (p.take n)) ≤ st.readBufferSize := by
  by_cases hlong : 8 + var.toNat < n
  · rw [parseField_of_long hlong] at h
    exact absurd h (by simp)
  · have hle : n ≤ 8 + var.toNat := Nat.le_of_not_lt hlong
    rw [parseField_eq hn hle] at h
    by_cases hbad : st.includePrefix = true ∧ fieldValue st var (p.take n) < n
    · rw [if_pos hbad] at h
      exact absurd h (by simp)
    · rw [if_neg hbad] at h
      by_cases hlim : st.readBufferSize < wrap (fieldTotal st var (p.take n))
      · rw [if_pos hlim] at h
        exact absurd h (by simp)
      · rw [if_neg hlim] at h
        obtain ⟨rfl, rfl⟩ := PrefixResult.body.inj h
        refine ⟨rfl, hle, ?_, Nat.le_of_not_lt hlim⟩
        have hlen : (p.take n).length = n := List.length_take_of_le hn
        rw [fieldTotal] at *
        cases hi : st.includePrefix
        · simp [hlen]
        · simp only [hi, true_and, not_lt] at hbad
          simp [Nat.sub_add_cancel hbad]

theorem parseField_ne_incomplete {st : Settings} {var : Bool} {p : List Byte} {n m : ℕ}
    (hn : n ≤ p.length) : parseField st var p n ≠ .incomplete m := by
  by_cases hlong : 8 + var.toNat < n
  · simp [parseField_of_long hlong]
  · rw [parseField_eq hn (Nat.le_of_not_lt hlong)]
    split_ifs <;> simp

theorem parseField_ne_notFound {st : Settings} {var : Bool} {p : List Byte} {n : ℕ} {ec : Errc}
    (hn : n ≤ p.length) (h : parseField st var p n = .error ec) : ec ≠ .notFound := by
  rintro rfl
  by_cases hlong : 8 + var.toNat < n
  · simp [parseField_of_long hlong] at h
  · rw [parseField_eq hn (Nat.le_of_not_lt hlong)] at h
    split_ifs at h <;> simp at h

/-- Outside the overflowing case the accepted frame is within the limit as an integer. -/
theorem fieldTotal_le {len : ℕ} (hc : s.control = .readPrefix len) (h : s.PrefixArg len)
    (hn : s.prefixNeed ≤ s.buf.internalInput.length) (hle : s.prefixNeed ≤ 8 + s.prefixVar.toNat)
    (hno : ¬ s.LengthOverflow)
    (hw : wrap (fieldTotal s.settings s.prefixVar (s.buf.internalInput.take s.prefixNeed)) ≤
      s.settings.readBufferSize) :
    fieldTotal s.settings s.prefixVar (s.buf.internalInput.take s.prefixNeed) ≤
      s.settings.readBufferSize := by
  have hlen : (s.buf.internalInput.take s.prefixNeed).length = s.prefixNeed :=
    List.length_take_of_le hn
  by_cases hlt : fieldTotal s.settings s.prefixVar (s.buf.internalInput.take s.prefixNeed) < 2 ^ 64
  · rwa [wrap, Nat.mod_eq_of_lt hlt] at hw
  · exfalso
    -- only the 64-bit field without its own prefix reaches past 64 bits
    have hcase : s.prefixVar = false ∧ s.settings.includePrefix = false ∧ ¬ s.prefixNeed ≤ 7 := by
      refine ⟨?_, ?_, ?_⟩
      · by_contra hv
        exact hlt (fieldTotal_lt (by rw [hlen]; exact hle) (.inl (by simpa using hv)))
      · by_contra hi
        exact hlt (fieldTotal_lt (by rw [hlen]; exact hle) (.inr (.inl (by simpa using hi))))
      · intro h7
        exact hlt (fieldTotal_lt (by rw [hlen]; exact hle) (.inr (.inr (by rw [hlen]; exact h7))))
    obtain ⟨hv, hi, h7⟩ := hcase
    rw [hv] at hlt hw hle
    have h8 : s.prefixNeed = 8 := by simp only [Bool.toNat_false] at hle; omega
    have hp : s.settings.protocol = .prefix64 := by
      rw [prefixNeed, fieldSize] at h8
      rw [prefixVar, varField] at hv
      cases hpr : s.settings.protocol <;> simp_all [prefixSize]
    have hlen8 : len = 8 := by
      rcases h with h | ⟨hvar, -⟩
      · rw [hp] at h
        simpa [prefixSize, eq_comm] using h
      · rw [hp] at hvar
        exact absurd hvar (by simp)
    have hvlt := fieldValue_lt s.settings false (s.buf.internalInput.take s.prefixNeed)
    rw [hlen, h8] at hvlt
    have htotal : fieldTotal s.settings false (s.buf.internalInput.take s.prefixNeed) =
        fieldValue s.settings false (s.buf.internalInput.take 8) + 8 := by
      rw [fieldTotal, hi, hlen, h8]
      rfl
    rw [htotal] at hlt hw
    apply hno
    refine ⟨by rw [hc, hlen8], hp, hi, by rw [← h8]; exact hn, by omega, ?_⟩
    have hpow : (256 : ℕ) ^ 8 = 2 ^ 64 := by decide
    simp only [Bool.false_eq_true, if_false] at hvlt
    rw [wrap] at hw
    omega

/-- The state after the field has been committed, before its body is read. -/
def commitField (s : ReadState) (n : ℕ) : ReadState :=
  let buf := s.buf.commitToExternalInput n
  { s with buf := if s.settings.ignoreProtocol then buf.markCurrentExternalInput else buf }

theorem readPrefix_of_error {len : ℕ} {ec : Errc}
    (h : parsePrefix s.settings s.buf.internalInput len = .error ec) :
    s.readPrefix len = s.check ec := by
  simp only [readPrefix, h]

theorem readPrefix_of_incomplete {len n : ℕ}
    (h : parsePrefix s.settings s.buf.internalInput len = .incomplete n) :
    s.readPrefix len = s.asyncRead (n - s.buf.internalInput.length)
      (.prefixBytes (if sizeMsb ≤ len then n + sizeMsb else n)
        (n - s.buf.internalInput.length) 0) := by
  simp only [readPrefix, h]

theorem readPrefix_of_body {len n d : ℕ}
    (h : parsePrefix s.settings s.buf.internalInput len = .body n d) :
    s.readPrefix len = (s.commitField n).readFixed d := by
  simp only [readPrefix, h]
  rfl

/-- Where the zones and the mark are once the field is committed. -/
structure FieldCommitted (s t : ReadState) (n : ℕ) : Prop where
  accounts : t.Accounts 0
  external : t.buf.externalInputSize = s.frameStart + n
  mark : t.buf.segmentSize = s.frameStart + if s.settings.ignoreProtocol then n else 0

theorem fieldCommitted_commitField {n : ℕ} (h : s.Accounts 0) (hf : s.FrameBegun)
    (hn : n ≤ s.buf.internalInputSize) : FieldCommitted s (s.commitField n) n := by
  have hvalid := h.valid.commitToExternalInput n
  have hstream := (s.buf.stream_commitToExternalInput n 0).trans h.conserved
  have hext : (s.buf.commitToExternalInput n).externalInputSize = s.frameStart + n := by
    rw [TripleBuffer.commitToExternalInput_eq, Nat.min_eq_left hn, hf.external]
  rw [commitField]
  by_cases hi : s.settings.ignoreProtocol
  · simp only [hi, if_true]
    exact ⟨⟨⟨hvalid.zones, hvalid.fits⟩, hstream, h.limit⟩, hext, by rw [hi]; exact hext⟩
  · simp only [hi, Bool.false_eq_true, if_false]
    exact ⟨⟨hvalid, hstream, h.limit⟩, hext, by
      rw [if_neg hi]
      exact (s.buf.segmentSize_commitToExternalInput n).trans hf.mark⟩

/-- A read of the rest of a field is followed by a call with a matching argument. -/
theorem pendingPrefixArg_of_short {len : ℕ} (ha : s.PrefixArg len)
    (hneed : s.buf.internalInput.length < s.prefixNeed)
    (hlen : s.buf.internalInput.length = s.buf.internalInputSize) :
    s.PendingPrefixArg (if sizeMsb ≤ len then s.prefixNeed + sizeMsb else s.prefixNeed)
      (s.prefixNeed - s.buf.internalInput.length) := by
  rw [prefixNeed, fieldSize] at *
  rcases ha with ha | ⟨hp, ha⟩
  · have hb := prefixSize_bounds ha
    left
    simp only [ha, Option.getD_some] at *
    rw [if_neg (by rw [sizeMsb]; omega)]
    exact ⟨rfl, by omega⟩
  · right
    have hnone : prefixSize s.settings.protocol = none := by rw [hp]; rfl
    have hmsb : sizeMsb ≤ len := by
      rcases ha with rfl | ⟨rfl, -⟩
      · exact le_rfl
      · exact Nat.le_add_left _ _
    simp only [hnone, Option.getD_none] at *
    -- every buffered byte of the varint has its continuation bit set
    have htw : (s.buf.internalInput.takeWhile continues).length =
        s.buf.internalInput.length := by
      have := (List.takeWhile_prefix (l := s.buf.internalInput) continues).length_le
      rw [varintLength] at hneed
      omega
    refine ⟨hp, ?_, ?_, ?_⟩
    · rw [varintLength]
      omega
    · rw [if_pos hmsb]
      rw [varintLength]
      omega
    · rw [← (List.takeWhile_prefix (l := s.buf.internalInput) continues).eq_of_length htw]
      exact fun c hc => List.mem_takeWhile_imp hc

theorem inv_readPrefix {len : ℕ} (hc : s.control = .readPrefix len) (h : s.Accounts 0)
    (hf : s.FrameBegun) (ha : s.PrefixArg len) (hno : ¬ s.LengthOverflow) :
    Inv (s.readPrefix len) := by
  have hlen : s.buf.internalInput.length = s.buf.internalInputSize :=
    TripleBuffer.length_internalInput h.valid.zones
  have hparse := parsePrefix_of_arg ha
  by_cases hneed : s.buf.internalInput.length < s.prefixNeed
  · rw [if_pos hneed] at hparse
    by_cases hlim : s.settings.readBufferSize < s.prefixNeed
    · rw [if_pos hlim] at hparse
      rw [readPrefix_of_error hparse]
      exact inv_check h (by decide)
    · rw [if_neg hlim] at hparse
      have hmax := h.limit
      rw [readPrefix_of_incomplete hparse]
      refine inv_asyncRead h (by omega) rfl ⟨⟨by omega, by simp⟩, ⟨hf.external, hf.mark⟩, ?_, ?_⟩
      · have hpend := pendingPrefixArg_of_short ha hneed hlen
        have hint : (s.buf.prepared (s.prefixNeed - s.buf.internalInput.length)).internalInput =
            s.buf.internalInput := by
          have ht := TripleBuffer.take_prepared h.valid (s.prefixNeed - s.buf.internalInput.length)
          have hd := congrArg (List.drop s.buf.externalInputSize) ht
          simp only [TripleBuffer.outputOffset, List.drop_take, Nat.add_sub_cancel_left] at hd
          exact hd
        rw [PendingPrefixArg] at hpend ⊢
        simp only [hint]
        exact hpend
      · change s.buf.internalInputSize + (s.prefixNeed - s.buf.internalInput.length) ≤
          s.settings.readBufferSize
        omega
  · rw [if_neg hneed] at hparse
    have hle := Nat.le_of_not_lt hneed
    cases hres : parseField s.settings s.prefixVar s.buf.internalInput s.prefixNeed with
    | error ec =>
        rw [readPrefix_of_error (hparse.trans hres)]
        exact inv_check h (parseField_ne_notFound hle hres)
    | incomplete n => exact absurd hres (parseField_ne_incomplete hle)
    | body l d =>
        obtain ⟨rfl, h8, htotal, hw⟩ := parseField_body hle hres
        have hwithin := fieldTotal_le hc ha hle h8 hno hw
        have hmax := h.limit
        obtain ⟨hacc, hext, hmark⟩ := fieldCommitted_commitField h hf (n := s.prefixNeed) (by omega)
        rw [readPrefix_of_body (hparse.trans hres)]
        refine inv_readFixed hacc ?_ ?_ ?_ (by omega)
        · rw [hmark]
          exact Nat.le_add_right _ _
        · rw [hmark, hext]
          split <;> omega
        · change (s.commitField s.prefixNeed).buf.externalInputSize + d ≤
            s.frameStart + s.settings.readBufferSize
          omega

/-! ## Callbacks -/

theorem accounts_commitWhole {b : TripleBuffer} {k : ℕ} (hv : b.Valid k) :
    (b.commitToInternalInput k).commitWholeInternalInput.Valid 0 ∧
      (b.commitToInternalInput k).commitWholeInternalInput.stream 0 = b.stream k := by
  have hc := hv.commitToInternalInput
  refine ⟨⟨?_, hc.fits⟩, ?_⟩
  · simpa [TripleBuffer.commitWholeInternalInput, TripleBuffer.outputOffset] using hc.zones
  · rw [← TripleBuffer.stream_commitToInternalInput hv]
    simp [TripleBuffer.commitWholeInternalInput, TripleBuffer.outputOffset, TripleBuffer.stream]

/-- A complete read whose bytes are all committed delivers the rest of the frame. -/
theorem inv_deliver_whole {b : TripleBuffer} {k : ℕ} (hv : b.Valid k)
    (hs : b.stream k = s.received) (hl : s.settings.readBufferSize ≤ maxSize)
    (hmark : s.frameStart ≤ b.segmentSize) (hle : b.segmentSize ≤ b.externalInputSize)
    (hwithin : b.outputOffset + k ≤ s.frameStart + s.settings.readBufferSize) :
    Inv (s.deliver (b.commitToInternalInput k).commitWholeInternalInput 0) := by
  obtain ⟨hv', hs'⟩ := accounts_commitWhole hv
  have heq := TripleBuffer.commitToInternalInput_eq hv
  refine inv_deliver hv' (hs'.trans hs) hl ?_ ?_ (Nat.zero_le _) ?_
  · rw [heq]
    exact hmark
  · rw [heq]
    exact hle.trans (Nat.le_add_right _ _)
  · rw [heq]
    simp only [TripleBuffer.commitWholeInternalInput]
    rw [TripleBuffer.outputOffset] at hwithin
    omega

/-- A dynamic buffer that is not full grows by what it still has room for, right after
the bytes it holds. -/
theorem dynamicGrow_eq {b : TripleBuffer} {maximum asked : ℕ} (hv : b.Valid 0)
    (hlt : b.dynamicSize maximum < b.dynamicMaxSize maximum)
    (hasked : asked ≤ b.dynamicMaxSize maximum - b.dynamicSize maximum) :
    b.dynamicGrow maximum asked =
        some { b with storage := b.storage ++ List.replicate asked 0 } ∧
      b.externalInputSize + b.dynamicSize maximum = b.storage.length := by
  have hz := hv.zones
  rw [TripleBuffer.outputOffset] at hz
  have hsize : b.dynamicSize maximum = b.storage.length - b.externalInputSize := by
    rw [TripleBuffer.dynamicSize] at hlt ⊢
    omega
  have hfits : b.storage.length + asked ≤ maxSize := by
    rw [TripleBuffer.dynamicMaxSize] at hasked hlt
    omega
  have hwrap : wrap (b.storage.length + asked) = b.storage.length + asked := by
    rw [maxSize] at hfits
    exact Nat.mod_eq_of_lt (by omega)
  refine ⟨?_, by omega⟩
  rw [TripleBuffer.dynamicGrow, if_neg (by omega), TripleBuffer.growOutputBuffer, hwrap,
    TripleBuffer.resize_of_le hfits]
  simp

/-- Storing bytes in the grown zone and shrinking it again appends them. -/
theorem grow_fill_shrink {b : TripleBuffer} {asked : ℕ} {bytes : List Byte}
    (hz : b.outputOffset ≤ b.storage.length) :
    (({ b with storage := b.storage ++ List.replicate asked 0 } : TripleBuffer).fill
      b.storage.length bytes).dynamicShrink (asked - bytes.length) =
        { b with storage := b.storage ++ bytes } := by
  rw [TripleBuffer.outputOffset] at hz
  simp only [TripleBuffer.fill, List.take_left, TripleBuffer.dynamicShrink,
    TripleBuffer.shrinkOutputBuffer, TripleBuffer.outputBufferSize, TripleBuffer.outputOffset,
    TripleBuffer.mk.injEq, and_true]
  rw [List.drop_append, List.drop_eq_nil_of_le (by omega), List.nil_append,
    Nat.add_sub_cancel_left, List.drop_replicate]
  simp only [List.length_append, List.length_replicate]
  rw [Nat.min_eq_left (by omega), show b.storage.length + bytes.length +
    (asked - bytes.length) - (asked - bytes.length) = (b.storage ++ bytes).length by
      simp only [List.length_append]; omega]
  exact List.take_left

theorem inv_receive_delim {delim : List Byte} {ignore : Bool} {maximum asked : ℕ}
    {bytes : List Byte} (hc : s.control = .readDelim delim ignore maximum)
    (h : s.Inv) (hlen : bytes.length ≤ asked) (hasked : asked ≤ s.room) (hne : bytes ≠ []) :
    s.receive asked bytes = { s with
      buf := { s.buf with storage := s.buf.storage ++ bytes }
      received := s.received ++ bytes } ∧ Inv (s.receive asked bytes) := by
  obtain ⟨ha, hci⟩ := h
  have hpos : 0 < bytes.length := List.length_pos_iff.mpr hne
  have hroom : asked ≤ s.buf.dynamicMaxSize maximum - s.buf.dynamicSize maximum := by
    rw [room] at hasked
    simp only [hc] at hasked
    split at hasked <;> omega
  have harr : s.arrived = s.buf.outputBufferSize := by simp [arrived, hc]
  have hz : s.buf.outputOffset ≤ s.buf.storage.length := by
    have := ha.valid.zones
    omega
  have hv0 : s.buf.Valid 0 := ⟨hz, ha.valid.fits⟩
  obtain ⟨hgrow, hoff⟩ := dynamicGrow_eq hv0 (by omega) hroom
  have heq : s.receive asked bytes = { s with
      buf := { s.buf with storage := s.buf.storage ++ bytes }
      received := s.received ++ bytes } := by
    rw [receive]
    simp only [hc, hgrow, hoff, grow_fill_shrink hz]
  refine ⟨heq, ?_⟩
  have hstream := ha.conserved
  have hfit : s.buf.storage.length + bytes.length ≤ maxSize := by
    have hmx := Nat.min_le_left (maxSize - s.buf.externalInputSize) maximum
    rw [TripleBuffer.outputOffset] at hz
    rw [TripleBuffer.dynamicSize, TripleBuffer.dynamicMaxSize] at hroom
    omega
  rw [heq]
  rw [ControlInv] at hci
  simp only [hc] at hci
  refine ⟨⟨⟨?_, ?_⟩, ?_, ha.limit⟩, ?_⟩
  · simp only [arrived, hc, TripleBuffer.outputBufferSize, TripleBuffer.outputOffset,
      List.length_append] at *
    omega
  · simpa using hfit
  · rw [harr] at hstream
    simp only [arrived, hc, TripleBuffer.stream, TripleBuffer.outputBufferSize] at hstream ⊢
    rw [← hstream]
    rw [TripleBuffer.outputOffset] at *
    rw [List.take_of_length_le (by simp only [List.length_append]; omega),
      List.take_of_length_le (by omega), List.append_assoc]
  · rw [ControlInv]
    simp only [hc]
    exact ⟨⟨hci.1.external, hci.1.mark⟩, hci.2⟩

/-- The callback of a delimiter read commits the whole output zone. -/
theorem inv_completeUntil {delim : List Byte} {ignore : Bool} {maximum : ℕ} {t : ReadState}
    (hc : s.control = .readDelim delim ignore maximum) (h : s.Inv)
    (ht : s.completeUntil delim ignore maximum = some t) : Inv t := by
  obtain ⟨ha, hci⟩ := h
  rw [ControlInv] at hci
  simp only [hc] at hci
  obtain ⟨hf, -, rfl, rfl⟩ := hci
  have harr : s.arrived = s.buf.outputBufferSize := by simp [arrived, hc]
  rw [harr] at ha
  have hv := ha.valid
  rw [completeUntil] at ht
  cases hfind : firstEnd delim (s.buf.dynamicData s.settings.readBufferSize) with
  | none =>
      simp only [hfind] at ht
      split at ht
      · obtain rfl := Option.some.inj ht
        exact ⟨⟨hv, ha.conserved, ha.limit⟩, trivial⟩
      · exact absurd ht (by simp)
  | some pos =>
      simp only [hfind] at ht
      obtain rfl := Option.some.inj ht
      have hb := firstEnd_bounds hfind
      have htail : delim.length * s.settings.ignoreProtocol.toNat ≤ delim.length := by
        cases s.settings.ignoreProtocol <;> simp
      have hpos : pos ≤ s.buf.storage.length - s.buf.externalInputSize ∧
          pos ≤ s.settings.readBufferSize := by
        have hle := hb.2
        rw [TripleBuffer.dynamicData, TripleBuffer.dynamicSize, TripleBuffer.dynamicMaxSize] at hle
        simp only [List.length_take, List.length_drop] at hle
        omega
      have hzones := hv.zones
      rw [TripleBuffer.outputBufferSize, TripleBuffer.outputOffset] at hzones
      have heq := TripleBuffer.commitToInternalInput_eq hv
      have hext := hf.external
      apply inv_deliver (hv.commitToInternalInput.commitToExternalInput _)
      · rw [TripleBuffer.stream_commitToExternalInput, TripleBuffer.stream_commitToInternalInput hv,
          ha.conserved]
      · exact ha.limit
      · rw [heq]
        simpa using hf.mark.ge
      all_goals
        rw [heq, TripleBuffer.commitToExternalInput_eq]
        simp only [TripleBuffer.outputBufferSize, TripleBuffer.outputOffset, hf.mark]
        omega

/-- There is room for what an outstanding read lacks. -/
theorem Outstanding.room_le {n got : ℕ} {bytes : List Byte} (ho : s.Outstanding n got)
    (hlen : bytes.length ≤ n - got) :
    s.buf.outputOffset + got + bytes.length ≤ s.buf.storage.length := by
  have hin := ho.inside
  have hgot := ho.got_lt
  omega

/-- The read goes on if bytes are still lacking. -/
theorem Outstanding.fill {n got : ℕ} {bytes : List Byte} {t : ReadState}
    (ho : s.Outstanding n got) (hlen : bytes.length ≤ n - got) (hmore : got + bytes.length ≠ n)
    (ht : t.buf = s.buf.fill (s.buf.outputOffset + got) bytes) :
    t.Outstanding n (got + bytes.length) := by
  have hgot := ho.got_lt
  refine ⟨by omega, ?_⟩
  rw [ht, TripleBuffer.length_fill (ho.room_le hlen)]
  exact ho.inside

/-- With the last bytes asked for, `read_prefix` is called with its next argument. -/
theorem PendingPrefixArg.prefixArg {len n got : ℕ} {bytes : List Byte} {t : ReadState}
    (hpend : s.PendingPrefixArg len n) (ha : s.Accounts got) (ho : s.Outstanding n got)
    (hdone : got + bytes.length = n) (hsettings : t.settings = s.settings)
    (ht : t.buf = (s.buf.fill (s.buf.outputOffset + got) bytes).commitToInternalInput n) :
    t.PrefixArg len := by
  rw [PrefixArg, hsettings, ht]
  rcases hpend with ⟨hp, -⟩ | ⟨hp, rfl, rfl, hcont⟩
  · exact .inl hp
  · -- the flag comes with exactly one new byte after continuation bytes
    have hgot := ho.got_lt
    have hfill : s.buf.outputOffset + got + bytes.length ≤ s.buf.storage.length :=
      ho.room_le (by omega)
    have hv := (ha.fill hfill).1
    rw [hdone] at hv
    obtain rfl : got = 0 := by omega
    obtain ⟨c, rfl⟩ : ∃ c, bytes = [c] := List.length_eq_one_iff.mp (by omega)
    have hint := TripleBuffer.internalInput_commitToInternalInput hv
    have hinput := TripleBuffer.input_fill hfill
    rw [← TripleBuffer.internalInput_eq_input] at hinput
    simp only [Nat.add_zero, Nat.zero_add, List.length_singleton] at hint hinput
    rw [hinput] at hint
    have hsize : s.buf.internalInput.length = s.buf.internalInputSize :=
      TripleBuffer.length_internalInput ha.valid.zones
    refine .inr ⟨hp, .inr ?_⟩
    simp only [Nat.add_zero, hint]
    refine ⟨?_, by simp, ?_⟩
    · simp only [List.length_append, List.length_singleton, hsize]
    · rw [List.dropLast_concat]
      exact hcont

theorem inv_receive_fixed {n got asked : ℕ} {bytes : List Byte} (hc : s.control = .readFixed n got)
    (h : s.Inv) (hlen : bytes.length ≤ n - got) : Inv (s.receive asked bytes) := by
  obtain ⟨ha, hci⟩ := h
  simp only [arrived, ControlInv, hc] at ha hci
  obtain ⟨ho, hmark, hle, hwithin⟩ := hci
  obtain ⟨hv, hs⟩ := ha.fill (ho.room_le hlen)
  simp only [receive, hc]
  split
  · rename_i hdone
    rw [hdone] at hv hs
    exact inv_deliver_whole hv hs ha.limit hmark hle hwithin
  · rename_i hmore
    exact ⟨⟨hv, hs, ha.limit⟩, ho.fill hlen hmore rfl, hmark, hle, hwithin⟩

theorem inv_receive_prefix {len n got asked : ℕ} {bytes : List Byte}
    (hc : s.control = .prefixBytes len n got) (h : s.Inv) (hlen : bytes.length ≤ n - got) :
    Inv (s.receive asked bytes) := by
  obtain ⟨ha, hci⟩ := h
  simp only [arrived, ControlInv, hc] at ha hci
  obtain ⟨ho, hf, hpend, hwithin⟩ := hci
  have hfill := ho.room_le hlen
  obtain ⟨hv, hs⟩ := ha.fill hfill
  simp only [receive, hc]
  split
  · rename_i hdone
    rw [hdone] at hv hs
    have hvc := hv.commitToInternalInput
    have hsc := TripleBuffer.stream_commitToInternalInput hv
    refine ⟨⟨hvc, hsc.trans hs, ha.limit⟩, ?_, hpend.prefixArg ha ho hdone rfl rfl⟩
    rw [TripleBuffer.commitToInternalInput_eq hv]
    exact ⟨hf.external, hf.mark⟩
  · rename_i hmore
    refine ⟨⟨hv, hs, ha.limit⟩, ho.fill hlen hmore rfl, ⟨hf.external, hf.mark⟩, ?_, hwithin⟩
    rw [PendingPrefixArg] at hpend ⊢
    simp only [TripleBuffer.internalInput_fill hfill]
    exact hpend

/-- The socket's bytes reach the outstanding read. -/
theorem inv_receive {asked : ℕ} {bytes : List Byte} (h : s.Inv) (hlen : bytes.length ≤ asked)
    (hasked : asked ≤ s.room) (hne : bytes = [] → s.control = .readSome 0) :
    Inv (s.receive asked bytes) := by
  cases hc : s.control with
  | readSome n =>
      obtain ⟨ha, hci⟩ := h
      have hn : asked ≤ n := by simpa [room, hc] using hasked
      simp only [arrived, ControlInv, hc] at ha hci
      obtain ⟨hf, hzero, rfl, hin⟩ := hci
      have hfill : s.buf.outputOffset + 0 + bytes.length ≤ s.buf.storage.length := by omega
      obtain ⟨hv, hs⟩ := ha.fill hfill
      simp only [Nat.add_zero, Nat.zero_add] at hv hs
      simp only [receive, hc]
      refine inv_deliver_whole hv hs ha.limit hf.mark.ge (hf.mark.trans hf.external.symm).le ?_
      have hext := hf.external
      change s.buf.externalInputSize + s.buf.internalInputSize + bytes.length ≤
        s.frameStart + s.settings.readBufferSize
      omega
  | readFixed n got =>
      have hn : asked ≤ n - got := by simpa [room, hc] using hasked
      exact inv_receive_fixed hc h (hlen.trans hn)
  | prefixBytes len n got =>
      have hn : asked ≤ n - got := by simpa [room, hc] using hasked
      exact inv_receive_prefix hc h (hlen.trans hn)
  | readDelim delim ignore maximum =>
      have hne' : bytes ≠ [] := by
        intro h
        have := hne h
        rw [hc] at this
        exact absurd this (by simp)
      exact (inv_receive_delim hc h hlen hasked hne').2
  | read | readPrefix len | upcall tail | idle | failed ec | threw | overrun =>
      simp only [receive, hc]
      exact h

theorem inv_handlerRead {h : ReadHandler} (tail : ℕ) (ha : s.Accounts 0)
    (hh : ∀ segments, (h segments).settings.readBufferSize ≤ maxSize) :
    Inv (s.handlerRead h tail) := by
  have hc := TripleBuffer.consumed_foldl (h (s.delivered ++ [s.buf.segment])).consumes ha.valid
  refine ⟨⟨hc.valid.commitToExternalInput _, ?_, hh _⟩, trivial⟩
  exact (TripleBuffer.stream_commitToExternalInput _ _ _).trans (hc.stream.trans ha.conserved)

/-! ## Steps -/

/-- Everything a step can be. -/
inductive StepCase (h : ReadHandler) (s : ReadState) : ReadEvent → ReadState → Prop where
  | read : s.control = .read → StepCase h s .run s.read
  | readPrefix {len} : s.control = .readPrefix len → StepCase h s .run (s.readPrefix len)
  | completeUntil {delim ignore maximum t} : s.control = .readDelim delim ignore maximum →
      s.completeUntil delim ignore maximum = some t → StepCase h s .run t
  | upcall {tail} : s.control = .upcall tail → StepCase h s .upcall (s.handlerRead h tail)
  | receive {asked bytes} : s.waiting = true → bytes.length ≤ asked → asked ≤ s.room →
      (bytes = [] → s.control = .readSome 0) →
      StepCase h s (.receive asked bytes) (s.receive asked bytes)

theorem step_cases {h : ReadHandler} {e : ReadEvent} {t : ReadState}
    (ht : s.step h e = some t) : StepCase h s e t := by
  cases e with
  | run =>
      cases hc : s.control <;> simp only [step, hc, reduceCtorEq, Option.some.injEq] at ht
      case read =>
        subst ht
        exact .read hc
      case readPrefix len =>
        subst ht
        exact .readPrefix hc
      case readDelim delim ignore maximum => exact .completeUntil hc ht
  | upcall =>
      cases hc : s.control <;> simp only [step, hc, reduceCtorEq, Option.some.injEq] at ht
      subst ht
      exact .upcall hc
  | receive asked bytes =>
      simp only [step] at ht
      split at ht
      · obtain rfl := Option.some.inj ht
        rename_i hg
        exact .receive hg.1 hg.2.1 hg.2.2.1 hg.2.2.2
      · exact absurd ht (by simp)

/-- Outside the overflowing case every step keeps the invariant. -/
theorem inv_step {h : ReadHandler} {e : ReadEvent} {t : ReadState}
    (hh : ∀ segments, (h segments).settings.readBufferSize ≤ maxSize) (hs : s.Inv)
    (hno : ¬ s.LengthOverflow) (ht : s.step h e = some t) : Inv t := by
  obtain ⟨ha, hci⟩ := id hs
  cases step_cases ht with
  | read hc =>
      simp only [arrived, hc] at ha
      exact inv_read ha
  | readPrefix hc =>
      simp only [arrived, ControlInv, hc] at ha hci
      exact inv_readPrefix hc ha hci.1 hci.2 hno
  | completeUntil hc hu => exact inv_completeUntil hc hs hu
  | upcall hc =>
      simp only [arrived, hc] at ha
      exact inv_handlerRead _ ha hh
  | receive _ hlen hasked hne => exact inv_receive hs hlen hasked hne

end ReadState

theorem inv_initial {h : ReadHandler}
    (hh : ∀ segments, (h segments).settings.readBufferSize ≤ maxSize) :
    (ReadState.initial h).Inv :=
  ⟨⟨⟨le_rfl, Nat.zero_le _⟩, rfl, hh []⟩, trivial⟩

/-- The runs in which no decoded length field overflows. -/
def boundedReadSystem (h : ReadHandler) : TransitionSystem ReadState ReadEvent :=
  (readSystem h).restrict fun s _ => ¬ s.LengthOverflow

theorem boundedReadSystem_inv {h : ReadHandler} {s : ReadState}
    (hh : ∀ segments, (h segments).settings.readBufferSize ≤ maxSize)
    (hs : (boundedReadSystem h).Reachable s) : s.Inv := by
  apply hs.invariant
  · rintro s rfl
    exact inv_initial hh
  · intro s e t hi ht
    exact ReadState.inv_step hh hi ht.1 ht.2

end Minapp
