import Minapp.Verification.Receive.Invariant

/-! # The read limit

A frame, its prefix included, stays within `read_buffer_size_` in every run in which
no 64-bit length field overflows the sum with its own prefix; a step that decodes
such a field hands the socket a region outside the storage. -/

namespace Minapp

namespace ReadState

/-- The frame in the making is within the limit, and the regions given to the socket
lie inside the storage. -/
structure WithinLimit (s : ReadState) : Prop where
  some_le : ∀ n, s.control = .readSome n →
    s.buf.outputOffset + n ≤ s.frameStart + s.settings.readBufferSize
  body_le : ∀ n got, s.control = .readFixed n got →
    s.buf.outputOffset + n ≤ s.frameStart + s.settings.readBufferSize
  prefix_le : ∀ len n got, s.control = .prefixBytes len n got →
    s.buf.outputOffset + n ≤ s.frameStart + s.settings.readBufferSize
  commit_le : ∀ tail, s.control = .upcall tail →
    s.buf.externalInputSize + tail ≤ s.frameStart + s.settings.readBufferSize
  inside : ∀ n, (s.control = .readSome n ∨ (∃ got, s.control = .readFixed n got) ∨
      ∃ len got, s.control = .prefixBytes len n got) →
    Region.Inside ⟨s.buf.outputOffset, n⟩ s.buf.storage
  until_inside : ∀ delim ignore maximum asked, s.control = .readDelim delim ignore maximum →
    0 < asked → asked ≤ s.room → ∃ grown, s.buf.dynamicGrow maximum asked = some grown ∧
      s.buf.dynamicSize maximum + asked ≤ s.settings.readBufferSize ∧
      Region.Inside ⟨s.buf.externalInputSize + s.buf.dynamicSize maximum, asked⟩ grown.storage
  fits : s.buf.storage.length ≤ maxSize
  no_overrun : s.control ≠ .overrun

variable {s : ReadState}

/-- Growing the dynamic buffer makes room for everything that was asked for. -/
theorem grow_inside {delim : List Byte} {ignore : Bool} {maximum asked : ℕ}
    (hc : s.control = .readDelim delim ignore maximum) (h : s.Inv) (hpos : 0 < asked)
    (hasked : asked ≤ s.room) : ∃ grown, s.buf.dynamicGrow maximum asked = some grown ∧
      s.buf.dynamicSize maximum + asked ≤ s.settings.readBufferSize ∧
      Region.Inside ⟨s.buf.externalInputSize + s.buf.dynamicSize maximum, asked⟩ grown.storage := by
  obtain ⟨ha, hci⟩ := h
  simp only [ControlInv, hc] at hci
  obtain ⟨-, -, rfl, -⟩ := hci
  have hroom : asked ≤ s.buf.dynamicMaxSize s.settings.readBufferSize -
      s.buf.dynamicSize s.settings.readBufferSize := by
    simp only [room, hc] at hasked
    split at hasked <;> omega
  have hz := ha.valid.zones
  have hle : s.buf.dynamicMaxSize s.settings.readBufferSize ≤ s.settings.readBufferSize :=
    Nat.min_le_right _ _
  obtain ⟨hgrow, hoff⟩ := dynamicGrow_eq ⟨by omega, ha.valid.fits⟩ (by omega) hroom
  refine ⟨_, hgrow, by omega, ?_⟩
  simp [Region.Inside, hoff]

theorem Inv.withinLimit (h : s.Inv) : s.WithinLimit := by
  obtain ⟨ha, hci⟩ := id h
  refine ⟨?_, ?_, ?_, ?_, ?_, ?_, ha.valid.fits, ?_⟩
  · intro n hc
    simp only [ControlInv, hc] at hci
    obtain ⟨hf, hzero, rfl, -⟩ := hci
    rw [TripleBuffer.outputOffset, hf.external, hzero, Nat.add_zero]
  · intro n got hc
    simp only [ControlInv, hc] at hci
    exact hci.2.2.2
  · intro len n got hc
    simp only [ControlInv, hc] at hci
    have hext := hci.2.1.external
    have hle := hci.2.2.2
    rw [TripleBuffer.outputOffset]
    omega
  · intro tail hc
    simp only [ControlInv, hc] at hci
    exact hci.within
  · rintro n (hc | ⟨got, hc⟩ | ⟨len, got, hc⟩)
    · simp only [ControlInv, hc] at hci
      exact hci.2.2.2
    · simp only [ControlInv, hc] at hci
      exact hci.1.inside
    · simp only [ControlInv, hc] at hci
      exact hci.1.inside
  · intro delim ignore maximum asked hc hpos hasked
    exact grow_inside hc h hpos hasked
  · intro hc
    simp only [ControlInv, hc] at hci

/-! ## The overflowing field -/

theorem prefixNeed_of_prefix64 (hp : s.settings.protocol = .prefix64) :
    s.prefixNeed = 8 ∧ s.prefixVar = false := by
  simp [prefixNeed, prefixVar, fieldSize, varField, hp, prefixSize]

/-- A field whose sum with its prefix wraps below the limit is accepted as it stands. -/
theorem parsePrefix_overflow (hno : s.LengthOverflow) :
    parsePrefix s.settings s.buf.internalInput 8 =
      .body 8 (fieldValue s.settings false (s.buf.internalInput.take 8)) := by
  obtain ⟨-, hp, hi, hlen, hover, hlim⟩ := hno
  have harg : s.PrefixArg 8 := .inl (by rw [hp]; rfl)
  obtain ⟨hneed, hvar⟩ := prefixNeed_of_prefix64 hp
  have htake : (s.buf.internalInput.take 8).length = 8 := List.length_take_of_le hlen
  have hlt := fieldValue_lt s.settings false (s.buf.internalInput.take 8)
  have hpow : (256 : ℕ) ^ 8 = 2 ^ 64 := by decide
  simp only [htake, Bool.false_eq_true, if_false] at hlt
  have htotal : fieldTotal s.settings false (s.buf.internalInput.take 8) =
      fieldValue s.settings false (s.buf.internalInput.take 8) + 8 := by
    rw [fieldTotal, hi, htake]
    rfl
  rw [parsePrefix_of_arg harg, hneed, hvar, if_neg (Nat.not_lt.mpr hlen),
    parseField_eq hlen (by decide), htotal, if_neg (by simp [hi]), if_neg, Nat.add_sub_cancel]
  rw [wrap]
  omega

/-- The session then resizes the storage to less than what it holds, and gives the
socket a region that reaches beyond it. -/
theorem readPrefix_overflow (h : s.Accounts 0) (hno : s.LengthOverflow) :
    (s.readPrefix 8).control = .overrun := by
  have hparse := parsePrefix_overflow hno
  obtain ⟨-, -, -, hlen, hover, -⟩ := hno
  have hint : s.buf.internalInput.length = s.buf.internalInputSize :=
    TripleBuffer.length_internalInput h.valid.zones
  have hlt := fieldValue_lt s.settings false (s.buf.internalInput.take 8)
  have hpow : (256 : ℕ) ^ 8 = 2 ^ 64 := by decide
  simp only [List.length_take_of_le hlen, Bool.false_eq_true, if_false] at hlt
  have hz := h.valid.zones
  have hf := h.valid.fits
  rw [maxSize] at hf
  rw [TripleBuffer.outputOffset] at hz
  -- whichever mark is set, what follows only reads the committed zone sizes
  have hoverrun : ∀ b : TripleBuffer,
      b.externalInputSize = s.buf.externalInputSize + 8 →
      b.internalInputSize = s.buf.internalInputSize - 8 →
      (({ s with buf := b } : ReadState).readFixed
        (fieldValue s.settings false (s.buf.internalInput.take 8))).control = .overrun := by
    intro b hext hin
    have hresize : wrap (b.outputOffset + (fieldValue s.settings false
        (s.buf.internalInput.take 8) - b.internalInputSize)) =
          b.externalInputSize + fieldValue s.settings false (s.buf.internalInput.take 8) -
            2 ^ 64 := by
      rw [wrap, TripleBuffer.outputOffset]
      omega
    rw [readFixed]
    simp only
    rw [if_neg (by omega)]
    rw [asyncRead, TripleBuffer.prepareOutputBuffer]
    simp only
    rw [hresize, TripleBuffer.resize_of_le (by rw [maxSize]; omega)]
    simp only [Option.map_some, Region.Inside, TripleBuffer.length_resized]
    rw [if_neg]
    rw [TripleBuffer.outputOffset]
    omega
  rw [readPrefix]
  simp only [hparse]
  have hcommit := TripleBuffer.commitToExternalInput_eq s.buf 8
  rw [Nat.min_eq_left (by omega)] at hcommit
  split
  · exact hoverrun _ (by rw [hcommit]; rfl) (by rw [hcommit]; rfl)
  · exact hoverrun _ (by rw [hcommit]) (by rw [hcommit])

/-- `read_prefix` accepts a frame within the limit exactly when the field does not overflow. -/
theorem body_le_iff {len l d : ℕ} (hlim : s.settings.readBufferSize ≤ maxSize)
    (hc : s.control = .readPrefix len) (ha : s.PrefixArg len)
    (hbody : parsePrefix s.settings s.buf.internalInput len = .body l d) :
    l + d ≤ s.settings.readBufferSize ↔ ¬ s.LengthOverflow := by
  constructor
  · intro hle hno
    have hlen : len = 8 := by
      have := hno.1
      rw [hc] at this
      exact Control.readPrefix.inj this
    subst hlen
    rw [parsePrefix_overflow hno] at hbody
    obtain ⟨rfl, rfl⟩ := PrefixResult.body.inj hbody
    have hover := hno.2.2.2.2
    have hlt := fieldValue_lt s.settings false (s.buf.internalInput.take 8)
    have hpow : (256 : ℕ) ^ 8 = 2 ^ 64 := by decide
    simp only [List.length_take_of_le hno.2.2.2.1, Bool.false_eq_true, if_false] at hlt
    rw [maxSize] at hlim
    omega
  · intro hno
    rw [parsePrefix_of_arg ha] at hbody
    by_cases hneed : s.buf.internalInput.length < s.prefixNeed
    · rw [if_pos hneed] at hbody
      split at hbody <;> simp at hbody
    · rw [if_neg hneed] at hbody
      have hle := Nat.le_of_not_lt hneed
      obtain ⟨rfl, h8, htotal, hw⟩ := parseField_body hle hbody
      have := fieldTotal_le hc ha hle h8 hno hw
      omega

/-- A complete field that announces more than the limit ends in `check(ec)`. -/
theorem readPrefix_of_exceeds {len : ℕ} (hc : s.control = .readPrefix len) (ha : s.PrefixArg len)
    (hno : ¬ s.LengthOverflow) (hneed : s.prefixNeed ≤ s.buf.internalInput.length)
    (hlim : s.settings.readBufferSize <
      fieldTotal s.settings s.prefixVar (s.buf.internalInput.take s.prefixNeed)) :
    ∃ ec, (s.readPrefix len).control = .failed ec := by
  have hparse := parsePrefix_of_arg ha
  rw [if_neg (Nat.not_lt.mpr hneed)] at hparse
  rw [readPrefix]
  simp only [hparse]
  cases hres : parseField s.settings s.prefixVar s.buf.internalInput s.prefixNeed with
  | error ec => exact ⟨ec, rfl⟩
  | incomplete n => exact absurd hres (parseField_ne_incomplete hneed)
  | body l d =>
      obtain ⟨rfl, h8, -, hw⟩ := parseField_body hneed hres
      have := fieldTotal_le hc ha hneed h8 hno hw
      omega

/-- The step that decodes an overflowing field reads beyond the storage. -/
theorem control_of_overflow {h : ReadHandler} {e : ReadEvent} {t : ReadState} (hs : s.Inv)
    (hno : s.LengthOverflow) (ht : s.step h e = some t) : t.control = .overrun := by
  have hc := hno.1
  have ha := hs.accounts
  simp only [arrived, hc] at ha
  cases step_cases ht with
  | readPrefix hc' =>
      rw [hc] at hc'
      obtain rfl := Control.readPrefix.inj hc'
      exact readPrefix_overflow ha hno
  | read hc' | upcall hc' | completeUntil hc' =>
      rw [hc] at hc'
      exact absurd hc' (by simp)
  | receive hwait =>
      simp [waiting, hc] at hwait

end ReadState

open ReadState

/-- In every run whose steps decode no overflowing field the limit is respected in every
state reached; from such a state `read_prefix` accepts a frame within the limit, and a
step keeps the limit, exactly when no overflowing field is decoded; any other field
beyond the limit ends in an error. -/
theorem read_within_limit (h : ReadHandler) (s : ReadState)
    (hh : ∀ segments, (h segments).settings.readBufferSize ≤ maxSize)
    (hs : (boundedReadSystem h).Reachable s) :
    s.WithinLimit ∧
    (∀ len l d, s.control = .readPrefix len →
      parsePrefix s.settings s.buf.internalInput len = .body l d →
        (l + d ≤ s.settings.readBufferSize ↔ ¬ s.LengthOverflow)) ∧
    (∀ len, s.control = .readPrefix len → ¬ s.LengthOverflow →
      s.prefixNeed ≤ s.buf.internalInput.length →
      s.settings.readBufferSize <
        fieldTotal s.settings s.prefixVar (s.buf.internalInput.take s.prefixNeed) →
      ∃ ec, (s.readPrefix len).control = .failed ec) ∧
    ∀ e t, s.step h e = some t → (t.WithinLimit ↔ ¬ s.LengthOverflow) := by
  have hinv := boundedReadSystem_inv hh hs
  have harg : ∀ len, s.control = .readPrefix len → s.PrefixArg len := by
    intro len hc
    have hci := hinv.control
    simp only [ControlInv, hc] at hci
    exact hci.2
  refine ⟨hinv.withinLimit, ?_, ?_, ?_⟩
  · intro len l d hc hbody
    exact body_le_iff hinv.accounts.limit hc (harg len hc) hbody
  · intro len hc hno hneed hlim
    exact readPrefix_of_exceeds hc (harg len hc) hno hneed hlim
  · intro e t ht
    constructor
    · intro hw hno
      exact hw.no_overrun (control_of_overflow hinv hno ht)
    · intro hno
      exact (inv_step hh hinv hno ht).withinLimit

/-- A handler that reads 64-bit prefixed frames of at most 64 KiB. -/
def prefix64Handler : ReadHandler := fun _ => ⟨[], ⟨.prefix64, 0, 65536, []⟩⟩

theorem prefix64Handler_limit (segments : List (List Byte)) :
    (prefix64Handler segments).settings.readBufferSize ≤ maxSize := by
  simp [prefix64Handler, maxSize]

/-- The peer announces a body of four bytes. -/
def fourByteField : List ReadEvent := [.run, .run, .receive 8 [0, 0, 0, 0, 0, 0, 0, 4]]

/-- The field is accepted, as its frame is within the limit; the body is asked for in a region
inside the storage, and whatever comes next keeps the limit. -/
theorem read_within_limit_prefix64 : ∃ s t : ReadState,
    (boundedReadSystem prefix64Handler).Reachable s ∧
    parsePrefix s.settings s.buf.internalInput 8 = .body 8 4 ∧
    8 + 4 ≤ s.settings.readBufferSize ∧
    s.step prefix64Handler .run = some t ∧ t.control = .readFixed 4 0 ∧ t.WithinLimit ∧
    ∀ e u, t.step prefix64Handler e = some u → u.WithinLimit := by
  obtain ⟨s, hr, hp⟩ := TransitionSystem.exists_run_restrict_of_exec
    (fun (s : ReadState) _ => ¬ s.LengthOverflow) (· = initial prefix64Handler)
    (ReadState.step prefix64Handler) (initial prefix64Handler) fourByteField
    (fun s => decide (s.control = .readPrefix 8 ∧ ¬ s.LengthOverflow ∧
      parsePrefix s.settings s.buf.internalInput 8 = .body 8 4 ∧
      (s.readPrefix 8).control = .readFixed 4 0)) (by decide +kernel)
  obtain ⟨hc, hno, hbody, hc'⟩ := of_decide_eq_true hp
  have hs : (boundedReadSystem prefix64Handler).Reachable s := ⟨_, _, rfl, hr⟩
  have hstep : s.step prefix64Handler .run = some (s.readPrefix 8) := by
    simp only [ReadState.step, hc]
  have ht := hs.step ⟨hno, hstep⟩
  have hno' : ¬ (s.readPrefix 8).LengthOverflow := by
    intro hover
    cases hc'.symm.trans hover.1
  have hlimit := (read_within_limit prefix64Handler s prefix64Handler_limit hs).2.1
  obtain ⟨hwithin, -, -, hnext⟩ := read_within_limit prefix64Handler _ prefix64Handler_limit ht
  exact ⟨s, _, hs, hbody, (hlimit 8 8 4 hc hbody).mpr hno, hstep, hc', hwithin,
    fun e u hu => (hnext e u hu).mpr hno'⟩

/-- The peer sends eight bytes `0xff`. -/
def maximalField : List ReadEvent := [.run, .run, .receive 8 (List.replicate 8 0xff), .run]

/-- A peer that sends a maximal field makes the session read beyond its storage. -/
theorem not_read_within_limit : ¬ ∀ (h : ReadHandler) (s : ReadState),
    (∀ segments, (h segments).settings.readBufferSize ≤ maxSize) →
      (readSystem h).Reachable s → s.WithinLimit := by
  intro hall
  obtain ⟨t, ht, hc⟩ := TransitionSystem.exists_reachable_of_exec
    (· = initial prefix64Handler) (ReadState.step prefix64Handler) maximalField
    (fun t => decide (t.control = .overrun)) rfl (by decide)
  exact (hall prefix64Handler t prefix64Handler_limit ht).no_overrun (by simpa using hc)

end Minapp
