import Minapp.Verification.Receive.Invariant

/-! # Draining buffered input

`session::read` calls the handler and itself as long as the internal input has another
frame. Every round takes bytes off the internal input, except for frames of no bytes. -/

namespace Minapp

/-- A handler that leaves the buffer and the settings alone. -/
def quietHandler (settings : Settings) : ReadHandler := fun _ => ⟨[], settings⟩

namespace ReadState

/-- Whether a step belongs to the call of `read()`: none does once a read is outstanding. -/
def Synchronous (s : ReadState) : ReadEvent → Prop
  | .run => s.waiting = false
  | .upcall => True
  | .receive _ _ => False

/-- The call of `read()` has come to its end. -/
def Returned (s : ReadState) : Prop :=
  s.waiting = true ∨ s.control = .idle ∨ (∃ ec, s.control = .failed ec) ∨ s.control = .threw ∨
    s.control = .overrun

/-- A call of `read()` with a handler that leaves things alone. -/
def draining (settings : Settings) : TransitionSystem ReadState ReadEvent :=
  (readSystem (quietHandler settings)).restrict Synchronous

/-- The reads that commit no byte: of a size of zero, with one byte that never goes. -/
def Stalls (s : ReadState) : Prop :=
  s.settings.readBufferSize = 0 ∧
    (s.settings.protocol = .fixed ∨
      (s.settings.protocol = .any ∨ s.settings.protocol = .delim ∧ s.settings.delimiter = []) ∧
        0 < s.buf.internalInputSize)

instance : DecidablePred Stalls := fun _ => inferInstanceAs (Decidable (_ ∧ _))

variable {s t u : ReadState}

/-! ## What each function leaves -/

/-- After a part of a round, it has returned, or calls the handler with fewer than `n` bytes
left. -/
def Drained (s : ReadState) (settings : Settings) (n : ℕ) : Prop :=
  s.settings = settings ∧
    (s.Returned ∨ s.control = .upcall 0 ∧ s.buf.internalInputSize < n)

theorem returned_asyncRead {n : ℕ} {c : Control}
    (hc : ({ s with control := c } : ReadState).waiting = true) :
    (s.asyncRead n c).Returned ∧ (s.asyncRead n c).settings = s.settings := by
  rw [asyncRead]
  split
  · exact ⟨.inr (.inr (.inr (.inl rfl))), rfl⟩
  · split
    · exact ⟨.inl hc, rfl⟩
    · exact ⟨.inr (.inr (.inr (.inr rfl))), rfl⟩

theorem drained_deliver {n k : ℕ} (h : 0 < min k s.buf.internalInputSize)
    (hn : s.buf.internalInputSize ≤ n) :
    (s.deliver (s.buf.commitToExternalInput k) 0).Drained s.settings n := by
  refine ⟨rfl, .inr ⟨rfl, ?_⟩⟩
  rw [TripleBuffer.commitToExternalInput_eq]
  simp only [deliver, TripleBuffer.moveToNewExternalInputSegment]
  omega

theorem drained_readSome {n k : ℕ} (h : s.buf.internalInputSize = 0 ∨ 0 < k)
    (hn : s.buf.internalInputSize ≤ n) : (s.readSome k).Drained s.settings n := by
  rw [readSome]
  split
  · exact drained_deliver (by omega) hn
  · obtain ⟨hr, hs⟩ := returned_asyncRead (s := s) (n := k) (c := .readSome k) rfl
    exact ⟨hs, .inl hr⟩

/-- Nothing but a body of no bytes leaves the internal input as it was. -/
theorem drained_readFixed {n k : ℕ} (h : s.buf.internalInputSize < n ∨ 0 < k)
    (hn : s.buf.internalInputSize ≤ n) : (s.readFixed k).Drained s.settings n := by
  unfold readFixed
  simp only
  split
  · refine ⟨rfl, .inr ⟨rfl, ?_⟩⟩
    rw [TripleBuffer.commitToExternalInput_eq]
    simp only [deliver, TripleBuffer.moveToNewExternalInputSegment]
    omega
  · obtain ⟨hr, hs⟩ := returned_asyncRead (s := s) (n := k - s.buf.internalInputSize)
      (c := .readFixed (k - s.buf.internalInputSize) 0) rfl
    exact ⟨hs, .inl hr⟩

theorem drained_readDelim {n : ℕ} {delim : List Byte}
    (h : delim = [] → s.buf.internalInputSize = 0 ∨ 0 < s.settings.readBufferSize)
    (hn : s.buf.internalInputSize ≤ n) : (s.readDelim delim).Drained s.settings n := by
  rw [readDelim]
  split
  · exact drained_readSome (h ‹_›) hn
  · exact ⟨rfl, .inl (.inl rfl)⟩

/-- A prefix that is accepted has at least one byte, and all its bytes are buffered. -/
theorem parsePrefix_body {st : Settings} {p : List Byte} {len n k : ℕ}
    (h : parsePrefix st p len = .body n k) : 0 < n ∧ n ≤ p.length := by
  rw [parsePrefix] at h
  simp only at h
  generalize (if sizeMsb ≤ len then len - sizeMsb else len) = m at h
  have hpos : 0 < if m = 0 then (p.takeWhile continues).length + 1 else m := by
    split <;> omega
  generalize (if m = 0 then (p.takeWhile continues).length + 1 else m) = m at h hpos
  by_cases hmore : p.length < m ∨ sizeMsb ≤ len ∧ continues (p.getD (m - 1) 0) = true
  · rw [if_pos hmore] at h
    split_ifs at h
  · rw [if_neg hmore] at h
    have hle : m ≤ p.length := Nat.le_of_not_lt fun hlt => hmore (.inl hlt)
    obtain ⟨rfl, -⟩ := parseField_body hle h
    exact ⟨hpos, hle⟩

theorem drained_readPrefix (len : ℕ) :
    (s.readPrefix len).Drained s.settings s.buf.internalInputSize := by
  unfold readPrefix
  simp only
  split
  · exact ⟨rfl, .inl (.inr (.inr (.inl ⟨_, rfl⟩)))⟩
  · rename_i n _
    obtain ⟨hr, hs⟩ := returned_asyncRead (s := s) (n := n - s.buf.internalInput.length)
      (c := .prefixBytes (if sizeMsb ≤ len then n + sizeMsb else n)
        (n - s.buf.internalInput.length) 0) rfl
    exact ⟨hs, .inl hr⟩
  · rename_i n k hbody
    obtain ⟨hpos, hle⟩ := parsePrefix_body hbody
    have hlen : s.buf.internalInput.length ≤ s.buf.internalInputSize := List.length_take_le _ _
    have hsize : (if s.settings.ignoreProtocol
        then (s.buf.commitToExternalInput n).markCurrentExternalInput
        else s.buf.commitToExternalInput n).internalInputSize = s.buf.internalInputSize - n := by
      rw [TripleBuffer.commitToExternalInput_eq]
      split <;> simp only [TripleBuffer.markCurrentExternalInput] <;> omega
    apply drained_readFixed
    · exact .inl (by rw [hsize]; omega)
    · rw [hsize]
      omega

/-! ## Rounds -/

theorem internalInputSize_beginFrame :
    s.beginFrame.buf.internalInputSize = s.buf.internalInputSize := by
  rw [beginFrame]
  split <;> rfl

/-- The upcalls that the call of `read()` can still make. -/
def upcallsLeft (s : ReadState) : ℕ :=
  match s.control with
  | .read | .readPrefix _ => s.buf.internalInputSize
  | .upcall _ => s.buf.internalInputSize + 1
  | _ => 0

/-- The steps it can still take. -/
def stepsLeft (s : ReadState) : ℕ :=
  3 * s.upcallsLeft +
    match s.control with
    | .read => 2
    | .readPrefix _ => 1
    | _ => 0

/-- In a call of `read()` with the settings. -/
structure Drain (settings : Settings) (s : ReadState) : Prop where
  settings_eq : s.settings = settings
  progress : s.Returned ∨ ¬ s.Stalls
  tail_eq : ∀ tail, s.control = .upcall tail → tail = 0

theorem Returned.left_eq (h : s.Returned) : s.upcallsLeft = 0 ∧ s.stepsLeft = 0 := by
  unfold stepsLeft upcallsLeft
  cases hc : s.control <;> simp [Returned, waiting, hc] at h ⊢

/-- The internal input never grows, so that no read begins to stall. -/
theorem not_stalls_of_le (h : ¬ s.Stalls) (hset : t.settings = s.settings)
    (hle : t.buf.internalInputSize ≤ s.buf.internalInputSize) : ¬ t.Stalls := by
  rintro ⟨hzero, hcase⟩
  rw [hset] at hzero hcase
  exact h ⟨hzero, hcase.imp id (And.imp id fun hpos => Nat.lt_of_lt_of_le hpos hle)⟩

/-- What is left after a part of a round. -/
theorem Drained.left_le {settings : Settings} {n : ℕ} (h : s.Drained settings n) :
    s.upcallsLeft ≤ n ∧ s.stepsLeft ≤ 3 * n := by
  obtain ⟨-, hr | ⟨hc, hlt⟩⟩ := h
  · obtain ⟨hu, hs⟩ := hr.left_eq
    omega
  · have hu : s.upcallsLeft = s.buf.internalInputSize + 1 := by rw [upcallsLeft, hc]
    rw [stepsLeft, hc, hu]
    simp only
    omega

theorem Drained.drain {settings : Settings} {n : ℕ} (h : s.Drained settings n)
    (hno : ¬ t.Stalls) (hset : t.settings = settings) (hn : n ≤ t.buf.internalInputSize) :
    s.Drain settings := by
  obtain ⟨hs, hr | ⟨hc, hlt⟩⟩ := h
  · refine ⟨hs, .inl hr, ?_⟩
    intro tail hc
    simp [Returned, waiting, hc] at hr
  · refine ⟨hs, .inr (not_stalls_of_le hno (hs.trans hset.symm) (by omega)), ?_⟩
    intro tail htail
    exact (Control.upcall.inj (hc.symm.trans htail)).symm

/-- A call of `read()` leads to that of `read_prefix`, or to the end of a part of the round. -/
theorem drained_read (h : ¬ s.Stalls) :
    (∃ len, s.read = { s.beginFrame with control := .readPrefix len }) ∨
      s.read.Drained s.settings s.buf.internalInputSize := by
  have hsize := s.internalInputSize_beginFrame
  have hset : s.beginFrame.settings = s.settings := rfl
  have hdelim : ∀ delim, delim ≠ [] →
      (s.beginFrame.readDelim delim).Drained s.settings s.buf.internalInputSize := by
    intro delim hne
    exact drained_readDelim (fun hnil => absurd hnil hne) hsize.le
  rw [read_eq]
  cases hp : s.settings.protocol with
  | none => exact .inr ⟨rfl, .inl (.inr (.inl rfl))⟩
  | any =>
      refine .inr (drained_readSome ?_ hsize.le)
      by_contra hstall
      exact h ⟨by omega, .inr ⟨.inl hp, by omega⟩⟩
  | fixed =>
      refine .inr (drained_readFixed (.inr ?_) hsize.le)
      by_contra hstall
      exact h ⟨by omega, .inl hp⟩
  | delim =>
      refine .inr (drained_readDelim ?_ hsize.le)
      intro hnil
      by_contra hstall
      rw [hset] at hstall
      exact h ⟨by omega, .inr ⟨.inr ⟨hp, hnil⟩, by omega⟩⟩
  | delimZero => exact .inr (hdelim [0] (by simp))
  | delimCr => exact .inr (hdelim [13] (by simp))
  | delimLf => exact .inr (hdelim [10] (by simp))
  | delimCrlf => exact .inr (hdelim crlf (by simp [crlf]))
  | prefix8 => exact .inl ⟨1, rfl⟩
  | prefix16 => exact .inl ⟨2, rfl⟩
  | prefix32 => exact .inl ⟨4, rfl⟩
  | prefix64 => exact .inl ⟨8, rfl⟩
  | prefixVar => exact .inl ⟨sizeMsb, rfl⟩
  | other v => exact .inr ⟨rfl, .inl (.inr (.inr (.inl ⟨_, rfl⟩)))⟩

/-- The upcall of a handler that leaves things alone. -/
theorem handlerRead_quiet (settings : Settings) :
    s.handlerRead (quietHandler settings) 0 = { s with
      settings, control := .read, delivered := s.delivered ++ [s.buf.segment] } := by
  simp [handlerRead, quietHandler, TripleBuffer.commitToExternalInput_eq]

/-- One step of a call of `read()`: every upcall is one of those that were left. -/
theorem drain_step {settings : Settings} {e : ReadEvent} (hd : t.Drain settings)
    (hstep : (draining settings).Step t e u) :
    u.Drain settings ∧ u.upcallsLeft + (if e = .upcall then 1 else 0) ≤ t.upcallsLeft ∧
      u.stepsLeft < t.stepsLeft := by
  obtain ⟨hsync, hstep⟩ := hstep
  obtain ⟨hset, hprogress, htail⟩ := hd
  have hno : ¬ t.Returned → ¬ t.Stalls := fun hr => hprogress.resolve_left hr
  cases step_cases hstep with
  | read hc =>
      have hno := hno (by simp [Returned, waiting, hc])
      have hleft : t.upcallsLeft = t.buf.internalInputSize := by rw [upcallsLeft, hc]
      have hsteps : t.stepsLeft = 3 * t.buf.internalInputSize + 2 := by rw [stepsLeft, hc, hleft]
      rcases drained_read hno with ⟨len, heq⟩ | hdrained
      · have hsize := t.internalInputSize_beginFrame
        have hleft' : t.read.upcallsLeft = t.buf.internalInputSize := by
          rw [heq]
          exact hsize
        have hsteps' : t.read.stepsLeft = 3 * t.buf.internalInputSize + 1 := by
          rw [stepsLeft, hleft', heq]
        refine ⟨⟨by rw [heq]; exact hset, .inr ?_, ?_⟩, ?_, by omega⟩
        · rw [heq]
          exact not_stalls_of_le hno rfl hsize.le
        · intro tail h
          simp [heq] at h
        · simpa [hleft] using hleft'.le
      · obtain ⟨hu, hs⟩ := hdrained.left_le
        rw [hset] at hdrained
        exact ⟨hdrained.drain hno hset le_rfl, by simpa [hleft] using hu, by omega⟩
  | readPrefix hc =>
      have hno := hno (by simp [Returned, waiting, hc])
      have hleft : t.upcallsLeft = t.buf.internalInputSize := by rw [upcallsLeft, hc]
      have hsteps : t.stepsLeft = 3 * t.buf.internalInputSize + 1 := by rw [stepsLeft, hc, hleft]
      have hdrained := drained_readPrefix (s := t)
      obtain ⟨hu, hs⟩ := (hdrained _).left_le
      rw [hset] at hdrained
      exact ⟨(hdrained _).drain hno hset le_rfl, by simpa [hleft] using hu, by omega⟩
  | completeUntil hc ht => simp [Synchronous, waiting, hc] at hsync
  | upcall hc =>
      have hno := hno (by simp [Returned, waiting, hc])
      obtain rfl := htail _ hc
      have hleft : t.upcallsLeft = t.buf.internalInputSize + 1 := by rw [upcallsLeft, hc]
      have hsteps : t.stepsLeft = 3 * (t.buf.internalInputSize + 1) := by
        rw [stepsLeft, hc, hleft]
        rfl
      rw [handlerRead_quiet]
      refine ⟨⟨rfl, .inr (not_stalls_of_le hno hset.symm le_rfl), by simp⟩, ?_, ?_⟩
      · rw [hleft]
        exact le_rfl
      · rw [hsteps, stepsLeft, upcallsLeft]
        simp only
        omega
  | receive => exact hsync.elim

/-- Unless it has returned, the call goes on. -/
theorem drain_progress {settings : Settings} (h : ¬ s.Returned) :
    ∃ e t, (draining settings).Step s e t := by
  cases hc : s.control with
  | read => exact ⟨.run, s.read, by simp [Synchronous, waiting, hc], by simp [readSystem,
      TransitionSystem.ofStep, step, hc]⟩
  | readPrefix len => exact ⟨.run, s.readPrefix len, by simp [Synchronous, waiting, hc],
      by simp [readSystem, TransitionSystem.ofStep, step, hc]⟩
  | upcall tail => exact ⟨.upcall, s.handlerRead (quietHandler settings) tail, trivial,
      by simp [readSystem, TransitionSystem.ofStep, step, hc]⟩
  | readSome | readFixed | prefixBytes | readDelim | idle | failed | threw | overrun =>
      exact absurd (by simp [Returned, waiting, hc]) h

/-- Draining comes to an end, after at most as many upcalls as there are bytes, and every
round shortens the internal input. -/
structure Drains (s : ReadState) : Prop where
  ends : ∃ es t, (draining s.settings).Run s es t ∧ t.Returned
  length_le : ∀ es t, (draining s.settings).Run s es t →
    es.length ≤ 3 * s.buf.internalInputSize + 2
  upcalls_le : ∀ es t, (draining s.settings).Run s es t →
    es.count .upcall ≤ s.buf.internalInputSize
  shortens : ∀ es t es' u, (draining s.settings).Run s es t → t.control = .read →
    (draining s.settings).Run t es' u → u.control = .read → es' ≠ [] →
      u.buf.internalInputSize < t.buf.internalInputSize

theorem left_of_read (h : s.control = .read) :
    s.upcallsLeft = s.buf.internalInputSize ∧
      s.stepsLeft = 3 * s.buf.internalInputSize + 2 := by
  have hu : s.upcallsLeft = s.buf.internalInputSize := by rw [upcallsLeft, h]
  exact ⟨hu, by rw [stepsLeft, hu, h]⟩

theorem drain_run {settings : Settings} {es : List ReadEvent} (hd : s.Drain settings)
    (hr : (draining settings).Run s es t) :
    t.Drain settings ∧ es.count .upcall + t.upcallsLeft ≤ s.upcallsLeft := by
  apply hr.rec_invariant (I := fun es t =>
    t.Drain settings ∧ es.count .upcall + t.upcallsLeft ≤ s.upcallsLeft)
  · exact ⟨hd, by simp⟩
  · intro es t e u ht hu
    obtain ⟨hd, hleft, -⟩ := drain_step ht.1 hu
    have hle := ht.2
    refine ⟨hd, ?_⟩
    rw [List.count_append, List.count_singleton]
    simp only [beq_iff_eq]
    omega

theorem drains_of_not_stalls (hc : s.control = .read) (h : ¬ s.Stalls) : s.Drains := by
  have hd : s.Drain s.settings := by
    refine ⟨rfl, .inr h, ?_⟩
    intro tail htail
    simp [hc] at htail
  have hrank : ∀ t e u, t.Drain s.settings → (draining s.settings).Step t e u →
      u.Drain s.settings ∧ u.stepsLeft < t.stepsLeft := by
    intro t e u ht hu
    obtain ⟨hd, -, hlt⟩ := drain_step ht hu
    exact ⟨hd, hlt⟩
  obtain ⟨hu, hs⟩ := left_of_read hc
  refine ⟨?_, ?_, ?_, ?_⟩
  · exact TransitionSystem.exists_run_of_rank hrank (fun t _ ht => drain_progress ht) hd
  · intro es t hr
    have := hr.length_add_rank_le hrank hd
    omega
  · intro es t hr
    have := (drain_run hd hr).2
    omega
  · intro es t es' u hr ht hr' hu hne
    have hlen := hr'.length_add_rank_le hrank (drain_run hd hr).1
    have hpos := List.length_pos_iff.mpr hne
    have := (left_of_read ht).2
    have := (left_of_read hu).2
    omega

/-! ## Frames of no bytes -/

/-- A read of no bytes delivers nothing and leaves the internal input as it is. -/
theorem read_of_stalls (h : s.Stalls) :
    s.read = s.beginFrame.deliver (s.beginFrame.buf.commitToExternalInput 0) 0 := by
  obtain ⟨hzero, hcase⟩ := h
  have hsize := s.internalInputSize_beginFrame
  have hset : s.beginFrame.settings = s.settings := rfl
  rw [read_eq]
  rcases hcase with hp | ⟨hp | ⟨hp, hnil⟩, hpos⟩
  · simp only [hp]
    rw [readFixed, hzero, if_pos (Nat.zero_le _)]
  · simp only [hp]
    rw [readSome, hzero, if_pos (by omega)]
  · simp only [hp]
    rw [hnil, readDelim, if_pos rfl, readSome, hset, hzero, if_pos (by omega)]

/-- Between the calls of the handler nothing changes. -/
structure Stalling (settings : Settings) (s : ReadState) : Prop where
  settings_eq : s.settings = settings
  stalls : s.Stalls
  control : s.control = .read ∨ s.control = .upcall 0

theorem stalling_step {settings : Settings} {e : ReadEvent} (h : t.Stalling settings)
    (hstep : (draining settings).Step t e u) : u.Stalling settings := by
  obtain ⟨hset, hstalls, hcontrol⟩ := h
  cases step_cases hstep.2 with
  | read hc =>
      have hread := read_of_stalls hstalls
      have hsize := t.internalInputSize_beginFrame
      rw [TripleBuffer.commitToExternalInput_eq] at hread
      rw [hread]
      refine ⟨hset, ⟨hstalls.1, hstalls.2.imp id (And.imp id fun hpos => ?_)⟩, .inr rfl⟩
      simpa [deliver, TripleBuffer.moveToNewExternalInputSegment, hsize] using hpos
  | readPrefix hc => simp [hc] at hcontrol
  | completeUntil hc ht => simp [hc] at hcontrol
  | upcall hc =>
      obtain rfl : _ = 0 := by simpa [hc] using hcontrol
      rw [handlerRead_quiet]
      rw [Stalls, hset] at hstalls
      exact ⟨rfl, hstalls, .inl rfl⟩
  | receive => exact hstep.1.elim

theorem not_drains_of_stalls (hc : s.control = .read) (h : s.Stalls) : ¬ s.Drains := by
  intro hdrains
  obtain ⟨es, t, hr, hreturned⟩ := hdrains.ends
  have hstalling : t.Stalling s.settings := by
    apply hr.rec_invariant (I := fun _ t => t.Stalling s.settings)
    · exact ⟨rfl, h, .inl hc⟩
    · intro es t e u ht hu
      exact stalling_step ht hu
  rcases hstalling.control with hc | hc <;> simp [Returned, waiting, hc] at hreturned

/-! ## An endless varint -/

/-- The peer only sends continuation bytes. -/
def OnlyContinues (es : List ReadEvent) : Prop :=
  ∀ asked bytes, .receive asked bytes ∈ es → ∀ c ∈ bytes, continues c = true

/-- How many more prefix bytes the limit allows to be read. -/
def prefixRoom (s : ReadState) : ℕ := s.settings.readBufferSize - s.buf.internalInput.length

/-- The scan of a varint that does not end reads no more than the limit allows, delivers
nothing, and stops with an error; until then it goes on, or one more byte is asked for. -/
structure VarintStops (s : ReadState) (h : ReadHandler) (es : List ReadEvent) (t : ReadState) :
    Prop where
  no_upcall : .upcall ∉ es
  received_le : t.received.length ≤ s.received.length + s.prefixRoom
  length_le : es.length ≤ 2 * s.prefixRoom + 2
  goes_on : t.control = .failed .messageSize ∨ t.control = .threw ∨
    (∃ u, (readSystem h).Step t .run u) ∨ t.waiting = true ∧ t.room = 1

/-- The scan of the internal input, with `k` bytes received since. -/
def ScanControl (s t : ReadState) (length k : ℕ) : Prop :=
  match t.control with
  | .read => length = 0 ∧ k = 0 ∧ t = s
  | .readPrefix len =>
    length = 2 * k + 1 ∧ t.PrefixArg len ∧ sizeMsb ≤ len ∧
      t.buf.internalInput.length = s.buf.internalInput.length + k ∧
      (∀ c ∈ t.buf.internalInput, continues c = true)
  | .prefixBytes len n got =>
    length = 2 * k + 2 ∧ n = 1 ∧ got = 0 ∧ len = t.buf.internalInput.length + 1 + sizeMsb ∧
      t.buf.internalInput.length = s.buf.internalInput.length + k ∧
      (∀ c ∈ t.buf.internalInput, continues c = true) ∧
      t.buf.internalInput.length < t.settings.readBufferSize ∧
      t.buf.outputOffset + 1 ≤ t.buf.storage.length
  | .failed ec => ec = .messageSize ∧ length ≤ 2 * k + 2
  | .threw => length ≤ 2 * k + 2
  | _ => False

structure Scanning (s : ReadState) (es : List ReadEvent) (t : ReadState) (k : ℕ) : Prop where
  no_upcall : .upcall ∉ es
  settings_eq : t.settings = s.settings
  valid : t.buf.Valid 0
  received_eq : t.received.length = s.received.length + k
  le_room : k ≤ s.prefixRoom
  control : ScanControl s t es.length k

theorem internalInput_beginFrame : s.beginFrame.buf.internalInput = s.buf.internalInput := by
  rw [beginFrame]
  split
  · rfl
  · simp [TripleBuffer.markCurrentExternalInput, TripleBuffer.internalInput,
      TripleBuffer.consumeWholeExternalInput, TripleBuffer.eraseFront]

theorem valid_beginFrame (h : s.buf.Valid 0) : s.beginFrame.buf.Valid 0 := by
  rw [beginFrame]
  split
  · exact ⟨h.zones, h.fits⟩
  · have hv := h.eraseFront (le_refl s.buf.externalInputSize)
    rw [Nat.sub_self] at hv
    exact ⟨hv.zones, hv.fits⟩

theorem internalInput_prepared {b : TripleBuffer} (h : b.Valid 0) (n : ℕ) :
    (b.prepared n).internalInput = b.internalInput := by
  have ht := congrArg (List.drop b.externalInputSize) (TripleBuffer.take_prepared h n)
  simp only [TripleBuffer.outputOffset, List.drop_take, Nat.add_sub_cancel_left] at ht
  exact ht

/-- Every byte that is buffered asks for one more. -/
theorem varintLength_of_continues {p : List Byte} (h : ∀ c ∈ p, continues c = true) :
    varintLength p = p.length + 1 := by
  rw [varintLength, List.takeWhile_eq_self_iff.mpr h]

/-- The call of `read_prefix` on continuation bytes. -/
theorem readPrefix_of_continues {len : ℕ} (hp : s.settings.protocol = .prefixVar)
    (hv : s.buf.Valid 0) (harg : s.PrefixArg len) (hlen : sizeMsb ≤ len)
    (hc : ∀ c ∈ s.buf.internalInput, continues c = true) :
    s.readPrefix len =
      if s.settings.readBufferSize ≤ s.buf.internalInput.length then s.check .messageSize
      else if s.buf.outputOffset + 1 ≤ maxSize then
        { s with
          buf := s.buf.prepared 1
          control := .prefixBytes (s.buf.internalInput.length + 1 + sizeMsb) 1 0 }
      else { s with control := .threw } := by
  have hneed : s.prefixNeed = s.buf.internalInput.length + 1 := by
    rw [prefixNeed, fieldSize, hp]
    exact varintLength_of_continues hc
  have hparse := parsePrefix_of_arg harg
  rw [hneed, if_pos (Nat.lt_succ_self _)] at hparse
  by_cases hlimit : s.settings.readBufferSize ≤ s.buf.internalInput.length
  · rw [if_pos (Nat.lt_succ_of_le hlimit)] at hparse
    rw [if_pos hlimit, readPrefix_of_error hparse]
  · rw [if_neg (by omega)] at hparse
    rw [if_neg hlimit, readPrefix_of_incomplete hparse, if_pos hlen, Nat.add_sub_cancel_left,
      asyncRead_eq hv (by decide)]

/-- One more continuation byte. -/
theorem scanning_receive {es : List ReadEvent} {k asked len n got : ℕ} {c : Byte}
    (hp : s.settings.protocol = .prefixVar) (hi : Scanning s es t k)
    (hc : t.control = .prefixBytes len n got) (hcontinues : continues c = true) :
    Scanning s (es ++ [.receive asked [c]]) (t.receive asked [c]) (k + 1) := by
  obtain ⟨hno, hset, hvalid, hreceived, hroom, hcontrol⟩ := hi
  have hlength : (es ++ [ReadEvent.receive asked [c]]).length = es.length + 1 := by simp
  rw [ScanControl] at hcontrol
  simp only [hc] at hcontrol
  obtain ⟨hlen, rfl, rfl, rfl, hinput, hcont, hlimit, hfits⟩ := hcontrol
  have hfill : t.buf.outputOffset + 0 + [c].length ≤ t.buf.storage.length := hfits
  have hv := TripleBuffer.valid_fill hvalid hfill
  have hinput' : ((t.buf.fill t.buf.outputOffset [c]).commitToInternalInput 1).internalInput =
      t.buf.internalInput ++ [c] := by
    have hcommit := TripleBuffer.internalInput_commitToInternalInput hv
    have hfilled := TripleBuffer.input_fill hfill
    rw [← TripleBuffer.internalInput_eq_input] at hfilled
    exact hcommit.trans hfilled
  have hreceive : t.receive asked [c] = { t with
      received := t.received ++ [c]
      buf := (t.buf.fill t.buf.outputOffset [c]).commitToInternalInput 1
      control := .readPrefix (t.buf.internalInput.length + 1 + sizeMsb) } := by
    simp [receive, hc]
  have hall : ∀ d ∈ t.buf.internalInput ++ [c], continues d = true := by
    intro d hd
    rcases List.mem_append.mp hd with hd | hd
    · exact hcont d hd
    · obtain rfl := List.mem_singleton.mp hd
      exact hcontinues
  rw [hset] at hlimit
  rw [hreceive]
  refine ⟨by simpa using hno, hset, hv.commitToInternalInput, ?_, ?_, ?_⟩
  · rw [List.length_append, hreceived]
    rfl
  · rw [prefixRoom]
    omega
  · simp only [ScanControl, hinput', List.length_append, List.length_singleton]
    refine ⟨by omega, .inr ⟨hset ▸ hp, .inr ⟨?_, ?_, ?_⟩⟩, Nat.le_add_left _ _, by omega, hall⟩
    · simp only [hinput', List.length_append, List.length_singleton]
    · simp [hinput']
    · simp only [hinput', List.dropLast_concat]
      exact hcont

theorem scanning_step {h : ReadHandler} {es : List ReadEvent} {e : ReadEvent} {k : ℕ}
    (hp : s.settings.protocol = .prefixVar)
    (hs : ∀ c ∈ s.buf.internalInput, continues c = true) (hi : Scanning s es t k)
    (hcontinue : OnlyContinues [e]) (hstep : (readSystem h).Step t e u) :
    ∃ k', Scanning s (es ++ [e]) u k' := by
  have hscan := hi
  obtain ⟨hno, hset, hvalid, hreceived, hroom, hcontrol⟩ := hi
  have hrun : ReadEvent.upcall ∉ es ++ [.run] := by simpa using hno
  have hlength : (es ++ [e]).length = es.length + 1 := by simp
  rw [ScanControl] at hcontrol
  cases step_cases hstep with
  | read hc =>
      simp only [hc] at hcontrol
      obtain ⟨hzero, rfl, rfl⟩ := hcontrol
      have hread : t.read = { t.beginFrame with control := .readPrefix sizeMsb } := by
        rw [read_eq]
        simp only [hp]
      have hinput := t.internalInput_beginFrame
      refine ⟨0, hrun, by rw [hread]; rfl, ?_, by rw [hread]; rfl, Nat.zero_le _, ?_⟩
      · rw [hread]
        exact valid_beginFrame hvalid
      · rw [hread, ScanControl]
        simp only [hinput]
        exact ⟨by omega, .inr ⟨hp, .inl rfl⟩, le_rfl, rfl, hs⟩
  | readPrefix hc =>
      simp only [hc] at hcontrol
      obtain ⟨hlen, harg, hmsb, hinput, hcont⟩ := hcontrol
      rw [prefixRoom] at hroom
      rw [readPrefix_of_continues (hset ▸ hp) hvalid harg hmsb hcont]
      split
      · exact ⟨k, hrun, hset, hvalid, hreceived, hroom, rfl, by omega⟩
      · rename_i hlimit
        split
        · rename_i hfits
          refine ⟨k, hrun, hset, TripleBuffer.valid_prepared hfits, hreceived, hroom, ?_⟩
          simp only [ScanControl, internalInput_prepared hvalid, TripleBuffer.length_prepared]
          exact ⟨by omega, trivial, trivial, trivial, hinput, hcont, by omega, le_rfl⟩
        · exact ⟨k, hrun, hset, hvalid, hreceived, hroom, by simp only [ScanControl]; omega⟩
  | completeUntil hc ht => simp [hc] at hcontrol
  | upcall hc => simp [hc] at hcontrol
  | @receive asked bytes hwaiting hbytes hasked hne =>
      cases hc : t.control <;> simp only [hc] at hcontrol <;>
        simp only [waiting, hc, Bool.false_eq_true] at hwaiting
      case prefixBytes len n got =>
        have hone := hcontrol
        obtain ⟨-, -, rfl, rfl, -⟩ := hone
        obtain ⟨c, rfl⟩ : ∃ c, bytes = [c] := by
          have hpos : bytes ≠ [] := by
            intro hnil
            simp [hc] at hne
            exact hne hnil
          have := List.length_pos_iff.mpr hpos
          simp only [room, hc] at hasked
          exact List.length_eq_one_iff.mp (by omega)
        have hcont : continues c = true :=
          hcontinue asked [c] (List.mem_singleton.mpr rfl) c (List.mem_singleton.mpr rfl)
        exact ⟨k + 1, scanning_receive hp hscan hc hcont⟩

/-- What the scan does before it stops is bounded, and it only stops with an error. -/
theorem varintStops_of_scanning {h : ReadHandler} {es : List ReadEvent} {k : ℕ}
    (hi : Scanning s es t k) : VarintStops s h es t := by
  obtain ⟨hno, hset, -, hreceived, hroom, hcontrol⟩ := hi
  rw [ScanControl] at hcontrol
  cases hc : t.control with
  | read =>
      simp only [hc] at hcontrol
      exact ⟨hno, by omega, by omega, .inr (.inr (.inl ⟨t.read, by
        simp [readSystem, TransitionSystem.ofStep, step, hc]⟩))⟩
  | readPrefix len =>
      simp only [hc] at hcontrol
      exact ⟨hno, by omega, by omega, .inr (.inr (.inl ⟨t.readPrefix len, by
        simp [readSystem, TransitionSystem.ofStep, step, hc]⟩))⟩
  | prefixBytes len n got =>
      simp only [hc] at hcontrol
      obtain ⟨hlen, rfl, rfl, -⟩ := hcontrol
      exact ⟨hno, by omega, by omega, .inr (.inr (.inr (by simp [waiting, room, hc])))⟩
  | failed ec =>
      simp only [hc] at hcontrol
      obtain ⟨rfl, hlen⟩ := hcontrol
      exact ⟨hno, by omega, by omega, .inl hc⟩
  | threw =>
      simp only [hc] at hcontrol
      exact ⟨hno, by omega, by omega, .inr (.inl hc)⟩
  | upcall | readSome | readFixed | readDelim | idle | overrun => simp [hc] at hcontrol

theorem varintStops_run {h : ReadHandler} {es : List ReadEvent} (hc : s.control = .read)
    (hv : s.buf.Valid 0) (hp : s.settings.protocol = .prefixVar)
    (hs : ∀ c ∈ s.buf.internalInput, continues c = true) (hr : (readSystem h).Run s es t)
    (hcontinue : OnlyContinues es) : VarintStops s h es t := by
  have hscan : OnlyContinues es → ∃ k, Scanning s es t k := by
    apply hr.rec_invariant (I := fun es t => OnlyContinues es → ∃ k, Scanning s es t k)
    · intro _
      refine ⟨0, by simp, rfl, hv, rfl, Nat.zero_le _, ?_⟩
      simp [ScanControl, hc]
    · intro es t e u ih hu hall
      obtain ⟨k, hk⟩ := ih fun asked bytes hmem => hall asked bytes (List.mem_append_left _ hmem)
      exact scanning_step hp hs hk
        (fun asked bytes hmem => hall asked bytes (List.mem_append_right _ hmem)) hu
  obtain ⟨k, hk⟩ := hscan hcontinue
  exact varintStops_of_scanning hk

/-- A call of `read()` drains the buffered input, and no endless varint is read beyond the
limit, exactly if the call does not stall. -/
theorem drains_iff (hc : s.control = .read) (hv : s.buf.Valid 0) :
    (s.Drains ∧
      (s.settings.protocol = .prefixVar → (∀ c ∈ s.buf.internalInput, continues c = true) →
        ∀ h es t, (readSystem h).Run s es t → OnlyContinues es → VarintStops s h es t)) ↔
      ¬ s.Stalls := by
  constructor
  · rintro ⟨hdrains, -⟩ hstalls
    exact not_drains_of_stalls hc hstalls hdrains
  · intro h
    refine ⟨drains_of_not_stalls hc h, ?_⟩
    intro hp hs handler es t hr hcontinue
    exact varintStops_run hc hv hp hs hr hcontinue

/-- Three bytes are buffered, and `read()` is called. -/
def threeBuffered : ReadState where
  buf := { storage := [1, 2, 3], internalInputSize := 3 }
  settings := ⟨.any, 0, 2, []⟩
  control := .read
  delivered := []
  frameStart := 0
  received := [1, 2, 3]

theorem drains_three : threeBuffered.Drains :=
  ((drains_iff rfl ⟨by decide, by decide⟩).mpr (by decide)).1

/-- With frames of a fixed length of zero, the first call of `read()` does not end. -/
theorem not_drains_fixed : ¬ (initial (quietHandler ⟨.fixed, 0, 0, []⟩)).Drains :=
  not_drains_of_stalls rfl (by decide)

end ReadState

end Minapp
