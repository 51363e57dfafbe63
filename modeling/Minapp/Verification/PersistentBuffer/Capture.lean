import Minapp.Model.PersistentBuffer

/-! # What `persist` captures

The bytes of the result, who owns them, and that nothing done to other memory afterwards
changes them. Empty arrays are where it throws instead. -/

namespace Minapp

variable {A O : Type*} [DecidableEq A] [DecidableEq O]

namespace Persistable

/-- The arguments in memory that can be read: what a caller of `persist` has to provide. -/
def Valid (m : Memory (Block A O) Byte) (n : ℕ) : Persistable A O → Prop
  | .object h cast => cast = true ∧ ∃ a ∈ h, ∃ bytes, m (.held a) = some bytes
  | .persistent buf => ∃ bytes, m.read buf.buffer = some bytes
  | .pointer block offset sizeof => 0 < sizeof ∧ n * sizeof ≤ maxSize ∧
      ∃ bytes, m.read ⟨block, offset, n * sizeof⟩ = some bytes
  | .mutable b => b.size ≤ maxSize ∧ ∃ bytes, m.read b = some bytes
  | .view b => ∃ bytes, m.read b = some bytes
  | .container _ | .pod _ => True

/-- The bytes to capture: all elements behind a pointer, otherwise the first `n` at most. -/
def content (m : Memory (Block A O) Byte) (n : ℕ) : Persistable A O → Option (List Byte)
  | .object h _ => (h.bind fun a => m (.held a)).map fun bytes => bytes.take n
  | .persistent buf => (m.read buf.buffer).map fun bytes => bytes.take n
  | .pointer block offset sizeof => m.read ⟨block, offset, n * sizeof⟩
  | .mutable b | .view b => (m.read b).map fun bytes => bytes.take n
  | .container bytes | .pod bytes => some (bytes.take n)

/-- The arguments whose bytes are copied or moved into a holder of the result's own. -/
def owned : Persistable A O → Bool
  | .object _ _ | .persistent _ | .view _ => false
  | _ => true

/-- Who shares the memory that the result denotes: the new holder, or the one of the argument;
a view is denoted without any. -/
def Owner (alloc : Option A) (buf : PersistentBuffer A O) : Persistable A O → Prop
  | .object h _ => buf.storage = h ∧ buf.buffer.block = h.map .held
  | .persistent old => buf.storage = old.storage ∧ buf.buffer.block = old.buffer.block
  | .view b => buf.storage = none ∧ buf.buffer.block = b.block
  | _ => buf.storage = alloc ∧ buf.buffer.block = alloc.map .held

/-- Something is left to copy by an argument that is copied as an array. -/
def HasElements (n : ℕ) : Persistable A O → Prop
  | .pointer _ _ _ => 0 < n
  | .mutable b => 0 < min n b.size
  | _ => True

/-- What `persist` is to make of its argument, if it makes a new holder at `alloc`. -/
structure Persisted (c : Persistable A O) (n : ℕ) (alloc : Option A) (m : Memory (Block A O) Byte)
    (buf : PersistentBuffer A O) (t : Memory (Block A O) Byte) : Prop where
  bytes : t.read buf.buffer = c.content m n
  owner : c.Owner alloc buf
  /-- Nothing else in memory is changed. -/
  kept : ∀ block, m block ≠ none → t block = m block
  /-- Whatever becomes later of the memory there was does not change bytes of its own. -/
  stable : c.owned = true → ∀ later : Memory (Block A O) Byte,
    (∀ block, m block = none → later block = t block) → later.read buf.buffer = c.content m n

/-- `persist(c, n)` captures what it is given, or its allocation fails. -/
def Captures (c : Persistable A O) (n : ℕ) (m : Memory (Block A O) Byte) : Prop :=
  ∀ alloc : Option A, (∀ a ∈ alloc, m (.held a) = none) →
    (∃ buf t, persist alloc m c n = some (.ok (buf, t)) ∧ c.Persisted n alloc m buf t) ∨
      alloc = none ∧ persist alloc m c n = some (.error .badAlloc)

end Persistable

open Persistable

variable {m : Memory (Block A O) Byte} {n : ℕ} {a : A}

/-- A new holder whose value owns bytes, of which the buffer has the first `k`. -/
theorem persisted_store {c : Persistable A O} {bytes : List Byte} {k : ℕ} (hk : k ≤ bytes.length)
    (ha : m (.held a) = none) (hcontent : c.content m n = some (bytes.take k))
    (howner : c.Owner (some a) ⟨some a, ⟨some (.held a), 0, k⟩⟩) :
    c.Persisted n (some a) m ⟨some a, ⟨some (.held a), 0, k⟩⟩ (m.store (.held a) bytes) := by
  have hne : ∀ block, m block ≠ none → block ≠ .held a := by
    rintro block hblock rfl
    exact hblock ha
  refine ⟨?_, howner, fun block hblock => Memory.store_of_ne (hne block hblock) _, ?_⟩
  · rw [hcontent]
    exact Memory.read_store_begin hk
  · intro _ later hlater
    have hholder : ∀ block, (⟨some (.held a), 0, k⟩ : Span (Block A O)).block = some block →
        later block = m.store (.held a) bytes block := by
      rintro block hblock
      obtain rfl : .held a = block := Option.some.inj hblock
      exact hlater _ ha
    rw [Memory.read_congr hholder, hcontent]
    exact Memory.read_store_begin hk

theorem toPtrdiff_of_le (h : n ≤ maxSize) : toPtrdiff n = n := by
  rw [toPtrdiff, if_pos]
  rw [maxSize] at h
  omega

theorem wrap_of_le (h : n ≤ maxSize) : wrap n = n := by
  rw [wrap, Nat.mod_eq_of_lt]
  rw [maxSize] at h
  omega

/-- There is room for exactly the elements, and they are copied. -/
theorem persistPointer_eq {block : Option (Block A O)} {offset sizeof : ℕ} {bytes : List Byte}
    (hn : 0 < n) (hs : 0 < sizeof) (hmax : n * sizeof ≤ maxSize)
    (hread : m.read ⟨block, offset, n * sizeof⟩ = some bytes) (ha : m (.held a) = none) :
    persistPointer (some a) m block offset sizeof n =
      some (.ok (⟨some a, ⟨some (.held a), 0, n * sizeof⟩⟩, m.store (.held a) bytes)) := by
  have hle : n ≤ n * sizeof := Nat.le_mul_of_pos_right n hs
  have hrest : (n - 1) * sizeof ≤ n * sizeof := Nat.mul_le_mul_right _ (Nat.sub_le n 1)
  have hroom : sizeof + wrap ((n - 1) * sizeof) = n * sizeof := by
    rw [wrap_of_le (Nat.le_trans hrest hmax), Nat.sub_mul, Nat.one_mul]
    have : sizeof ≤ n * sizeof := Nat.le_mul_of_pos_left sizeof hn
    omega
  have hpos : ¬ toPtrdiff n < 1 := by
    rw [toPtrdiff_of_le (Nat.le_trans hle hmax)]
    omega
  obtain ⟨hlen, hempty | ⟨i, old, hi, hm, -, -⟩⟩ := Memory.read_eq_some hread
  · have hempty : n * sizeof = 0 := hempty
    omega
  · -- the new holder is not where the elements are
    have hne : (⟨block, offset, n * sizeof⟩ : Span (Block A O)).block ≠ some (.held a) := by
      rw [hi]
      intro h
      rw [Option.some.inj h, ha] at hm
      exact absurd hm (by simp)
    have hsrc := (Memory.read_store_of_ne hne
      (List.replicate (sizeof + wrap ((n - 1) * sizeof)) 0)).trans hread
    have hcopy := Memory.copy_eq hsrc (Memory.store_self (m := m) _ _)
      (by rw [List.length_replicate, hroom]; exact hlen.symm)
    rw [Memory.store_store] at hcopy
    simp only [persistPointer, if_neg hpos, wrap_of_le hmax]
    rw [hcopy]
    rfl

/-- An array is captured if it has elements. -/
theorem persistPointer_captures {c : Persistable A O} {block : Option (Block A O)}
    {offset sizeof k : ℕ} {bytes : List Byte} (hk : 0 < k) (hs : 0 < sizeof)
    (hmax : k * sizeof ≤ maxSize) (hread : m.read ⟨block, offset, k * sizeof⟩ = some bytes)
    (hpersist : ∀ alloc, persist alloc m c n = persistPointer alloc m block offset sizeof k)
    (hcontent : c.content m n = some bytes)
    (howner : ∀ a buf, c.Owner (some a) buf ↔
      buf.storage = some a ∧ buf.buffer.block = some (.held a)) : c.Captures n m := by
  intro alloc hfresh
  cases alloc with
  | none =>
      refine .inr ⟨rfl, ?_⟩
      have hle : k ≤ k * sizeof := Nat.le_mul_of_pos_right k hs
      have hpos : ¬ toPtrdiff k < 1 := by
        rw [toPtrdiff_of_le (Nat.le_trans hle hmax)]
        omega
      rw [hpersist, persistPointer, if_neg hpos]
  | some a =>
      have ha := hfresh a rfl
      have hlen : bytes.length = k * sizeof := (Memory.read_eq_some hread).1
      refine .inl ⟨_, _, (hpersist _).trans (persistPointer_eq hk hs hmax hread ha), ?_⟩
      refine persisted_store (Nat.le_of_eq hlen.symm) ha ?_ ((howner a _).mpr ⟨rfl, rfl⟩)
      rw [hcontent, ← hlen, List.take_length]

/-- An empty array is not captured, whether it could be allocated or not. -/
theorem persistPointer_empty {c : Persistable A O} {block : Option (Block A O)}
    {offset sizeof : ℕ}
    (hpersist : ∀ alloc, persist alloc m c n = persistPointer alloc m block offset sizeof 0) :
    ¬ c.Captures n m := by
  have hthrows : persist none m c n = some (.error .badArrayNewLength) :=
    (hpersist none).trans (if_pos (by decide))
  intro h
  rcases h none (by simp) with ⟨buf, t, hok, -⟩ | ⟨-, hbad⟩
  · rw [hthrows] at hok
    exact absurd hok (by simp)
  · rw [hthrows] at hbad
    exact absurd hbad (by simp)

theorem persistValue_captures {c : Persistable A O} {bytes : List Byte}
    (hpersist : ∀ alloc, persist alloc m c n = persistValue alloc m bytes n)
    (hcontent : c.content m n = some (bytes.take n))
    (howner : ∀ a buf, c.Owner (some a) buf ↔
      buf.storage = some a ∧ buf.buffer.block = some (.held a)) : c.Captures n m := by
  intro alloc hfresh
  cases alloc with
  | none => exact .inr ⟨rfl, hpersist none⟩
  | some a =>
      have htake : bytes.take (min bytes.length n) = bytes.take n := by
        rw [Nat.min_comm, ← List.take_take, List.take_length]
      refine .inl ⟨_, _, hpersist _, persisted_store (Nat.min_le_left _ _) (hfresh a rfl) ?_
        ((howner a _).mpr ⟨rfl, rfl⟩)⟩
      rw [htake, hcontent]

/-- Arguments whose memory the result shares are captured without an allocation. -/
theorem shared_captures {c : Persistable A O} {buf : PersistentBuffer A O}
    (hpersist : ∀ alloc, persist alloc m c n = some (.ok (buf, m))) (hc : c.owned = false)
    (hcontent : m.read buf.buffer = c.content m n) (howner : ∀ alloc, c.Owner alloc buf) :
    c.Captures n m := by
  intro alloc _
  refine .inl ⟨buf, m, hpersist alloc, hcontent, howner alloc, fun _ _ => rfl, ?_⟩
  intro howned
  exact absurd (hc.symm.trans howned) Bool.false_ne_true

/-- `persist` captures what it is given, unless that is an array without elements. -/
theorem captures_iff (c : Persistable A O) (hc : c.Valid m n) :
    c.Captures n m ↔ c.HasElements n := by
  cases c with
  | object h cast =>
      obtain ⟨rfl, a, rfl, bytes, hm⟩ := hc
      have hpersist : ∀ alloc, persist alloc m (.object (some a) true) n =
          some (.ok (⟨some a, Span.limit ⟨some (.held a), 0, bytes.length⟩ n⟩, m)) := by
        intro alloc
        rw [persist, hm]
        rfl
      refine iff_of_true (shared_captures hpersist rfl ?_ fun _ => ⟨rfl, rfl⟩) trivial
      rw [content, Option.bind_some, hm]
      exact Memory.read_limit (Memory.read_whole hm) n
  | persistent buf =>
      obtain ⟨bytes, hread⟩ := hc
      refine iff_of_true (shared_captures (fun _ => rfl) rfl ?_ fun _ => ⟨rfl, rfl⟩) trivial
      rw [content, hread]
      exact Memory.read_limit hread n
  | pointer block offset sizeof =>
      obtain ⟨hs, hmax, bytes, hread⟩ := hc
      constructor
      · intro h
        by_contra hzero
        obtain rfl : n = 0 := Nat.eq_zero_of_not_pos hzero
        exact persistPointer_empty (fun _ => rfl) h
      · intro hn
        exact persistPointer_captures hn hs hmax hread (fun _ => rfl) hread fun _ _ => Iff.rfl
  | mutable b =>
      obtain ⟨hmax, bytes, hread⟩ := hc
      constructor
      · intro h
        by_contra hzero
        have hsize : (b.limit n).size = 0 := by
          simp only [HasElements, Nat.not_lt, Nat.le_zero] at hzero
          rw [Span.limit, Nat.min_comm]
          exact hzero
        have hpersist : ∀ alloc, persist alloc m (.mutable b) n =
            persistPointer alloc m b.block b.offset 1 0 := by
          intro alloc
          rw [persist, hsize]
          rfl
        exact persistPointer_empty hpersist h
      · intro hn
        have hpos : 0 < (b.limit n).size := by
          rw [Span.limit, Nat.min_comm]
          exact hn
        have hlimit : (b.limit n).size ≤ maxSize :=
          Nat.le_trans (Nat.min_le_left _ _) hmax
        have hcells : m.read ⟨(b.limit n).block, (b.limit n).offset, (b.limit n).size * 1⟩ =
            some (bytes.take n) := by
          rw [Nat.mul_one]
          exact Memory.read_limit hread n
        have hcontent : content m n (.mutable b) = some (bytes.take n) := by
          rw [content, hread]
          rfl
        exact persistPointer_captures hpos Nat.one_pos (by rwa [Nat.mul_one]) hcells
          (fun _ => rfl) hcontent fun _ _ => Iff.rfl
  | view b =>
      obtain ⟨bytes, hread⟩ := hc
      refine iff_of_true (shared_captures (fun _ => rfl) rfl ?_ fun _ => ⟨rfl, rfl⟩) trivial
      rw [content, hread]
      exact Memory.read_limit hread n
  | container bytes | pod bytes =>
      exact iff_of_true (persistValue_captures (fun _ => rfl) rfl fun _ _ => Iff.rfl) trivial

/-! ## Writing a segment -/

/-- `session::write(b)` of an open session queues one buffer with exactly the bytes of `b`,
or its allocation fails. -/
def QueuesSegment (b : Span (Block A O)) (status : Status)
    (queue : BufferManager (PersistentBuffer A O)) (m : Memory (Block A O) Byte) : Prop :=
  ∀ alloc : Option A, (∀ a ∈ alloc, m (.held a) = none) →
    (∃ buf t, writeBuffer alloc m status queue (.mutable b) = some (.ok (queue.manage [buf], t)) ∧
      t.read buf.buffer = m.read b) ∨
    alloc = none ∧ writeBuffer alloc m status queue (.mutable b) = some (.error .badAlloc)

omit [DecidableEq A] [DecidableEq O] in
theorem content_noLimit {b : Span (Block A O)} (hb : Valid m noLimit (.mutable b)) :
    content m noLimit (.mutable b) = m.read b := by
  obtain ⟨hmax, bytes, hread⟩ := hb
  have hlen := (Memory.read_eq_some hread).1
  rw [content, hread, Option.map_some, List.take_of_length_le]
  rw [maxSize] at hmax
  rw [noLimit]
  omega

theorem queuesSegment_iff {b : Span (Block A O)} {status : Status}
    {queue : BufferManager (PersistentBuffer A O)} (hb : Valid m noLimit (.mutable b))
    (hopen : ¬ Status.closing ≤ status) : QueuesSegment b status queue m ↔ 0 < b.size := by
  have hsize : HasElements noLimit (.mutable b : Persistable A O) ↔ 0 < b.size := by
    rw [HasElements, noLimit]
    omega
  rw [← hsize, ← captures_iff _ hb]
  constructor
  · intro h
    rw [captures_iff _ hb]
    by_contra hempty
    -- with nothing to copy the call throws before anything is queued
    have hzero : b.size = 0 := Nat.eq_zero_of_not_pos (mt hsize.mpr hempty)
    have hlimit : (b.limit noLimit).size = 0 := by rw [Span.limit, hzero, Nat.zero_min]
    have hthrows : writeBuffer none m status queue (.mutable b) =
        some (.error .badArrayNewLength) := by
      rw [writeBuffer, if_neg hopen, persist, hlimit]
      rfl
    rcases h none (by simp) with ⟨buf, t, hok, -⟩ | ⟨-, hbad⟩
    · rw [hthrows] at hok
      exact absurd hok (by simp)
    · rw [hthrows] at hbad
      exact absurd hbad (by simp)
  · intro h alloc hfresh
    rcases h alloc hfresh with ⟨buf, t, hok, hp⟩ | ⟨rfl, hbad⟩
    · refine .inl ⟨buf, t, ?_, hp.bytes.trans (content_noLimit hb)⟩
      rw [writeBuffer, if_neg hopen, hok]
      rfl
    · refine .inr ⟨rfl, ?_⟩
      rw [writeBuffer, if_neg hopen, hbad]
      rfl

/-- Of every readable argument and every limit, `persist` captures exactly the bytes given,
with an owner that keeps them, if and only if it is not an array without elements: a
`mutable_buffer` of which no byte is left, or a pointer to none. Then the segments that a
`write` of an open session queues are those with a byte in them. -/
theorem persist_captures (m : Memory (Block A O) Byte) :
    (∀ (c : Persistable A O) (n : ℕ), c.Valid m n → (c.Captures n m ↔ c.HasElements n)) ∧
    ∀ (b : Span (Block A O)) (status : Status) (queue : BufferManager (PersistentBuffer A O)),
      Valid m noLimit (.mutable b) → ¬ Status.closing ≤ status →
        (QueuesSegment b status queue m ↔ 0 < b.size) :=
  ⟨fun c _ hc => captures_iff c hc, fun _ _ _ hb hopen => queuesSegment_iff hb hopen⟩

/-- The storage of a session with three bytes, and no holder. -/
def threeBytes : Memory (Block (Fin 2) (Fin 1)) Byte
  | .other _ => some [1, 2, 3]
  | .held _ => none

/-- The last two of three bytes are captured. -/
theorem persist_captures_two :
    Captures (.mutable ⟨some (.other 0), 1, 2⟩ : Persistable (Fin 2) (Fin 1)) 5 threeBytes :=
  ((persist_captures threeBytes).1 (.mutable ⟨some (.other 0), 1, 2⟩) 5
    ⟨by decide, [2, 3], by decide⟩).mpr (show 0 < min 5 2 by decide)

/-- An empty segment, as of a frame without payload, is not queued. -/
theorem not_persist_captures : ¬ ∀ (m : Memory (Block (Fin 2) (Fin 1)) Byte)
    (b : Span (Block (Fin 2) (Fin 1))) (n : ℕ), Valid m n (.mutable b) →
      Captures (.mutable b) n m := by
  intro h
  have hcaptures := h threeBytes ⟨some (.other 0), 3, 0⟩ noLimit ⟨by decide, [], by decide⟩
  rcases hcaptures none (by simp) with ⟨buf, t, hok, -⟩ | ⟨-, hbad⟩
  · exact absurd hok (by simp [persist, persistPointer, Span.limit, toPtrdiff])
  · exact absurd hbad (by simp [persist, persistPointer, Span.limit, toPtrdiff])

end Minapp
