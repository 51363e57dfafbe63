import Minapp.Verification.PersistentBuffer.Lists
import Minapp.Verification.Session.WriteQueue

/-! # The partition of the nodes

Over any sequence of calls the three lists have every slot once, and besides only chunks that the
pool gave and has not got back. On the buffers in the lists the calls are those of
`BufferManager`. -/

namespace Minapp

open IntrusiveList

namespace ManagerCall

variable {A O : Type*}

/-- Several buffers are at least two, each held once. -/
def Valid : ManagerCall A O → Prop
  | .manageBuffers buffers order =>
    2 ≤ buffers.length ∧ order.Perm (List.range buffers.length)
  | _ => True

/-- The call on the queue of buffers. -/
def apply (n : BufferManager (PersistentBuffer A O)) :
    ManagerCall A O → BufferManager (PersistentBuffer A O)
  | .manage b => n.manage [b]
  | .manageBuffers buffers _ => n.manage buffers
  | .manageList list => n.manage list
  | .manageMarked => n.manage n.marked
  | .mark => n.mark.2
  | .clearMarked => n.clearMarked

end ManagerCall

namespace BufferManager

variable {A O : Type*} {n : BufferManager (PersistentBuffer A O)}

theorem MarkerInv.apply (h : n.MarkerInv) (call : ManagerCall A O) : (call.apply n).MarkerInv := by
  cases call with
  | manage b => exact ⟨h.nonneg, h.le_max, h.pos⟩
  | manageBuffers buffers order => exact ⟨h.nonneg, h.le_max, h.pos⟩
  | manageList list => exact ⟨h.nonneg, h.le_max, h.pos⟩
  | manageMarked => exact ⟨h.nonneg, h.le_max, h.pos⟩
  | mark =>
      by_cases hle : n.mark.1 ≤ 0
      · rw [ManagerCall.apply, (mark_of_nonpos h hle).1]
        exact h
      · exact (mark_of_pos h (Int.not_le.mp hle)).2.2.2
  | clearMarked => exact ⟨h.nonneg, h.le_max, fun hne => absurd rfl hne⟩

end BufferManager

namespace PersistentBufferManager

variable {A O : Type*} {P : BufferPool} {m : PersistentBufferManager A O} {c : List ℕ}
  {g k : List (ℕ × PersistentBuffer A O)} {n : BufferManager (PersistentBuffer A O)}

/-! ## Refinement of the queue of buffers -/

/-- `n` has the buffers that are in the nodes of the lists. -/
structure Abstracts (P : BufferPool) (m : PersistentBufferManager A O)
    (n : BufferManager (PersistentBuffer A O)) (c : List ℕ)
    (g k : List (ℕ × PersistentBuffer A O)) : Prop where
  placed : Placed P m n.marker c [] g k
  managed_eq : n.managed = g.map Prod.snd
  marked_eq : n.marked = k.map Prod.snd

theorem Abstracts.of_managed (h : Abstracts P m n c g k) {t : PersistentBufferManager A O}
    {c' : List ℕ} {xs : List (ℕ × PersistentBuffer A O)} {buffers : List (PersistentBuffer A O)}
    (hplaced : Placed P t n.marker c' [] (g ++ xs) k) (hvalues : xs.map Prod.snd = buffers) :
    Abstracts P t (n.manage buffers) c' (g ++ xs) k := by
  refine ⟨hplaced, ?_, h.marked_eq⟩
  rw [BufferManager.manage, List.map_append, hvalues, h.managed_eq]

/-- With no list marked, the managed one is. -/
theorem Abstracts.mark_nil (h : Abstracts P m n c g []) :
    m.mark.1 = n.mark.1 ∧ Abstracts P m.mark.2 n.mark.2 c [] g := by
  have hmarked : m.marked.first = none := h.placed.marked.first_eq
  have hempty : n.marked.isEmpty = true := by rw [h.marked_eq]; rfl
  rw [mark, if_neg (fun hne => hne hmarked), BufferManager.mark, if_pos hempty]
  cases g with
  | nil =>
      have hmanaged : m.managed.first = none := h.placed.managed.first_eq
      have hnothing : n.managed.isEmpty = true := by rw [h.managed_eq]; rfl
      rw [if_pos hmanaged, if_pos hnothing]
      exact ⟨rfl, h⟩
  | cons e g =>
      have hmanaged : m.managed.first = some e.1 := h.placed.managed.first_eq
      have hfirst : ¬ m.managed.first = none := by simp [hmanaged]
      have hsome : ¬ n.managed.isEmpty = true := by simp [h.managed_eq]
      rw [if_neg hfirst, if_neg hsome, h.placed.marker_eq]
      have hledger : Ledger P m c ([] ++ ([] ++ e :: g)) := by
        have hperm := h.placed.ledger
        rw [List.append_nil] at hperm
        exact hperm
      exact ⟨rfl, ⟨hledger.of_eq rfl rfl rfl, h.placed.marked, h.placed.managed, rfl⟩,
        h.marked_eq, h.managed_eq⟩

/-- A marked list stays. -/
theorem Abstracts.mark_cons {e : ℕ × PersistentBuffer A O} (h : Abstracts P m n c g (e :: k)) :
    m.mark = (-n.marker, m) ∧ n.mark = (-n.marker, n) := by
  have hmarked : m.marked.first = some e.1 := h.placed.marked.first_eq
  have hfirst : m.marked.first ≠ none := by simp [hmarked]
  have hsome : ¬ n.marked.isEmpty = true := by simp [h.marked_eq]
  rw [PersistentBufferManager.mark, if_pos hfirst, BufferManager.mark, if_neg hsome,
    h.placed.marker_eq]
  exact ⟨rfl, rfl⟩

theorem Abstracts.mark (h : Abstracts P m n c g k) :
    m.mark.1 = n.mark.1 ∧ ∃ g' k', Abstracts P m.mark.2 n.mark.2 c g' k' := by
  cases k with
  | nil => exact ⟨h.mark_nil.1, [], g, h.mark_nil.2⟩
  | cons e k =>
      obtain ⟨hm, hn⟩ := h.mark_cons
      rw [hm, hn]
      exact ⟨rfl, g, e :: k, h⟩

/-- Each call comes to an end with enough fuel, in one state, which has what the call makes of
the queue. -/
theorem Abstracts.step (h : Abstracts P m n c g k) {call : ManagerCall A O} (hcall : call.Valid) :
    ∃ t length c' g' k',
      (∀ fuel, m.step P fuel call = if length ≤ fuel then some t else none) ∧
        Abstracts P t (call.apply n) c' g' k' := by
  have hatonce : ∀ fuel (t : PersistentBufferManager A O),
      some t = if 0 ≤ fuel then some t else none :=
    fun fuel t => (if_pos (Nat.zero_le fuel)).symm
  cases call with
  | manage b =>
      obtain ⟨t, c', xs, ht, hplaced, hvalues⟩ := h.placed.manage b
      exact ⟨t, 0, c', g ++ xs, k, fun fuel => ht.trans (hatonce fuel t),
        h.of_managed hplaced hvalues⟩
  | manageBuffers buffers order =>
      obtain ⟨t, c', xs, ht, hplaced, hvalues⟩ := h.placed.manageBuffers hcall.1 hcall.2
      exact ⟨t, 0, c', g ++ xs, k, fun fuel => ht.trans (hatonce fuel t),
        h.of_managed hplaced hvalues⟩
  | manageList list =>
      obtain ⟨t, c', xs, ht, hplaced, hvalues⟩ := h.placed.manageList list
      exact ⟨t, 0, c', g ++ xs, k, fun fuel => ht.trans (hatonce fuel t),
        h.of_managed hplaced hvalues⟩
  | manageMarked =>
      obtain ⟨t, c', xs, ht, hplaced, hvalues⟩ := h.placed.manageMarked
      rw [← h.marked_eq] at hvalues
      exact ⟨t, k.length, c', g ++ xs, k, ht, h.of_managed hplaced hvalues⟩
  | mark =>
      obtain ⟨-, g', k', habstracts⟩ := h.mark
      exact ⟨m.mark.2, 0, c, g', k', fun fuel => hatonce fuel _, habstracts⟩
  | clearMarked =>
      obtain ⟨t, c', ht, hplaced⟩ := h.placed.clearMarked
      exact ⟨t, k.length, c', g, [], ht, hplaced, h.managed_eq, rfl⟩

/-- No other call has a step. -/
theorem valid_of_step {t : PersistentBufferManager A O} {call : ManagerCall A O}
    (h : (system P).Step m call t) : call.Valid := by
  obtain ⟨fuel, ht⟩ := h
  cases call with
  | manageBuffers buffers order =>
      rw [step, manageBuffers] at ht
      split at ht
      · assumption
      · exact absurd ht (by simp)
  | _ => trivial

/-- The calls of a run on the queue of buffers. -/
def queueAfter (es : List (ManagerCall A O)) : BufferManager (PersistentBuffer A O) :=
  es.foldl ManagerCall.apply {}

theorem init_abstracts (h : (system P).Init m) :
    Abstracts P m {} P.slots.reverse [] [] := by
  obtain ⟨fuel, hm⟩ := h
  obtain ⟨t, ht, hconstructed⟩ := construct_spec (A := A) (O := O) P
  rw [ht] at hm
  split at hm
  · obtain rfl := Option.some.inj hm
    refine ⟨⟨hconstructed.ledger, ?_, ?_, hconstructed.marker_eq⟩, rfl, rfl⟩
    · rw [hconstructed.managed_eq]
      exact represents_nil _
    · rw [hconstructed.marked_eq]
      exact represents_nil _
  · exact absurd hm (by simp)

/-- In every run the lists have the buffers that the queue has. -/
theorem run_abstracts {s : PersistentBufferManager A O} {es : List (ManagerCall A O)}
    (hs : (system P).Init s) (hr : (system P).Run s es m) :
    ∃ c g k, Abstracts P m (queueAfter es) c g k ∧ (queueAfter es).MarkerInv := by
  apply hr.rec_invariant
    (I := fun es m => ∃ c g k, Abstracts P m (queueAfter es) c g k ∧ (queueAfter es).MarkerInv)
  · have hmax : (0 : ℤ) ≤ longMax := by decide
    exact ⟨_, _, _, init_abstracts hs, Int.le_refl 0, hmax, fun hne => absurd rfl hne⟩
  · rintro es m call t ⟨c, g, k, habstracts, hmarker⟩ hstep
    obtain ⟨u, length, c', g', k', hu, hnext⟩ := habstracts.step (valid_of_step hstep)
    obtain ⟨fuel, ht⟩ := hstep
    rw [hu] at ht
    split at ht
    · obtain rfl := Option.some.inj ht
      rw [queueAfter, List.foldl_append]
      exact ⟨c', g', k', hnext, hmarker.apply call⟩
    · exact absurd ht (by simp)

/-! ## The partition -/

/-- `c`, `g` and `k` are the nodes of the cached, the managed and the marked list. -/
structure Partition (P : BufferPool) (m : PersistentBufferManager A O) (c g k : List ℕ) :
    Prop where
  cached : Represents m.heap m.cached c
  managed : Represents m.heap m.managed g
  marked : Represents m.heap m.marked k
  /-- The lists have no node twice, nor one in common. -/
  nodup : (c ++ (g ++ k)).Nodup
  slots : ∀ p ∈ P.slots, p ∈ c ++ (g ++ k)
  cached_slots : ∀ p ∈ c, p ∈ P.slots
  released : ∀ p ∈ c, ∃ b, m.heap.value p = some b ∧ b.storage = none
  /-- The pool gets back what it gave, once, except for the other nodes in the lists. -/
  pool : ∀ p, m.calls.count (.malloc p) =
    m.calls.count (.free p) + if p ∈ g ++ k ∧ p ∉ P.slots then 1 else 0
  block : ∀ p ∈ P.slots, .malloc p ∉ m.calls ∧ .free p ∉ m.calls

theorem Placed.partition {z : ℤ} (h : Placed P m z c [] g k) :
    Partition P m c (g.map Prod.fst) (k.map Prod.fst) := by
  have hnodup := h.ledger.nodup
  have hmem : ∀ p, p ∈ c ∨ p ∈ (g ++ k).map Prod.fst ↔ p ∈ P.slots ∨ p ∈ inUse m.calls := by
    intro p
    rw [← List.mem_append, ← List.mem_append]
    exact h.ledger.perm.mem_iff
  have hmalloc : ∀ p ∈ P.slots, .malloc p ∉ m.calls := by
    intro p hp hcall
    exact h.ledger.outside p hcall (BufferPool.inBlock_of_mem_slots hp)
  have hout : ∀ p, p ∈ inUse m.calls ↔ p ∈ (g ++ k).map Prod.fst ∧ p ∉ P.slots := by
    intro p
    constructor
    · intro hp
      have hslot : p ∉ P.slots := by
        intro hslot
        exact h.ledger.not_inBlock hp (BufferPool.inBlock_of_mem_slots hslot)
      rcases (hmem p).mpr (.inr hp) with hc | hrest
      · exact absurd (h.ledger.cached_slots p hc) hslot
      · exact ⟨hrest, hslot⟩
    · rintro ⟨hrest, hslot⟩
      exact ((hmem p).mp (.inr hrest)).resolve_left hslot
  refine ⟨h.ledger.cached, h.managed, h.marked, ?_, ?_, h.ledger.cached_slots,
    h.ledger.released, ?_, ?_⟩
  · rw [← List.map_append]
    exact hnodup
  · intro p hp
    rw [← List.map_append, List.mem_append]
    exact (hmem p).mpr (.inl hp)
  · intro p
    rw [h.ledger.balanced, ← List.map_append, h.ledger.inUse_nodup.count]
    simp only [hout]
  · intro p hp
    have hbalanced := h.ledger.balanced p
    rw [List.count_eq_zero.mpr (hmalloc p hp)] at hbalanced
    exact ⟨hmalloc p hp, List.count_eq_zero.mp (by omega)⟩

/-- What the results of `mark` say. -/
structure MarkResult (P : BufferPool) (m : PersistentBufferManager A O) (c g k : List ℕ) :
    Prop where
  /-- The managed nodes have become the marked ones. -/
  pos_iff : 0 < m.mark.1 ↔ g ≠ [] ∧ k = [] ∧ Partition P m.mark.2 c [] g
  zero_iff : m.mark.1 = 0 ↔ g = [] ∧ k = []
  neg_iff : m.mark.1 < 0 ↔ k ≠ []
  range : -longMax ≤ m.mark.1 ∧ m.mark.1 ≤ longMax

theorem Abstracts.markResult (h : Abstracts P m n c g k) (hn : n.MarkerInv) :
    MarkResult P m c (g.map Prod.fst) (k.map Prod.fst) := by
  have hnonneg := hn.nonneg
  have hmax := hn.le_max
  cases k with
  | nil =>
      obtain ⟨hresult, hmoved⟩ := h.mark_nil
      by_cases hle : n.mark.1 ≤ 0
      · -- there is nothing to mark
        obtain ⟨-, ⟨hmarked, -⟩ | ⟨-, hmanaged, hzero⟩⟩ := BufferManager.mark_of_nonpos hn hle
        · exact absurd h.marked_eq hmarked
        · obtain rfl : g = [] := List.map_eq_nil_iff.mp (h.managed_eq.symm.trans hmanaged)
          rw [hzero] at hresult
          refine ⟨?_, ?_, ?_, by omega⟩
          · simp [hresult]
          · simp [hresult]
          · simp [hresult]
      · obtain ⟨-, hmanaged, heq, hnext⟩ := BufferManager.mark_of_pos hn (Int.not_le.mp hle)
        have hg : g.map Prod.fst ≠ [] := by
          intro hnil
          obtain rfl := List.map_eq_nil_iff.mp hnil
          exact hmanaged h.managed_eq
        have hrange : n.mark.1 ≤ longMax := by
          have hlast := hnext.le_max
          rwa [heq] at hlast
        rw [← hresult] at hle hrange
        refine ⟨?_, ?_, ?_, by omega⟩
        · exact ⟨fun _ => ⟨hg, rfl, hmoved.placed.partition⟩, fun _ => Int.not_le.mp hle⟩
        · exact ⟨fun hzero => absurd (Int.le_of_eq hzero) hle, fun hnil => absurd hnil.1 hg⟩
        · exact ⟨fun hneg => absurd (Int.le_of_lt hneg) hle, fun hne => absurd rfl hne⟩
  | cons e k =>
      obtain ⟨hm, -⟩ := h.mark_cons
      have hpos : 0 < n.marker := hn.pos (by simp [h.marked_eq])
      have hresult : m.mark.1 = -n.marker := by rw [hm]
      have hk : (e :: k).map Prod.fst ≠ [] := List.cons_ne_nil _ _
      refine ⟨?_, ?_, ?_, by omega⟩
      · exact ⟨fun hgt => by omega, fun hmoved => absurd hmoved.2.1 hk⟩
      · exact ⟨fun hzero => by omega, fun hnil => absurd hnil.2 hk⟩
      · exact ⟨fun _ => hk, fun _ => by omega⟩

/-- Whatever has been called, the nodes are partitioned, the results of `mark` say which lists
are empty, and every call comes to an end. -/
theorem partition_of_reachable (h : (system P).Reachable m) :
    ∃ c g k, Partition P m c g k ∧ MarkResult P m c g k ∧
      ∀ call : ManagerCall A O, call.Valid → ∃ t, (system P).Step m call t := by
  obtain ⟨s, es, hs, hr⟩ := h
  obtain ⟨c, g, k, habstracts, hmarker⟩ := run_abstracts hs hr
  refine ⟨c, g.map Prod.fst, k.map Prod.fst, habstracts.placed.partition,
    habstracts.markResult hmarker, ?_⟩
  intro call hcall
  obtain ⟨t, length, -, -, -, ht, -⟩ := habstracts.step hcall
  exact ⟨t, length, (ht length).trans (if_pos (Nat.le_refl _))⟩

/-- A place behind all chunks and behind the block. -/
def chunkAfter (size second : ℕ) (chunks : List ℕ) : ℕ :=
  chunks.foldr (fun q n => max (q + size) n) second

theorem chunkAfter_bounds (size second : ℕ) (chunks : List ℕ) :
    second ≤ chunkAfter size second chunks ∧
      ∀ q ∈ chunks, q + size ≤ chunkAfter size second chunks := by
  induction chunks with
  | nil => exact ⟨Nat.le_refl _, nofun⟩
  | cons q chunks ih =>
      obtain ⟨hsecond, hchunks⟩ := ih
      rw [chunkAfter, List.foldr_cons, ← chunkAfter]
      refine ⟨Nat.le_trans hsecond (Nat.le_max_right ..), ?_⟩
      intro r hr
      rcases List.mem_cons.mp hr with rfl | hr
      · exact Nat.le_max_left ..
      · exact Nat.le_trans (hchunks r hr) (Nat.le_max_right ..)

/-- A pool that has its chunks in a row, from the block on. -/
def chunksInARow (cached : ℕ) : BufferPool where
  size := 32
  size_pos := by decide
  cached := cached
  first := 4096
  malloc calls := chunkAfter 32 (4096 + cached * 32) (inUse calls)
  malloc_block _ := .inr (chunkAfter_bounds _ _ _).1
  malloc_inUse _ q hq := .inr ((chunkAfter_bounds _ _ _).2 q hq)

/-- One slot, two buffers that are managed again while they are marked. -/
theorem partition_of_reachable_one :
    ∃ m : PersistentBufferManager ℕ ℕ, (system (chunksInARow 1)).Reachable m ∧ m.mark.1 = -2 ∧
      ∃ c g k, Partition (chunksInARow 1) m c g k ∧ MarkResult (chunksInARow 1) m c g k := by
  let calls : List (ManagerCall ℕ ℕ) :=
    [.manageList [⟨some 1, {}⟩, ⟨some 2, {}⟩], .mark, .manageMarked, .clearMarked, .mark]
  have hexec : ((construct (chunksInARow 1) 2).bind fun s : PersistentBufferManager ℕ ℕ =>
      (TransitionSystem.exec (fun m call => m.step (chunksInARow 1) 3 call) s calls).map
        fun m => m.mark.1) = some (-2) := by decide
  obtain ⟨s, hs, hrun⟩ := Option.bind_eq_some_iff.mp hexec
  obtain ⟨m, hm, hresult⟩ := Option.map_eq_some_iff.mp hrun
  have hsteps : (TransitionSystem.ofStep (system (chunksInARow 1)).Init
      fun (m : PersistentBufferManager ℕ ℕ) call => m.step (chunksInARow 1) 3 call).Run s calls m :=
    TransitionSystem.run_of_exec hm
  have hreach : (system (chunksInARow 1)).Reachable m :=
    ⟨s, calls, ⟨2, hs⟩, hsteps.mono fun _ _ _ ht => ⟨3, ht⟩⟩
  obtain ⟨c, g, k, hpartition, hmark, -⟩ := partition_of_reachable hreach
  exact ⟨m, hreach, hresult, c, g, k, hpartition, hmark⟩

end PersistentBufferManager

end Minapp
