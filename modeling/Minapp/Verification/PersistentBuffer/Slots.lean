import Mathlib.Data.List.Count
import Mathlib.Data.List.Nodup
import Minapp.Model.PersistentBufferManager

/-! # The ledger of nodes

Every slot of the block, and every chunk of the pool that is in use, is at one place: in the
cached list, or with what has taken it. Taking a node and giving it back keep the ledger. -/

namespace Minapp

open IntrusiveList

namespace BufferPool

variable {P : BufferPool} {p : ℕ} {calls : List PoolCall}

theorem slot_succ (i : ℕ) : P.slot (i + 1) = P.slot i + P.size := by
  rw [slot, slot, Nat.add_mul, Nat.one_mul, Nat.add_assoc]

theorem slot_lt_second {i : ℕ} : P.slot i < P.second ↔ i < P.cached := by
  rw [slot, second, Nat.add_lt_add_iff_left, Nat.mul_lt_mul_right P.size_pos]

theorem slot_injective : Function.Injective P.slot := by
  intro i j h
  have hmul : i * P.size = j * P.size := Nat.add_left_cancel h
  exact Nat.eq_of_mul_eq_mul_right P.size_pos hmul

theorem slots_nodup : P.slots.Nodup := List.nodup_range.map slot_injective

theorem inBlock_of_mem_slots (h : p ∈ P.slots) : P.InBlock p := by
  obtain ⟨i, hi, rfl⟩ := List.mem_map.mp h
  exact ⟨Nat.le_add_right _ _, slot_lt_second.mpr (List.mem_range.mp hi)⟩

theorem not_inBlock_malloc : ¬ P.InBlock (P.malloc calls) := by
  rintro ⟨hfirst, hsecond⟩
  have hpos := P.size_pos
  rcases P.malloc_block calls with h | h
  · omega
  · exact Nat.not_lt_of_le h hsecond

theorem malloc_not_mem_inUse : P.malloc calls ∉ inUse calls := by
  intro h
  have hpos := P.size_pos
  rcases P.malloc_inUse calls _ h with h | h <;> omega

end BufferPool

namespace PersistentBufferManager

variable {A O : Type*} {P : BufferPool} {m t : PersistentBufferManager A O} {c : List ℕ} {p : ℕ}
  {b : PersistentBuffer A O} {rest rest' : List (ℕ × PersistentBuffer A O)}

/-- `c` are the nodes of the cached list, `rest` all others, with their buffers. -/
structure Ledger (P : BufferPool) (m : PersistentBufferManager A O) (c : List ℕ)
    (rest : List (ℕ × PersistentBuffer A O)) : Prop where
  cached : Represents m.heap m.cached c
  perm : (c ++ rest.map Prod.fst).Perm (P.slots ++ inUse m.calls)
  inUse_nodup : (inUse m.calls).Nodup
  outside : ∀ q, .malloc q ∈ m.calls → ¬ P.InBlock q
  cached_slots : ∀ p ∈ c, p ∈ P.slots
  released : ∀ p ∈ c, ∃ b, m.heap.value p = some b ∧ b.storage = none
  value_eq : ∀ e ∈ rest, m.heap.value e.1 = some e.2
  balanced : ∀ q, m.calls.count (.malloc q) = m.calls.count (.free q) + (inUse m.calls).count q

/-- Nothing changes but the node `p`, the cached list and the pool. -/
structure Frame (m t : PersistentBufferManager A O) (p : ℕ) : Prop where
  heap_eq : ∀ a, a ≠ p → t.heap a = m.heap a
  managed_eq : t.managed = m.managed
  marked_eq : t.marked = m.marked
  marker_eq : t.marker = m.marker

theorem Frame.value_eq (h : Frame m t p) {a : ℕ} (ha : a ≠ p) :
    t.heap.value a = m.heap.value a := by
  rw [Heap.value, h.heap_eq a ha, Heap.value]

namespace Ledger

theorem not_inBlock (h : Ledger P m c rest) (hp : p ∈ inUse m.calls) : ¬ P.InBlock p := by
  have hbalanced := h.balanced p
  have hcount : 0 < (inUse m.calls).count p := List.count_pos_iff.mpr hp
  exact h.outside p (List.count_pos_iff.mp (by omega))

theorem nodup (h : Ledger P m c rest) : (c ++ rest.map Prod.fst).Nodup := by
  rw [h.perm.nodup_iff, List.nodup_append]
  refine ⟨BufferPool.slots_nodup, h.inUse_nodup, ?_⟩
  rintro p hp q hq rfl
  exact h.not_inBlock hq (BufferPool.inBlock_of_mem_slots hp)

/-- A node that is not cached is of the block or of the pool. -/
theorem mem_slots_or_inUse (h : Ledger P m c rest) (hp : p ∈ rest.map Prod.fst) :
    p ∈ P.slots ∨ p ∈ inUse m.calls :=
  List.mem_append.mp (h.perm.mem_iff.mp (List.mem_append_right c hp))

theorem cell (h : Ledger P m c rest) {e : ℕ × PersistentBuffer A O} (he : e ∈ rest) :
    ∃ x, m.heap e.1 = some x := by
  obtain ⟨x, hx, -⟩ := Option.map_eq_some_iff.mp (h.value_eq e he)
  exact ⟨x, hx⟩

theorem not_mem_cached (h : Ledger P m c rest) {e : ℕ × PersistentBuffer A O} (he : e ∈ rest) :
    e.1 ∉ c := by
  intro hc
  exact (List.nodup_append.mp h.nodup).2.2 _ hc _ (List.mem_map_of_mem he) rfl

theorem ne_of_cons (h : Ledger P m c ((p, b) :: rest)) : ∀ e ∈ rest, e.1 ≠ p := by
  have hnodup : (p :: (c ++ rest.map Prod.fst)).Nodup := List.perm_middle.nodup_iff.mp h.nodup
  rintro e he rfl
  exact (List.nodup_cons.mp hnodup).1 (List.mem_append_right c (List.mem_map_of_mem he))

/-- Taken nodes are not cached. -/
theorem ne_of_cached (h : Ledger P m c ((p, b) :: rest)) : ∀ a ∈ c, a ≠ p := by
  intro a ha heq
  rw [heq] at ha
  exact h.not_mem_cached (List.mem_cons_self ..) ha

theorem disjoint {xs ys : List (ℕ × PersistentBuffer A O)} (h : Ledger P m c (xs ++ ys)) :
    ∀ a ∈ ys.map Prod.fst, a ∉ xs.map Prod.fst := by
  have hnodup : ((xs ++ ys).map Prod.fst).Nodup := (List.nodup_append.mp h.nodup).2.1
  rw [List.map_append] at hnodup
  intro a hy hx
  exact (List.nodup_append.mp hnodup).2.2 a hx a hy rfl

theorem perm_rest (h : Ledger P m c rest) (hp : rest.Perm rest') : Ledger P m c rest' := by
  refine { h with perm := ?_, value_eq := ?_ }
  · exact ((hp.symm.map Prod.fst).append_left c).trans h.perm
  · intro e he
    exact h.value_eq e (hp.mem_iff.mpr he)

/-- Links between the nodes that are not cached do not matter. -/
theorem of_preserves (h : Ledger P m c rest) {as : List ℕ} (hp : Preserves m.heap t.heap as)
    (has : ∀ a ∈ as, a ∈ rest.map Prod.fst) (hcached : t.cached = m.cached)
    (hcalls : t.calls = m.calls) : Ledger P t c rest := by
  have hdisjoint : ∀ a ∈ c, a ∉ as := by
    intro a hc ha
    obtain ⟨e, he, rfl⟩ := List.mem_map.mp (has a ha)
    exact h.not_mem_cached he hc
  refine ⟨?_, by rw [hcalls]; exact h.perm, by rw [hcalls]; exact h.inUse_nodup,
    by rw [hcalls]; exact h.outside, h.cached_slots, ?_, ?_, by rw [hcalls]; exact h.balanced⟩
  · rw [hcached]
    exact h.cached.of_preserves hp hdisjoint
  · intro p hmem
    rw [hp.value_eq]
    exact h.released p hmem
  · intro e he
    rw [hp.value_eq]
    exact h.value_eq e he

theorem of_eq (h : Ledger P m c rest) (hheap : t.heap = m.heap) (hcached : t.cached = m.cached)
    (hcalls : t.calls = m.calls) : Ledger P t c rest := by
  have hsame : Preserves m.heap t.heap [] := by
    rw [hheap]
    exact ⟨fun _ _ => rfl, fun _ => rfl⟩
  exact h.of_preserves hsame (fun a ha => absurd ha List.not_mem_nil) hcached hcalls

/-! ## Taking a node -/

/-- The first cached node. -/
theorem hold_cached (h : Ledger P m (p :: c) rest) (b : PersistentBuffer A O) :
    ∃ t, m.holdBuffer P b = some (p, t) ∧ Ledger P t c ((p, b) :: rest) ∧ Frame m t p := by
  have hc : ∀ a ∈ c, a ≠ p := by
    rintro a ha rfl
    exact (List.nodup_cons.mp h.cached.nodup).1 ha
  have hrest : ∀ e ∈ rest, e.1 ≠ p := by
    rintro e he rfl
    exact h.not_mem_cached he (List.mem_cons_self ..)
  obtain ⟨l, hpop, hl⟩ := popFront_spec h.cached
  obtain ⟨x, hx⟩ := h.cached.segment.alive (List.mem_cons_self ..)
  obtain ⟨H, hset, hvalue, hothers⟩ := setValue_spec hx b
  have hframe : Frame m { m with heap := H, cached := l } p := ⟨hothers, rfl, rfl, rfl⟩
  refine ⟨_, ?_, ?_, hframe⟩
  · rw [holdBuffer, h.cached.first_eq]
    simp only [List.head?_cons, hpop, hset, Option.bind_some, Option.map_some]
  · refine { h with cached := ?_, perm := ?_, cached_slots := ?_, released := ?_, value_eq := ?_ }
    · exact hl.congr fun a ha => hothers a (hc a ha)
    · exact List.perm_middle.trans h.perm
    · intro a ha
      exact h.cached_slots a (List.mem_cons_of_mem p ha)
    · intro a ha
      rw [hframe.value_eq (hc a ha)]
      exact h.released a (List.mem_cons_of_mem p ha)
    · intro e he
      rcases List.mem_cons.mp he with rfl | he
      · exact hvalue
      · rw [hframe.value_eq (hrest e he)]
        exact h.value_eq e he

/-- A new chunk. -/
theorem hold_pool (h : Ledger P m [] rest) (b : PersistentBuffer A O) :
    ∃ p t, m.holdBuffer P b = some (p, t) ∧ Ledger P t [] ((p, b) :: rest) ∧ Frame m t p := by
  let q := P.malloc m.calls
  have hrest : ∀ e ∈ rest, e.1 ≠ q := by
    intro e he hq
    rcases h.mem_slots_or_inUse (List.mem_map_of_mem he) with hslot | hpool
    · rw [hq] at hslot
      exact BufferPool.not_inBlock_malloc (BufferPool.inBlock_of_mem_slots hslot)
    · rw [hq] at hpool
      exact BufferPool.malloc_not_mem_inUse hpool
  have hframe : Frame m
      { m with heap := m.heap.construct q b, calls := .malloc q :: m.calls } q :=
    ⟨fun a ha => Function.update_of_ne ha _ _, rfl, rfl, rfl⟩
  refine ⟨q, _, ?_, ?_, hframe⟩
  · rw [holdBuffer, h.cached.first_eq]
    rfl
  · refine ⟨?_, ?_, ?_, ?_, h.cached_slots, nofun, ?_, ?_⟩
    · exact h.cached.congr nofun
    · exact (h.perm.cons _).trans List.perm_middle.symm
    · exact List.nodup_cons.mpr ⟨BufferPool.malloc_not_mem_inUse, h.inUse_nodup⟩
    · intro a ha
      rcases List.mem_cons.mp ha with heq | ha
      · obtain rfl : a = q := PoolCall.malloc.inj heq
        exact BufferPool.not_inBlock_malloc
      · exact h.outside a ha
    · intro e he
      rcases List.mem_cons.mp he with rfl | he
      · simp [Heap.value, Heap.construct]
      · rw [hframe.value_eq (hrest e he)]
        exact h.value_eq e he
    · intro a
      have hbalanced := h.balanced a
      simp only [inUse, List.count_cons, beq_iff_eq, PoolCall.malloc.injEq, reduceCtorEq, if_false]
      omega

theorem hold (h : Ledger P m c rest) (b : PersistentBuffer A O) :
    ∃ p t c', m.holdBuffer P b = some (p, t) ∧ Ledger P t c' ((p, b) :: rest) ∧ Frame m t p := by
  cases c with
  | nil =>
      obtain ⟨p, t, ht, hledger, hframe⟩ := h.hold_pool b
      exact ⟨p, t, [], ht, hledger, hframe⟩
  | cons p c =>
      obtain ⟨t, ht, hledger, hframe⟩ := h.hold_cached b
      exact ⟨p, t, c, ht, hledger, hframe⟩

/-! ## Giving a node back -/

/-- A slot returns to the cached list, without the storage. -/
theorem free_cached (h : Ledger P m c ((p, b) :: rest)) (hblock : P.InBlock p) :
    ∃ t, freeBuffer P p m = some t ∧ Ledger P t (p :: c) rest ∧ Frame m t p := by
  have hslot : p ∈ P.slots := by
    rcases h.mem_slots_or_inUse (List.mem_cons_self ..) with hslot | hpool
    · exact hslot
    · exact absurd hblock (h.not_inBlock hpool)
  have hp : p ∉ c := h.not_mem_cached (List.mem_cons_self ..)
  have hc := h.ne_of_cached
  have hvalue : m.heap.value p = some b := h.value_eq _ (List.mem_cons_self ..)
  obtain ⟨x, hx⟩ : ∃ x, m.heap p = some x := h.cell (List.mem_cons_self ..)
  obtain ⟨H, hset, hreset, hothers⟩ := setValue_spec hx { b with storage := none }
  have hcached : Represents H m.cached c := h.cached.congr fun a ha => hothers a (hc a ha)
  obtain ⟨y, hy, -⟩ := Option.map_eq_some_iff.mp hreset
  obtain ⟨H', l, hpush, hl, hpreserves⟩ := pushFront_spec hcached hp hy
  have hframe : Frame m { m with heap := H', cached := l } p := by
    refine ⟨?_, rfl, rfl, rfl⟩
    intro a ha
    exact (hpreserves.others a (by simpa using ha)).trans (hothers a ha)
  refine ⟨_, ?_, ?_, hframe⟩
  · rw [freeBuffer, if_pos hblock]
    simp only [hvalue, hset, hpush, Option.bind_some, Option.map_some]
  · refine { h with cached := hl, perm := ?_, cached_slots := ?_, released := ?_, value_eq := ?_ }
    · exact List.perm_middle.symm.trans h.perm
    · intro a ha
      rcases List.mem_cons.mp ha with rfl | ha
      · exact hslot
      · exact h.cached_slots a ha
    · intro a ha
      rcases List.mem_cons.mp ha with rfl | ha
      · exact ⟨_, (hpreserves.value_eq a).trans hreset, rfl⟩
      · rw [hframe.value_eq (hc a ha)]
        exact h.released a ha
    · intro e he
      rw [hframe.value_eq (h.ne_of_cons e he)]
      exact h.value_eq e (List.mem_cons_of_mem _ he)

/-- A chunk returns to the pool. -/
theorem free_pool (h : Ledger P m c ((p, b) :: rest)) (hblock : ¬ P.InBlock p) :
    ∃ t, freeBuffer P p m = some t ∧ Ledger P t c rest ∧ Frame m t p := by
  have hpool : p ∈ inUse m.calls := by
    rcases h.mem_slots_or_inUse (List.mem_cons_self ..) with hslot | hpool
    · exact absurd (BufferPool.inBlock_of_mem_slots hslot) hblock
    · exact hpool
  have hc := h.ne_of_cached
  have hframe : Frame m { m with heap := m.heap.destroy p, calls := .free p :: m.calls } p :=
    ⟨fun a ha => Function.update_of_ne ha _ _, rfl, rfl, rfl⟩
  refine ⟨_, ?_, ?_, hframe⟩
  · rw [freeBuffer, if_neg hblock, if_pos hpool]
  · refine ⟨?_, ?_, h.inUse_nodup.erase p, ?_, h.cached_slots, ?_, ?_, ?_⟩
    · exact h.cached.congr fun a ha => hframe.heap_eq a (hc a ha)
    · have hcons : (p :: (c ++ rest.map Prod.fst)).Perm
          (p :: (P.slots ++ (inUse m.calls).erase p)) :=
        calc (p :: (c ++ rest.map Prod.fst)).Perm (c ++ p :: rest.map Prod.fst) :=
              List.perm_middle.symm
          _ |>.Perm (P.slots ++ inUse m.calls) := h.perm
          _ |>.Perm (P.slots ++ p :: (inUse m.calls).erase p) :=
              (List.perm_cons_erase hpool).append_left _
          _ |>.Perm (p :: (P.slots ++ (inUse m.calls).erase p)) := List.perm_middle
      exact hcons.cons_inv
    · intro q hq
      rcases List.mem_cons.mp hq with heq | hq
      · exact PoolCall.noConfusion heq
      · exact h.outside q hq
    · intro a ha
      rw [hframe.value_eq (hc a ha)]
      exact h.released a ha
    · intro e he
      rw [hframe.value_eq (h.ne_of_cons e he)]
      exact h.value_eq e (List.mem_cons_of_mem _ he)
    · intro q
      have hbalanced := h.balanced q
      have hcount : 0 < (inUse m.calls).count p := List.count_pos_iff.mpr hpool
      simp only [inUse, List.count_cons, List.count_erase, beq_iff_eq, PoolCall.free.injEq,
        reduceCtorEq, if_false]
      split
      · subst q
        omega
      · omega

theorem free (h : Ledger P m c ((p, b) :: rest)) :
    ∃ t c', freeBuffer P p m = some t ∧ Ledger P t c' rest ∧ Frame m t p := by
  by_cases hblock : P.InBlock p
  · obtain ⟨t, ht, hledger, hframe⟩ := h.free_cached hblock
    exact ⟨t, p :: c, ht, hledger, hframe⟩
  · obtain ⟨t, ht, hledger, hframe⟩ := h.free_pool hblock
    exact ⟨t, c, ht, hledger, hframe⟩

end Ledger

/-! ## The constructor -/

/-- The first slots are in the cached list, and nothing else has happened. -/
structure Constructed (P : BufferPool) (m : PersistentBufferManager A O) (i : ℕ) : Prop where
  cached : Represents m.heap m.cached ((List.range i).map P.slot).reverse
  value_eq : ∀ j < i, m.heap.value (P.slot j) = some {}
  managed_eq : m.managed = {}
  marked_eq : m.marked = {}
  marker_eq : m.marker = 0
  calls_eq : m.calls = []

theorem Constructed.step {i : ℕ} (h : Constructed P m i) :
    ∃ H l, m.cached.pushFront (m.heap.construct (P.slot i) {}) (P.slot i) = some (H, l) ∧
      Constructed P { m with heap := H, cached := l } (i + 1) := by
  have hne : ∀ a ∈ ((List.range i).map P.slot).reverse, a ≠ P.slot i := by
    intro a ha heq
    obtain ⟨j, hj, rfl⟩ := List.mem_map.mp (List.mem_reverse.mp ha)
    exact absurd (BufferPool.slot_injective heq) (Nat.ne_of_lt (List.mem_range.mp hj))
  have hcached : Represents (m.heap.construct (P.slot i) {}) m.cached
      ((List.range i).map P.slot).reverse :=
    h.cached.congr fun a ha => Function.update_of_ne (hne a ha) _ _
  have hcell : m.heap.construct (P.slot i) {} (P.slot i) = some ⟨none, {}⟩ :=
    Function.update_self _ _ _
  obtain ⟨H, l, hpush, hl, hpreserves⟩ :=
    pushFront_spec hcached (fun ha => hne _ ha rfl) hcell
  refine ⟨H, l, hpush, { h with cached := ?_, value_eq := ?_ }⟩
  · rw [List.range_succ, List.map_append, List.reverse_append]
    exact hl
  · intro j hj
    rw [hpreserves.value_eq]
    rcases Nat.lt_succ_iff_lt_or_eq.mp hj with hj | rfl
    · have hslot : P.slot j ≠ P.slot i := by
        intro heq
        exact Nat.ne_of_lt hj (BufferPool.slot_injective heq)
      have hvalue := h.value_eq j hj
      rwa [Heap.value, Heap.construct, Function.update_of_ne hslot]
    · rw [Heap.value, hcell]
      rfl

theorem Constructed.fillCache {i n : ℕ} (h : Constructed P m i) (hn : i + n = P.cached) :
    ∃ t, (∀ fuel, fillCache P fuel (P.slot i) m = if n < fuel then some t else none) ∧
      Constructed P t P.cached := by
  induction n generalizing i m with
  | zero =>
      obtain rfl : i = P.cached := hn
      refine ⟨m, ?_, h⟩
      intro fuel
      cases fuel with
      | zero => rfl
      | succ fuel =>
          have hend : ¬ P.slot P.cached < P.second := BufferPool.slot_lt_second.not.mpr (by omega)
          rw [PersistentBufferManager.fillCache, if_neg hend, if_pos (Nat.succ_pos fuel)]
  | succ n ih =>
      obtain ⟨H, l, hpush, hnext⟩ := h.step
      obtain ⟨t, ht, hconstructed⟩ := ih hnext (by omega)
      refine ⟨t, ?_, hconstructed⟩
      intro fuel
      cases fuel with
      | zero => rfl
      | succ fuel =>
          have hlt : P.slot i < P.second := BufferPool.slot_lt_second.mpr (by omega)
          rw [PersistentBufferManager.fillCache, if_pos hlt, hpush, Option.bind_some]
          simp only [← BufferPool.slot_succ, ht fuel, Nat.add_lt_add_iff_right]

theorem Constructed.ledger (h : Constructed P m P.cached) : Ledger P m P.slots.reverse [] := by
  have hslots : ∀ p ∈ P.slots.reverse, p ∈ P.slots := fun p hp => List.mem_reverse.mp hp
  refine ⟨h.cached, ?_, ?_, ?_, hslots, ?_, nofun, ?_⟩
  · rw [h.calls_eq, List.map_nil, List.append_nil, inUse, List.append_nil]
    exact List.reverse_perm _
  · rw [h.calls_eq]
    exact List.nodup_nil
  · rw [h.calls_eq]
    exact nofun
  · intro p hp
    obtain ⟨j, hj, rfl⟩ := List.mem_map.mp (hslots p hp)
    exact ⟨{}, h.value_eq j (List.mem_range.mp hj), rfl⟩
  · intro q
    rw [h.calls_eq]
    rfl

/-- The constructor comes to an end, with all slots in the cached list. -/
theorem construct_spec (P : BufferPool) :
    ∃ t : PersistentBufferManager A O,
      (∀ fuel, construct P fuel = if P.cached < fuel then some t else none) ∧
        Constructed P t P.cached := by
  have hstart : Constructed P ({} : PersistentBufferManager A O) 0 :=
    ⟨represents_nil _, nofun, rfl, rfl, rfl, rfl⟩
  have hfirst : P.slot 0 = P.first := by rw [BufferPool.slot, Nat.zero_mul, Nat.add_zero]
  obtain ⟨t, ht, hconstructed⟩ := hstart.fillCache (Nat.zero_add _)
  rw [hfirst] at ht
  exact ⟨t, ht, hconstructed⟩

end PersistentBufferManager

end Minapp
