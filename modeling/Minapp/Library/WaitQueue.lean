import Mathlib.Data.Nat.Notation
import Mathlib.Data.List.Basic

/-! The threads blocked in the waiting operations of one atomic object. A notification
unblocks only those that have blocked before a modification that happened before it. -/

/-- The number of modifications of the object, and the threads that are blocked, each with
the number of modifications it had observed then. -/
structure WaitQueue (T : Type*) where
  version : ℕ := 0
  waiters : List (T × ℕ) := []
  deriving DecidableEq

namespace WaitQueue

variable {T : Type*} (q : WaitQueue T)

def Blocked (a : T) : Prop := ∃ k, (a, k) ∈ q.waiters

/-- The object is modified. -/
def modify : WaitQueue T := { q with version := q.version + 1 }

/-- Thread `a` has found the old value, and blocks. -/
def block (a : T) : WaitQueue T := { q with waiters := q.waiters ++ [(a, q.version)] }

/-- `notify_all` after modification `m`. -/
def notifyAll (m : ℕ) : WaitQueue T :=
  { q with waiters := q.waiters.filter fun w => ¬w.2 < m }

section

variable [DecidableEq T]

instance (a : T) : Decidable (q.Blocked a) :=
  decidable_of_iff (a ∈ q.waiters.map Prod.fst) <| by simp [Blocked]

/-- Thread `a` is unblocked, and compares the value again. -/
def unblock (a : T) : WaitQueue T := { q with waiters := q.waiters.filter fun w => w.1 ≠ a }

/-- A waiter can be unblocked by a notification after modification `m`. -/
def Eligible (m : ℕ) (a : T) : Prop := ∃ k < m, (a, k) ∈ q.waiters

instance (m : ℕ) (a : T) : Decidable (q.Eligible m a) :=
  decidable_of_iff (∃ w ∈ q.waiters, w.1 = a ∧ w.2 < m) <| by
    constructor
    · rintro ⟨⟨_, k⟩, hw, rfl, hk⟩
      exact ⟨k, hk, hw⟩
    · rintro ⟨k, hk, hw⟩
      exact ⟨(a, k), hw, rfl, hk⟩

/-- `notify_one` after modification `m` unblocks `woken`, if any can be. -/
def notifyOne (m : ℕ) : Option T → Option (WaitQueue T)
  | some a => if q.Eligible m a then some (q.unblock a) else none
  | none => if ∀ w ∈ q.waiters, ¬w.2 < m then some q else none

end

/-- No waiter has observed a modification that is still to come, and each blocks once. -/
structure Valid : Prop where
  observed : ∀ w ∈ q.waiters, w.2 ≤ q.version
  once : ∀ a k k', (a, k) ∈ q.waiters → (a, k') ∈ q.waiters → k = k'

variable {q} {a b : T} {m : ℕ}

@[simp] theorem version_modify : q.modify.version = q.version + 1 := rfl

@[simp] theorem version_block : (q.block a).version = q.version := rfl

@[simp] theorem blocked_modify : q.modify.Blocked b ↔ q.Blocked b := .rfl

theorem blocked_block : (q.block a).Blocked b ↔ q.Blocked b ∨ b = a := by
  simp [Blocked, block, exists_or]

theorem Valid.empty : ({} : WaitQueue T).Valid :=
  ⟨fun _ hw => absurd hw List.not_mem_nil, fun _ _ _ hk => absurd hk List.not_mem_nil⟩

/-- It is kept by all that adds no waiter and undoes no modification. -/
theorem Valid.of_subset {q' : WaitQueue T} (h : q.Valid)
    (hsub : ∀ w ∈ q'.waiters, w ∈ q.waiters) (hle : q.version ≤ q'.version) : q'.Valid where
  observed w hw := Nat.le_trans (h.observed w (hsub w hw)) hle
  once a k k' hk hk' := h.once a k k' (hsub _ hk) (hsub _ hk')

theorem Valid.modify (h : q.Valid) : q.modify.Valid :=
  h.of_subset (fun _ hw => hw) (Nat.le_succ _)

theorem Valid.block (h : q.Valid) (ha : ¬q.Blocked a) : (q.block a).Valid where
  observed w hw := by
    rcases List.mem_append.mp hw with hw | hw
    · exact h.observed w hw
    · rw [List.mem_singleton.mp hw]
      exact Nat.le_refl _
  once b k k' hk hk' := by
    rcases List.mem_append.mp hk with hold | hnew
    · rcases List.mem_append.mp hk' with hold' | hnew'
      · exact h.once b k k' hold hold'
      · obtain ⟨rfl, -⟩ := Prod.mk.inj (List.mem_singleton.mp hnew')
        exact absurd ⟨k, hold⟩ ha
    · obtain ⟨rfl, rfl⟩ := Prod.mk.inj (List.mem_singleton.mp hnew)
      rcases List.mem_append.mp hk' with hold' | hnew'
      · exact absurd ⟨k', hold'⟩ ha
      · exact (Prod.mk.inj (List.mem_singleton.mp hnew')).2.symm

@[simp] theorem version_notifyAll : (q.notifyAll m).version = q.version := rfl

theorem Valid.notifyAll (h : q.Valid) : (q.notifyAll m).Valid :=
  h.of_subset (fun _ hw => List.mem_of_mem_filter hw) (Nat.le_refl _)

/-- A notification after a later modification than those all waiters have observed unblocks
every one of them. -/
theorem mem_notifyAll {k : ℕ} : (a, k) ∈ (q.notifyAll m).waiters ↔ (a, k) ∈ q.waiters ∧ m ≤ k := by
  simp [notifyAll]

theorem blocked_of_notifyAll (h : (q.notifyAll m).Blocked a) : q.Blocked a := by
  obtain ⟨k, hk⟩ := h
  exact ⟨k, (mem_notifyAll.mp hk).1⟩

theorem not_blocked_notifyAll (h : ∀ k, (a, k) ∈ q.waiters → k < m) :
    ¬(q.notifyAll m).Blocked a := by
  rintro ⟨k, hk⟩
  obtain ⟨hmem, hle⟩ := mem_notifyAll.mp hk
  exact absurd (h k hmem) (Nat.not_lt.mpr hle)

section

variable [DecidableEq T]

@[simp] theorem version_unblock : (q.unblock a).version = q.version := rfl

theorem blocked_unblock : (q.unblock a).Blocked b ↔ q.Blocked b ∧ b ≠ a := by
  simp [Blocked, unblock]

theorem blocked_of_unblock (h : (q.unblock a).Blocked b) : q.Blocked b :=
  (blocked_unblock.mp h).1

theorem not_blocked_unblock : ¬(q.unblock a).Blocked a := fun h => (blocked_unblock.mp h).2 rfl

theorem Valid.unblock (h : q.Valid) : (q.unblock a).Valid :=
  h.of_subset (fun _ hw => List.mem_of_mem_filter hw) (Nat.le_refl _)

/-- What `notify_one` does: it unblocks one thread, or none can be unblocked. -/
theorem notifyOne_eq_some {woken : Option T} {q' : WaitQueue T}
    (h : q.notifyOne m woken = some q') :
    (∃ a, woken = some a ∧ q.Eligible m a ∧ q' = q.unblock a) ∨
      (woken = none ∧ (∀ w ∈ q.waiters, m ≤ w.2) ∧ q' = q) := by
  cases woken with
  | some a =>
      rw [notifyOne] at h
      split at h
      · exact .inl ⟨a, rfl, ‹_›, (Option.some.inj h).symm⟩
      · cases h
  | none =>
      rw [notifyOne] at h
      split at h
      · rename_i hall
        exact .inr ⟨rfl, fun w hw => Nat.not_lt.mp (hall w hw), (Option.some.inj h).symm⟩
      · cases h

theorem Valid.notifyOne {woken : Option T} {q' : WaitQueue T} (h : q.Valid)
    (hq : q.notifyOne m woken = some q') : q'.Valid := by
  rcases notifyOne_eq_some hq with ⟨a, -, -, rfl⟩ | ⟨-, -, rfl⟩
  · exact h.unblock
  · exact h

theorem version_notifyOne {woken : Option T} {q' : WaitQueue T}
    (hq : q.notifyOne m woken = some q') : q'.version = q.version := by
  rcases notifyOne_eq_some hq with ⟨a, -, -, rfl⟩ | ⟨-, -, rfl⟩ <;> rfl

/-- `notify_one` can always be executed. -/
theorem exists_notifyOne (q : WaitQueue T) (m : ℕ) : ∃ woken q', q.notifyOne m woken = some q' := by
  by_cases h : ∀ w ∈ q.waiters, ¬w.2 < m
  · exact ⟨none, q, if_pos h⟩
  · push Not at h
    obtain ⟨⟨a, k⟩, hw, hk⟩ := h
    exact ⟨some a, q.unblock a, if_pos ⟨k, hk, hw⟩⟩

end

end WaitQueue
