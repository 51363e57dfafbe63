import Minapp.Model.Spinlock

/-! # The spinlock

At most one thread has it, and a thread blocked on the flag is not forgotten: while the flag
is clear, some thread is about to try again or about to notify. -/

namespace Minapp

variable {T : Type*} [DecidableEq T] {build : SpinBuild}

/-! ## What a step can do -/

inductive SpinStep (build : SpinBuild) (a : T) (s : SpinState T) (l : SpinThread) :
    SpinState T → SpinThread → Prop
  | enter {locks} : l.place = .idle → SpinStep build a s l s { l with place := .testAndSet locks }
  | unlock : l.place = .idle → l.holds = true → SpinStep build a s l s { l with place := .clear }
  | fail {locks} : l.place = .testAndSet locks → s.guard = true →
      SpinStep build a s l { guard := true, queue := s.queue.modify }
        { l with place := if locks then build.afterFailure else .idle }
  | acquire {locks} : l.place = .testAndSet locks → s.guard = false →
      SpinStep build a s l { guard := true, queue := s.queue.modify }
        { place := .idle, holds := true }
  | block : l.place = .wait → ¬s.queue.Blocked a → s.guard = true →
      SpinStep build a s l { s with queue := s.queue.block a } l
  | poll : l.place = .test → SpinStep build a s l s l
  | retry : l.place = .wait ∧ ¬s.queue.Blocked a ∨ l.place = .test → s.guard = false →
      SpinStep build a s l s { l with place := .testAndSet true }
  | clear : l.place = .clear →
      SpinStep build a s l { guard := false, queue := s.queue.modify }
        { place := build.afterClear (s.queue.version + 1), holds := false }
  | notify {m woken queue} : l.place = .notifyOne m → s.queue.notifyOne m woken = some queue →
      SpinStep build a s l { s with queue } { l with place := .idle }
  | unblock : s.queue.Blocked a →
      SpinStep build a s l { s with queue := s.queue.unblock a } l

theorem SpinState.access_cases {a : T} {s s' : SpinState T} {l l' : SpinThread}
    (h : s.access build a l = some (s', l')) : SpinStep build a s l s' l' := by
  unfold SpinState.access at h
  split at h
  · rename_i locks hplace
    cases hg : s.guard with
    | true =>
        simp only [hg, if_true, Option.some.injEq, Prod.mk.injEq] at h
        rw [← h.1, ← h.2]
        exact .fail hplace hg
    | false =>
        simp only [hg, Bool.false_eq_true, if_false, Option.some.injEq, Prod.mk.injEq] at h
        rw [← h.1, ← h.2]
        exact .acquire hplace hg
  · rename_i hplace
    split at h
    · cases h
    · rename_i hblocked
      cases hg : s.guard with
      | true =>
          simp only [hg, if_true, Option.some.injEq, Prod.mk.injEq] at h
          rw [← h.1, ← h.2, ← hg]
          exact .block hplace hblocked hg
      | false =>
          simp only [hg, Bool.false_eq_true, if_false, Option.some.injEq, Prod.mk.injEq] at h
          rw [← h.1, ← h.2]
          exact .retry (.inl ⟨hplace, hblocked⟩) hg
  · rename_i hplace
    cases hg : s.guard with
    | true =>
        simp only [hg, if_true, Option.some.injEq, Prod.mk.injEq] at h
        rw [← h.1, ← h.2]
        exact .poll hplace
    | false =>
        simp only [hg, Bool.false_eq_true, if_false, Option.some.injEq, Prod.mk.injEq] at h
        rw [← h.1, ← h.2]
        exact .retry (.inr hplace) hg
  · rename_i hplace
    simp only [Option.some.injEq, Prod.mk.injEq] at h
    rw [← h.1, ← h.2]
    exact .clear hplace
  all_goals cases h

theorem SpinState.act_cases {a : T} {s s' : SpinState T} {l l' : SpinThread} {e : SpinEvent T}
    (h : s.act build a l e = some (s', l')) : SpinStep build a s l s' l' := by
  cases e with
  | run => exact SpinState.access_cases h
  | lock | tryLock =>
      simp only [SpinState.act, Option.ite_none_right_eq_some, Option.some.injEq,
        Prod.mk.injEq] at h
      rw [← h.2.1, ← h.2.2]
      exact .enter h.1
  | unlock =>
      simp only [SpinState.act, Option.ite_none_right_eq_some, Option.some.injEq,
        Prod.mk.injEq] at h
      rw [← h.2.1, ← h.2.2]
      exact .unlock h.1.1 h.1.2
  | notify woken =>
      simp only [SpinState.act] at h
      split at h
      · rename_i m hplace
        obtain ⟨queue, hqueue, heq⟩ := Option.map_eq_some_iff.mp h
        simp only [Prod.mk.injEq] at heq
        rw [← heq.1, ← heq.2]
        exact .notify hplace hqueue
      · cases h
  | unblock =>
      simp only [SpinState.act, Option.ite_none_right_eq_some, Option.some.injEq,
        Prod.mk.injEq] at h
      rw [← h.2.1, ← h.2.2]
      exact .unblock h.1

/-! ## Mutual exclusion -/

/-- The flag is set exactly while a thread has the lock, and no two have it. -/
structure Spinlock.Exclusive (c : Spinlock T) : Prop where
  unique : ∀ a b, (c.pc a).holds = true → (c.pc b).holds = true → a = b
  guarded : c.shared.guard = true ↔ ∃ a, (c.pc a).holds = true
  clearing : ∀ a, (c.pc a).place = .clear → (c.pc a).holds = true

namespace Spinlock.Exclusive

variable {c : Spinlock T} {a : T} {s : SpinState T} {l : SpinThread}

/-- A step that neither takes the lock nor gives it back. -/
theorem move_of_eq (hc : c.Exclusive) (hs : s.guard = c.shared.guard)
    (hl : l.holds = (c.pc a).holds) (hclear : l.place = .clear → l.holds = true) :
    Spinlock.Exclusive (c.move a s l) := by
  have hholds : ∀ b, ((c.move a s l).pc b).holds = (c.pc b).holds :=
    Config.forall_pc_move (P := fun b (k : SpinThread) => k.holds = (c.pc b).holds) hl
      fun _ _ => rfl
  constructor
  · intro b b' hb hb'
    exact hc.unique b b' (hholds b ▸ hb) (hholds b' ▸ hb')
  · simp only [Config.move_shared, hs, hholds]
    exact hc.guarded
  · exact Config.forall_pc_move (P := fun _ (k : SpinThread) => k.place = .clear → k.holds = true)
      hclear fun b _ => hc.clearing b

theorem acquire (hc : c.Exclusive) (hfree : c.shared.guard = false) (hs : s.guard = true) :
    Spinlock.Exclusive (c.move a s { place := .idle, holds := true }) := by
  have hnone : ∀ b, (c.pc b).holds ≠ true := by
    intro b hb
    exact absurd (hfree.symm.trans (hc.guarded.mpr ⟨b, hb⟩)) (by decide)
  have honly : ∀ b, ((c.move a s { place := .idle, holds := true }).pc b).holds = true → b = a := by
    intro b hb
    by_contra hne
    rw [Config.move_pc_of_ne c hne] at hb
    exact hnone b hb
  constructor
  · intro b b' hb hb'
    exact (honly b hb).trans (honly b' hb').symm
  · refine ⟨fun _ => ⟨a, ?_⟩, fun _ => hs⟩
    rw [Config.move_pc_self]
  · exact Config.forall_pc_move (P := fun _ (k : SpinThread) => k.place = .clear → k.holds = true)
      (fun _ => rfl) fun b _ => hc.clearing b

theorem release (hc : c.Exclusive) (ha : (c.pc a).holds = true) (hs : s.guard = false)
    (hl : l.holds = false) (hclear : l.place ≠ .clear) :
    Spinlock.Exclusive (c.move a s l) := by
  have hnone : ∀ b, ((c.move a s l).pc b).holds ≠ true := by
    refine Config.forall_pc_move (P := fun _ (k : SpinThread) => k.holds ≠ true) (by simp [hl]) ?_
    intro b hne hb
    exact hne (hc.unique b a hb ha)
  constructor
  · intro b _ hb
    exact absurd hb (hnone b)
  · refine ⟨fun h => absurd (hs.symm.trans h) (by decide), ?_⟩
    rintro ⟨b, hb⟩
    exact absurd hb (hnone b)
  · exact Config.forall_pc_move (P := fun _ (k : SpinThread) => k.place = .clear → k.holds = true)
      (fun h => absurd h hclear) fun b _ => hc.clearing b

end Spinlock.Exclusive

theorem SpinBuild.afterFailure_ne_clear : build.afterFailure ≠ .clear := by
  cases build <;> exact SpinPlace.noConfusion

theorem SpinBuild.afterClear_ne_clear (m : ℕ) : build.afterClear m ≠ .clear := by
  cases build <;> exact SpinPlace.noConfusion

theorem Spinlock.Exclusive.step {c : Spinlock T} {a : T} {s : SpinState T} {l : SpinThread}
    (hc : c.Exclusive) (h : SpinStep build a c.shared (c.pc a) s l) :
    Spinlock.Exclusive (c.move a s l) := by
  cases h with
  | enter => exact hc.move_of_eq rfl rfl fun h => SpinPlace.noConfusion h
  | unlock _ hholds => exact hc.move_of_eq rfl rfl fun _ => hholds
  | @fail locks _ hset =>
      refine hc.move_of_eq hset.symm rfl fun h => absurd h ?_
      cases locks
      · exact SpinPlace.noConfusion
      · exact SpinBuild.afterFailure_ne_clear
  | acquire _ hfree => exact hc.acquire hfree rfl
  | block | poll | unblock => exact hc.move_of_eq rfl rfl (hc.clearing a)
  | retry => exact hc.move_of_eq rfl rfl fun h => SpinPlace.noConfusion h
  | clear hplace =>
      exact hc.release (hc.clearing a hplace) rfl rfl (SpinBuild.afterClear_ne_clear _)
  | notify => exact hc.move_of_eq rfl rfl fun h => SpinPlace.noConfusion h

theorem exclusive_of_reachable {c : Spinlock T} (h : (spinlockSystem T build).Reachable c) :
    c.Exclusive := by
  apply h.invariant
  · rintro _ rfl
    constructor <;> simp
  · rintro c ⟨a, e⟩ d hc hd
    obtain ⟨s, l, hs, rfl⟩ := Config.step_eq_some hd
    exact hc.step (SpinState.act_cases hs)

/-! ## Blocked threads -/

/-- The thread is about to try again. -/
def Spinlock.Awake (c : Spinlock T) (a : T) : Prop :=
  (c.pc a).place = .testAndSet true ∨ (c.pc a).place = .wait ∧ ¬c.shared.queue.Blocked a

/-- Only threads in `lock` are blocked, before the flag was cleared last; then one is awake, or
the thread that has cleared the flag has still to notify. -/
structure Spinlock.Attended (build : SpinBuild) (c : Spinlock T) : Prop where
  valid : c.shared.queue.Valid
  waits : ∀ a, c.shared.queue.Blocked a → (c.pc a).place = .wait
  build : ∀ a, (c.pc a).place = .wait → build = .wait
  older : c.shared.guard = false → ∀ w ∈ c.shared.queue.waiters, w.2 < c.shared.queue.version
  served : c.shared.guard = false → (∃ a, c.shared.queue.Blocked a) →
    ∃ b, c.Awake b ∨ (c.pc b).place = .notifyOne c.shared.queue.version

theorem SpinBuild.afterFailure_wait (h : build.afterFailure = .wait) : build = .wait := by
  cases build with
  | wait => rfl
  | test | neither => cases h

theorem SpinBuild.afterClear_ne_wait (m : ℕ) : build.afterClear m ≠ .wait := by
  cases build <;> exact SpinPlace.noConfusion

namespace Spinlock.Attended

variable {c : Spinlock T} {a : T} {s : SpinState T} {l : SpinThread}

/-- A thread moves without an access that changes the shared state. -/
theorem move_same (hc : c.Attended build) (hwait : l.place = .wait → build = .wait)
    (hblocked : c.shared.queue.Blocked a → l.place = .wait)
    (hawake : c.Awake a → l.place = .testAndSet true ∨ l.place = .wait)
    (hnotify : ∀ m, (c.pc a).place ≠ .notifyOne m) :
    Spinlock.Attended build (c.move a c.shared l) := by
  constructor
  · exact hc.valid
  · refine Config.forall_pc_move (P := fun b (k : SpinThread) =>
      c.shared.queue.Blocked b → k.place = .wait) hblocked fun b _ => hc.waits b
  · exact Config.forall_pc_move (P := fun _ (k : SpinThread) => k.place = .wait → build = .wait)
      hwait fun b _ => hc.build b
  · exact hc.older
  · intro hfree hany
    obtain ⟨b, hb⟩ := hc.served hfree hany
    refine ⟨b, ?_⟩
    rcases eq_or_ne b a with rfl | hne
    · have hb := hb.resolve_right (hnotify _)
      have hnot : ¬c.shared.queue.Blocked b ∨ l.place = .testAndSet true := by
        rcases hb with hb | hb
        · refine .inl fun hbl => ?_
          rw [hc.waits b hbl] at hb
          cases hb
        · exact .inl hb.2
      rw [Spinlock.Awake, Config.move_pc_self]
      rcases hawake hb with h | h
      · exact .inl (.inl h)
      · exact hnot.elim (fun hn => .inl (.inr ⟨h, hn⟩)) fun h => .inl (.inl h)
    · rw [Spinlock.Awake, Config.move_pc_of_ne c hne]
      exact hb

/-- After the step the flag is set. -/
theorem move_set (hc : c.Attended build) (hwait : l.place = .wait → build = .wait)
    (hvalid : s.queue.Valid) (hset : s.guard = true)
    (hblocked : s.queue.Blocked a → l.place = .wait)
    (hothers : ∀ b ≠ a, s.queue.Blocked b → c.shared.queue.Blocked b) :
    Spinlock.Attended build (c.move a s l) := by
  have hfree : ¬s.guard = false := by simp [hset]
  constructor
  · exact hvalid
  · exact Config.forall_pc_move (P := fun b (k : SpinThread) =>
      s.queue.Blocked b → k.place = .wait) hblocked fun b hne hb => hc.waits b (hothers b hne hb)
  · exact Config.forall_pc_move (P := fun _ (k : SpinThread) => k.place = .wait → build = .wait)
      hwait fun b _ => hc.build b
  · exact fun h => absurd h hfree
  · exact fun h => absurd h hfree

/-- The thread `b` is unblocked. -/
theorem move_unblock {b : T} (hc : c.Attended build) (hb : c.shared.queue.Blocked b)
    (hwait : l.place = .wait → build = .wait)
    (hplace : l.place = (c.pc a).place ∨ a ≠ b ∧ (c.pc a).place ≠ .wait) :
    Spinlock.Attended build
      (c.move a { c.shared with queue := c.shared.queue.unblock b } l) := by
  have hbwait := hc.waits b hb
  constructor
  · exact hc.valid.unblock
  · refine Config.forall_pc_move (P := fun b' (k : SpinThread) =>
      (c.shared.queue.unblock b).Blocked b' → k.place = .wait) ?_ fun b' _ hb' =>
        hc.waits b' (WaitQueue.blocked_of_unblock hb')
    intro ha
    have ha := hc.waits a (WaitQueue.blocked_of_unblock ha)
    rcases hplace with h | h
    · exact h.trans ha
    · exact absurd ha h.2
  · exact Config.forall_pc_move (P := fun _ (k : SpinThread) => k.place = .wait → build = .wait)
      hwait fun b _ => hc.build b
  · intro hfree w hw
    exact hc.older hfree w (List.mem_of_mem_filter hw)
  · intro _ _
    refine ⟨b, .inl (.inr ⟨?_, WaitQueue.not_blocked_unblock⟩)⟩
    rcases eq_or_ne b a with rfl | hne
    · rw [Config.move_pc_self]
      rcases hplace with h | h
      · exact h.trans hbwait
      · exact absurd rfl h.1
    · rw [Config.move_pc_of_ne c hne]
      exact hbwait

end Spinlock.Attended

theorem Spinlock.Attended.step {c : Spinlock T} {a : T} {s : SpinState T} {l : SpinThread}
    (hc : c.Attended build) (h : SpinStep build a c.shared (c.pc a) s l) :
    Spinlock.Attended build (c.move a s l) := by
  have hnotBlocked : ∀ {k}, (c.pc a).place = k → k ≠ .wait → ¬c.shared.queue.Blocked a :=
    fun hk hne hb => hne (hk.symm.trans (hc.waits a hb))
  cases h with
  | enter hplace | unlock hplace =>
      refine hc.move_same (fun h => SpinPlace.noConfusion h)
        (fun hb => absurd hb (hnotBlocked hplace SpinPlace.noConfusion)) ?_ ?_
      · rintro (h | h)
        · rw [hplace] at h
          cases h
        · rw [hplace] at h
          cases h.1
      · intro m
        rw [hplace]
        exact SpinPlace.noConfusion
  | @fail locks hplace hset =>
      refine hc.move_set ?_ hc.valid.modify rfl
        (fun hb => absurd hb (hnotBlocked hplace SpinPlace.noConfusion)) fun _ _ hb => hb
      intro h
      cases locks with
      | true => exact SpinBuild.afterFailure_wait h
      | false => cases h
  | acquire hplace hfree =>
      exact hc.move_set (fun h => SpinPlace.noConfusion h) hc.valid.modify rfl
        (fun hb => absurd hb (hnotBlocked hplace SpinPlace.noConfusion)) fun _ _ hb => hb
  | block hplace hblocked hset =>
      refine hc.move_set (hc.build a) (hc.valid.block hblocked) hset (fun _ => hplace)
        fun b hne hb => ?_
      exact (WaitQueue.blocked_block.mp hb).resolve_right hne
  | poll hplace =>
      refine hc.move_same (hc.build a) (hc.waits a) (fun h => h.imp_right And.left) ?_
      intro m
      rw [hplace]
      exact SpinPlace.noConfusion
  | retry hplace hfree =>
      refine hc.move_same (fun h => SpinPlace.noConfusion h) ?_ (fun _ => .inl rfl) ?_
      · intro hb
        rcases hplace with h | h
        · exact absurd hb h.2
        · exact absurd hb (hnotBlocked h SpinPlace.noConfusion)
      · intro m h
        rw [h] at hplace
        rcases hplace with h | h
        · cases h.1
        · cases h
  | clear hplace =>
      have hlt : ∀ w ∈ c.shared.queue.waiters, w.2 < c.shared.queue.version + 1 :=
        fun w hw => Nat.lt_succ_of_le (hc.valid.observed w hw)
      constructor
      · exact hc.valid.modify
      · exact Config.forall_pc_move (P := fun b (k : SpinThread) =>
          c.shared.queue.Blocked b → k.place = .wait)
          (fun hb => absurd hb (hnotBlocked hplace SpinPlace.noConfusion)) fun b _ => hc.waits b
      · exact Config.forall_pc_move (P := fun _ (k : SpinThread) => k.place = .wait → build = .wait)
          (fun h => absurd h (SpinBuild.afterClear_ne_wait _)) fun b _ => hc.build b
      · exact fun _ => hlt
      · -- whoever is blocked shows that `unlock` notifies in this build
        rintro - ⟨b, hb⟩
        refine ⟨a, .inr ?_⟩
        rw [Config.move_pc_self, hc.build b (hc.waits b hb)]
        rfl
  | @notify m woken queue hplace hqueue =>
      rcases WaitQueue.notifyOne_eq_some hqueue with ⟨b, -, ⟨k, hk, hb⟩, rfl⟩ | ⟨-, hnone, rfl⟩
      · have hb : c.shared.queue.Blocked b := ⟨k, hb⟩
        refine hc.move_unblock hb (fun h => SpinPlace.noConfusion h) (.inr ⟨?_, ?_⟩)
        · rintro rfl
          exact hnotBlocked hplace SpinPlace.noConfusion hb
        · rw [hplace]
          exact SpinPlace.noConfusion
      · constructor
        · exact hc.valid
        · exact Config.forall_pc_move (P := fun b (k : SpinThread) =>
            c.shared.queue.Blocked b → k.place = .wait)
            (fun hb => absurd hb (hnotBlocked hplace SpinPlace.noConfusion)) fun b _ => hc.waits b
        · exact Config.forall_pc_move
            (P := fun _ (k : SpinThread) => k.place = .wait → build = .wait)
            (fun h => SpinPlace.noConfusion h) fun b _ => hc.build b
        · exact hc.older
        · intro hfree hany
          obtain ⟨b, hb⟩ := hc.served hfree hany
          have hne : b ≠ a := by
            rintro rfl
            rcases hb with (h | h) | h
            · cases hplace.symm.trans h
            · cases hplace.symm.trans h.1
            · -- a waiter from before this modification would have been unblocked
              obtain ⟨a', k, hk⟩ := hany
              have hm : m = c.shared.queue.version := by
                injection hplace.symm.trans h
              have hlt := hc.older hfree _ hk
              have hle := hnone _ hk
              omega
          refine ⟨b, ?_⟩
          rw [Spinlock.Awake, Config.move_pc_of_ne c hne]
          exact hb
  | unblock hb => exact hc.move_unblock hb (hc.build a) (.inl rfl)

theorem attended_of_reachable {c : Spinlock T} (h : (spinlockSystem T build).Reachable c) :
    c.Attended build := by
  apply h.invariant
  · rintro _ rfl
    refine ⟨.empty, ?_, ?_, ?_, ?_⟩ <;> simp [WaitQueue.Blocked]
  · rintro c ⟨a, e⟩ d hc hd
    obtain ⟨s, l, hs, rfl⟩ := Config.step_eq_some hd
    exact hc.step (SpinState.act_cases hs)

/-- No two threads have the lock; and while it is free, a thread blocked in `lock` has either
another one that is about to try, or the `notify_one` of the last `unlock` still to come. -/
theorem spinlock_safe {c : Spinlock T} (h : (spinlockSystem T build).Reachable c) :
    (∀ a b, (c.pc a).holds = true → (c.pc b).holds = true → a = b) ∧
      ((∀ b, (c.pc b).holds = false) → ∀ a, c.shared.queue.Blocked a →
        ∃ b, c.Awake b ∨ (c.pc b).place = .notifyOne c.shared.queue.version) := by
  have hexcl := exclusive_of_reachable h
  refine ⟨hexcl.unique, fun hfree a ha => ?_⟩
  have hguard : c.shared.guard = false := by
    rw [← Bool.not_eq_true, hexcl.guarded]
    rintro ⟨b, hb⟩
    exact absurd ((hfree b).symm.trans hb) (by decide)
  exact (attended_of_reachable h).served hguard ⟨a, ha⟩

/-- The lock is taken, wanted by another thread, and cleared but not notified yet. -/
def spinlockCleared : List (Bool × SpinEvent Bool) :=
  [(false, .lock), (false, .run), (true, .lock), (true, .run), (true, .run), (false, .unlock),
    (false, .run)]

theorem reachable_spinlockCleared :
    ∃ c, (spinlockSystem Bool .wait).Reachable c ∧
      ((∀ b, (c.pc b).holds = false) ∧ c.shared.queue.Blocked true ∧
        (c.pc true).place = .wait) := by
  obtain ⟨c, hc, hp⟩ := TransitionSystem.exists_reachable_of_exec (· = ⟨{}, fun _ => {}⟩)
    (Config.step (SpinState.act .wait)) spinlockCleared
    (fun c => decide ((∀ b, (c.pc b).holds = false) ∧ c.shared.queue.Blocked true ∧
      (c.pc true).place = .wait)) rfl (by decide)
  exact ⟨c, hc, of_decide_eq_true hp⟩

theorem spinlock_safe_cleared :
    ∃ c, (spinlockSystem Bool .wait).Reachable c ∧ c.shared.queue.Blocked true ∧
      (∀ a b, (c.pc a).holds = true → (c.pc b).holds = true → a = b) ∧
      ∃ b, c.Awake b ∨ (c.pc b).place = .notifyOne c.shared.queue.version := by
  obtain ⟨c, hc, hfree, hblocked, -⟩ := reachable_spinlockCleared
  obtain ⟨hunique, hserved⟩ := spinlock_safe hc
  exact ⟨c, hc, hblocked, hunique, hserved hfree true hblocked⟩

/-! ## Progress -/

/-- A place in `lock`. -/
def SpinPlace.inLock : SpinPlace → Bool
  | .testAndSet locks => locks
  | .wait | .test => true
  | _ => false

/-- A step of a function that is being executed: no call, and no spurious unblocking. -/
def SpinEvent.continues : SpinEvent T → Bool
  | .run | .notify _ => true
  | _ => false

variable (build) in
/-- A thread that is not blocked takes a free lock in at most two steps of its own. -/
theorem Spinlock.exists_run_acquires {c : Spinlock T} {b : T} (hfree : c.shared.guard = false)
    (hb : c.Awake b ∨ (c.pc b).place = .test) :
    ∃ es d, (spinlockSystem T build).Run c es d ∧ es.length ≤ 2 ∧
      (∀ e ∈ es, e.2.continues = true) ∧ (d.pc b).holds = true := by
  have hexec : ∃ es s l, es.length ≤ 2 ∧ (∀ e ∈ es, e = SpinEvent.run) ∧ l.holds = true ∧
      TransitionSystem.exec (fun (r : SpinState T × SpinThread) e => r.1.act build b r.2 e)
        (c.shared, c.pc b) es = some (s, l) := by
    rcases hb with (hplace | hplace) | hplace
    · refine ⟨[.run], { guard := true, queue := c.shared.queue.modify },
        { place := .idle, holds := true }, by simp, by simp, rfl, ?_⟩
      simp [TransitionSystem.exec, SpinState.act, SpinState.access, hplace, hfree]
    · refine ⟨[.run, .run], { guard := true, queue := c.shared.queue.modify },
        { place := .idle, holds := true }, by simp, by simp, rfl, ?_⟩
      simp [TransitionSystem.exec, SpinState.act, SpinState.access, hplace.1, hplace.2, hfree]
    · refine ⟨[.run, .run], { guard := true, queue := c.shared.queue.modify },
        { place := .idle, holds := true }, by simp, by simp, rfl, ?_⟩
      simp [TransitionSystem.exec, SpinState.act, SpinState.access, hplace, hfree]
  obtain ⟨es, s, l, hlen, hrun, hl, hes⟩ := hexec
  obtain ⟨d, hr, -, hd, -⟩ := Config.exists_run_of_exec_alone hes
  refine ⟨es.map fun e => (b, e), d, hr, by simpa using hlen, ?_, hd ▸ hl⟩
  intro e he
  obtain ⟨e', he', rfl⟩ := List.mem_map.mp he
  rw [hrun e' he']
  rfl

/-- There is no deadlock: while a thread is in `lock` and none has the lock, at most three
steps of the functions being executed give it to a thread that is in `lock`. -/
theorem spinlock_progress {c : Spinlock T} {a : T} (h : (spinlockSystem T build).Reachable c)
    (ha : (c.pc a).place.inLock = true) (hfree : ∀ b, (c.pc b).holds = false) :
    ∃ b es d, (spinlockSystem T build).Run c es d ∧ es.length ≤ 3 ∧
      (∀ e ∈ es, e.2.continues = true) ∧ (c.pc b).place.inLock = true ∧
      (d.pc b).holds = true := by
  have hatt := attended_of_reachable h
  have hguard : c.shared.guard = false := by
    rw [← Bool.not_eq_true, (exclusive_of_reachable h).guarded]
    rintro ⟨b, hb⟩
    exact absurd ((hfree b).symm.trans hb) (by decide)
  -- a thread that is not blocked goes on by itself
  have hawake : ∀ b, c.Awake b ∨ (c.pc b).place = .test → ∃ b es d,
      (spinlockSystem T build).Run c es d ∧ es.length ≤ 3 ∧ (∀ e ∈ es, e.2.continues = true) ∧
        (c.pc b).place.inLock = true ∧ (d.pc b).holds = true := by
    intro b hb
    obtain ⟨es, d, hr, hlen, hes, hd⟩ := Spinlock.exists_run_acquires build hguard hb
    refine ⟨b, es, d, hr, by omega, hes, ?_, hd⟩
    rcases hb with (hplace | hplace) | hplace
    · rw [hplace]
      rfl
    · rw [hplace.1]
      rfl
    · rw [hplace]
      rfl
  by_cases hblocked : c.shared.queue.Blocked a
  · obtain ⟨b, hb | hb⟩ := hatt.served hguard ⟨a, hblocked⟩
    · exact hawake b (.inl hb)
    · -- the notification of `b` unblocks some thread, which then goes on
      obtain ⟨k, hk⟩ := hblocked
      have heligible : c.shared.queue.Eligible c.shared.queue.version a :=
        ⟨k, hatt.older hguard _ hk, hk⟩
      have hstep : Config.step (SpinState.act build) c (b, .notify (some a)) =
          some (c.move b { c.shared with queue := c.shared.queue.unblock a }
            { c.pc b with place := .idle }) := by
        simp [Config.step, SpinState.act, hb, WaitQueue.notifyOne, heligible]
      have hne : a ≠ b := by
        rintro rfl
        cases hb.symm.trans (hatt.waits a ⟨k, hk⟩)
      have hplace := hatt.waits a ⟨k, hk⟩
      obtain ⟨es, d, hr, hlen, hes, hd⟩ := Spinlock.exists_run_acquires build (b := a)
        (c := c.move b { c.shared with queue := c.shared.queue.unblock a }
          { c.pc b with place := .idle }) hguard <| by
        refine .inl (.inr ⟨?_, WaitQueue.not_blocked_unblock⟩)
        rw [Config.move_pc_of_ne c hne]
        exact hplace
      refine ⟨a, (b, .notify (some a)) :: es, d, .cons hstep hr, ?_, ?_, ha, hd⟩
      · rw [List.length_cons]
        omega
      · intro e he
        rcases List.mem_cons.mp he with rfl | he
        · rfl
        · exact hes e he
  · apply hawake a
    cases hplace : (c.pc a).place with
    | testAndSet locks =>
        rw [hplace] at ha
        have hlocks : locks = true := ha
        exact .inl (.inl (hlocks ▸ hplace))
    | wait => exact .inl (.inr ⟨hplace, hblocked⟩)
    | test => exact .inr rfl
    | _ => simp [hplace, SpinPlace.inLock] at ha

theorem spinlock_progress_cleared :
    ∃ (c : Spinlock Bool) (b : Bool) (es : List (Bool × SpinEvent Bool)) (d : Spinlock Bool),
      c.shared.queue.Blocked true ∧ (spinlockSystem Bool .wait).Run c es d ∧ es.length ≤ 3 ∧
        (d.pc b).holds = true := by
  obtain ⟨c, hc, hfree, hblocked, hplace⟩ := reachable_spinlockCleared
  obtain ⟨b, es, d, hr, hlen, -, -, hd⟩ :=
    spinlock_progress (a := true) hc (by rw [hplace]; rfl) hfree
  exact ⟨c, b, es, d, hblocked, hr, hlen, hd⟩

end Minapp
