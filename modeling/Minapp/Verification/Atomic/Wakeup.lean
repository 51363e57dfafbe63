import Minapp.Verification.Atomic.Waiting

/-! # No lost wakeups

The cells with waiting are linearizable as those without. A blocked thread is one step of
`notify_all`, or one function's `store_and_unlock`, from going on, unless the cell is locked by
a caller of `lock` or `try_lock`. -/

namespace Minapp

open Linearization

variable {T ι : Type*} [DecidableEq T] [DecidableEq ι] {c : WaitingAtomic T ι}

/-- Waiting changes no result: the effects of the operations, each between its call and its
return, are a sequential history of plain variables, which gives every thread what its operations
have returned, and the counts are the numbers of objects and cells that designate the holders. -/
theorem waiting_linearizable [Fintype T] [Fintype ι] (h : (waitingSystem T ι).Reachable c) :
    (∀ i a b, (c.pc a).thread.HasLocked i → (c.pc b).thread.HasLocked i → a = b) ∧
    Sequential (stepAt ObjectVariable.Step) (fun _ => {}) c.shared.cells.trace
      c.shared.cells.contents ∧
    (∀ a, Progress a c.shared.cells.trace (c.pc a).thread.place.phase ∧
      effects a c.shared.cells.trace =
        returns a c.shared.cells.trace ++ (c.pc a).thread.place.phase.pending) ∧
    (∀ holder, c.shared.cells.counts holder = c.forget.designations holder) := by
  have hforget := WaitingAtomic.reachable_forget h
  obtain ⟨-, hl⟩ := atomic_locks hforget
  obtain ⟨hseq, hprogress⟩ := atomic_explained hforget
  exact ⟨fun i a b ha hb => ((hl a).has ha).unique ((hl b).has hb), hseq,
    fun a => ⟨hprogress a, (hprogress a).effects_eq⟩, (Atomic.counted hforget).balance⟩

/-- A cell that is waited for is locked by a function, or by a caller of `lock`. -/
theorem WaitingAtomic.exists_hasLocked (h : (waitingSystem T ι).Reachable c) {i : ι}
    (hwaiting : (c.shared.cells.words i).waiting = true) :
    ∃ b, (c.pc b).thread.place.function = some i ∨ i ∈ (c.pc b).thread.locks := by
  obtain ⟨hfits, hl⟩ := atomic_locks (WaitingAtomic.reachable_forget h)
  have hi := hfits i
  cases howner : c.forget.shared.owner i with
  | free =>
      rw [howner] at hi
      exact absurd (hwaiting.symm.trans hi.2) (by decide)
  | function b => exact ⟨b, .inl (((hl b).function i).mp howner)⟩
  | user b => exact ⟨b, .inr (((hl b).user i).mp howner)⟩

/-- No wakeup is lost: a thread that is blocked tries to lock the cell, and either somebody has
it locked, and has been told that there are waiters, or a `notify_all` is still to come that
follows a modification after the value the thread has seen. -/
theorem no_lost_wakeup {i : ι} {a : T} {k : ℕ} (h : (waitingSystem T ι).Reachable c)
    (hk : (a, k) ∈ (c.shared.queues i).waiters) :
    (c.pc a).thread.place.locking = some i ∧
      ((c.shared.cells.words i).waiting = true ∧ (∃ b, (c.pc b).thread.HasLocked i) ∨
        ∃ b m, (c.pc b).sync = .notifyAll i m ∧ k < m) := by
  have hc := WaitingAtomic.attended_of_reachable h
  obtain ⟨v, hv⟩ := hc.waits a i ⟨k, hk⟩
  refine ⟨(hc.locking a i v hv).2, (hc.attended i a k hk).imp_left fun hwaiting => ?_⟩
  exact ⟨hwaiting, WaitingAtomic.exists_hasLocked h hwaiting⟩

/-- Thread 0 stores; thread 1 has found the cell locked, and is blocked. -/
def storeBlocksLoad : List (Fin 2 × WaitingEvent (Fin 1)) :=
  [(0, .access (.make (some 7))), (0, .access (.call 0 (.access (.store (some 7))))),
    (0, .access .run), (0, .access .run), (1, .access (.call 0 (.access .load))),
    (1, .access .run), (1, .access .run), (1, .sync)]

theorem reachable_storeBlocksLoad : ∃ c : WaitingAtomic (Fin 2) (Fin 1),
    (waitingSystem (Fin 2) (Fin 1)).Reachable c ∧ (1, 2) ∈ (c.shared.queues 0).waiters ∧
      (∀ b, 0 ∉ (c.pc b).thread.locks) ∧ c.shared.cells.counts 7 = 1 := by
  obtain ⟨c, hc, hp⟩ := TransitionSystem.exists_reachable_of_exec (· = ⟨{}, fun _ => {}⟩)
    (Config.step WaitingState.act) storeBlocksLoad
    (fun c => decide ((1, 2) ∈ (c.shared.queues 0).waiters ∧ (∀ b, 0 ∉ (c.pc b).thread.locks) ∧
      c.shared.cells.counts 7 = 1)) rfl (by decide +kernel)
  exact ⟨c, hc, of_decide_eq_true hp⟩

theorem waiting_linearizable_blocked : ∃ c : WaitingAtomic (Fin 2) (Fin 1),
    (c.shared.queues 0).Blocked 1 ∧ c.forget.designations 7 = 1 := by
  obtain ⟨c, hc, hk, -, hcount⟩ := reachable_storeBlocksLoad
  obtain ⟨-, -, -, hcounts⟩ := waiting_linearizable hc
  exact ⟨c, ⟨2, hk⟩, by exact_mod_cast (hcounts 7).symm.trans hcount⟩

theorem no_lost_wakeup_blocked : ∃ c : WaitingAtomic (Fin 2) (Fin 1),
    (c.shared.queues 0).Blocked 1 ∧ (c.pc 1).thread.place.locking = some 0 := by
  obtain ⟨c, hc, hk, -⟩ := reachable_storeBlocksLoad
  exact ⟨c, ⟨2, hk⟩, (no_lost_wakeup hc hk).1⟩

/-! ## Progress -/

/-- The next access of a function, or a call of `unlock`. -/
def WaitingEvent.servesWaiters (i : ι) : WaitingEvent ι → Bool
  | .access .run | .sync => true
  | .access (.call j .unlock) => j = i
  | _ => false

/-- Thread `b` alone unblocks thread `a` in at most `n` steps. -/
def WaitingState.Unblocks (a b : T) (i : ι) (n : ℕ) (s : WaitingState T ι) (l : WaitingThread ι) :
    Prop :=
  ∃ es s' l', es.length ≤ n ∧ (∀ e ∈ es, e.servesWaiters i = true) ∧
    TransitionSystem.exec (fun (r : WaitingState T ι × WaitingThread ι) e => r.1.act b r.2 e)
      (s, l) es = some (s', l') ∧ ¬(s'.queues i).Blocked a

namespace WaitingState.Unblocks

variable {a b : T} {i : ι} {n : ℕ} {s s' : WaitingState T ι} {l l' : WaitingThread ι}

theorem cons {e : WaitingEvent ι} (hact : s.act b l e = some (s', l'))
    (he : e.servesWaiters i = true) (h : s'.Unblocks a b i n l') :
    s.Unblocks a b i (n + 1) l := by
  obtain ⟨es, s'', l'', hlen, hes, hexec, hblocked⟩ := h
  refine ⟨e :: es, s'', l'', Nat.succ_le_succ hlen, ?_, ?_, hblocked⟩
  · intro e' he'
    rcases List.mem_cons.mp he' with rfl | he'
    · exact he
    · exact hes e' he'
  · rw [TransitionSystem.exec, hact]
    exact hexec

theorem mono {m : ℕ} (h : s.Unblocks a b i n l) (hle : n ≤ m) : s.Unblocks a b i m l := by
  obtain ⟨es, s', l', hlen, hrest⟩ := h
  exact ⟨es, s', l', hlen.trans hle, hrest⟩

/-- `notify_all`. -/
theorem notify {m : ℕ} (hsync : l.sync = .notifyAll i m)
    (hlt : ∀ k, (a, k) ∈ (s.queues i).waiters → k < m) : s.Unblocks a b i 1 l := by
  refine ⟨[.sync], s.updateQueue i ((s.queues i).notifyAll m), { l with sync := .accessing },
    by simp, by simp [WaitingEvent.servesWaiters], ?_, ?_⟩
  · simp [TransitionSystem.exec, act, hsync]
  · rw [updateQueue_self]
    exact WaitQueue.not_blocked_notifyAll hlt

/-- `store_and_unlock`. -/
theorem unlock (hsync : l.sync = .accessing) (hunlocks : l.thread.place.unlocks = some i)
    (hwaiting : (s.cells.words i).waitedFor = true) (hvalid : (s.queues i).Valid) :
    s.Unblocks a b i 2 l := by
  have hmodifies : l.thread.place.modifies s.cells.words = some i := by
    cases hplace : l.thread.place <;> simp_all [AtomicPlace.unlocks, AtomicPlace.modifies]
  have hqueue : s.queuesAfter l.thread.place .run i = (s.queues i).modify := by
    rw [queuesAfter, hmodifies]
    exact Function.update_self ..
  obtain ⟨r, hr⟩ : ∃ r, s.cells.act b l.thread .run = some r := by
    cases hplace : l.thread.place <;>
      simp_all [AtomicPlace.unlocks, AtomicState.act, AtomicState.access]
  have hact : s.act b l (.access .run) = some (⟨r.1, s.queuesAfter l.thread.place .run⟩,
      ⟨r.2, .notifyAll i ((s.queues i).version + 1)⟩) := by
    rw [act, if_pos hsync, hr, ← syncAfter_of_unlocks hunlocks hwaiting]
    rfl
  refine .cons hact rfl (.notify rfl fun k hk => ?_)
  have hk : (a, k) ∈ (s.queuesAfter l.thread.place .run i).waiters := hk
  rw [hqueue] at hk
  exact Nat.lt_succ_of_le (hvalid.observed _ hk)

/-- A function that has locked the cell. -/
theorem function (hsync : l.sync = .accessing) (hfunction : l.thread.place.function = some i)
    (hwaiting : (s.cells.words i).waitedFor = true) (hvalid : (s.queues i).Valid) :
    s.Unblocks a b i 3 l := by
  cases hplace : l.thread.place with
  | storeUnlock j x p =>
      rw [hplace] at hfunction
      refine .mono (.unlock hsync ?_ hwaiting hvalid) (Nat.le_succ 2)
      rw [hplace]
      exact hfunction
  | addref j x holder =>
      rw [hplace] at hfunction
      have hact : s.act b l (.access .run) = some (⟨s.cells.addCount holder 1, s.queues⟩,
          ⟨{ l.thread with place := .storeUnlock j x (some holder) }, .accessing⟩) := by
        simp [act, hsync, AtomicState.act, AtomicState.access, hplace, queuesAfter, syncAfter,
          AtomicPlace.modifies, AtomicPlace.unlocks]
      exact .cons hact rfl (.unlock rfl hfunction hwaiting hvalid)
  | _ =>
      rw [hplace] at hfunction
      cases hfunction

/-- A caller of `lock` that calls `unlock`. -/
theorem user (hsync : l.sync = .accessing) (hidle : l.thread.place = .idle)
    (hlocks : i ∈ l.thread.locks) (hwaiting : (s.cells.words i).waitedFor = true)
    (hvalid : (s.queues i).Valid) : s.Unblocks a b i 4 l := by
  have hcall : s.act b l (.access (.call i .unlock)) =
      some (⟨s.cells.record (.call b (i, .unlock)), s.queues⟩,
        ⟨{ l.thread with place := .unlockLoad i }, .accessing⟩) := by
    simp [act, hsync, AtomicState.act, hidle, hlocks, AtomicOp.args, takeArgs, queuesAfter,
      syncAfter, AtomicPlace.unlocks, AtomicOp.start]
  have hload : act b ⟨s.cells.record (.call b (i, .unlock)), s.queues⟩
      ⟨{ l.thread with place := .unlockLoad i }, .accessing⟩ (.access .run) =
      some (⟨s.cells.record (.call b (i, .unlock)), s.queues⟩,
        ⟨{ l.thread with place := .unlockStore i (s.cells.words i).unmasked }, .accessing⟩) := by
    simp [act, AtomicState.act, AtomicState.access, queuesAfter, syncAfter, AtomicPlace.modifies,
      AtomicPlace.unlocks, AtomicState.record]
  refine .cons hcall (by simp [WaitingEvent.servesWaiters]) (.cons hload rfl ?_)
  exact .unlock rfl rfl hwaiting hvalid

/-- The steps of the one thread are a run of all of them. -/
theorem exists_run (h : c.shared.Unblocks a b i n (c.pc b)) :
    ∃ (es : List (WaitingEvent ι)) (d : WaitingAtomic T ι),
      (waitingSystem T ι).Run c (es.map fun e => (b, e)) d ∧ es.length ≤ n ∧
      (∀ e ∈ es, e.servesWaiters i = true) ∧ ¬(d.shared.queues i).Blocked a := by
  obtain ⟨es, s, l, hlen, hes, hexec, hblocked⟩ := h
  obtain ⟨d, hr, rfl, -, -⟩ := Config.exists_run_of_exec_alone hexec
  exact ⟨es, d, hr, hlen, hes, hblocked⟩

end WaitingState.Unblocks

/-- A blocked thread is unblocked by at most four steps of one other thread: the rest of the
function that has locked or unlocked the cell, or the `unlock` of the caller of `lock`, where
that one is in no other function. -/
theorem blocked_progress {i : ι} {a : T} (h : (waitingSystem T ι).Reachable c)
    (ha : (c.shared.queues i).Blocked a)
    (hidle : ∀ b, i ∈ (c.pc b).thread.locks → (c.pc b).thread.place = .idle) :
    ∃ (b : T) (es : List (WaitingEvent ι)) (d : WaitingAtomic T ι),
      (waitingSystem T ι).Run c (es.map fun e => (b, e)) d ∧ es.length ≤ 4 ∧
      (∀ e ∈ es, e.servesWaiters i = true) ∧ ¬(d.shared.queues i).Blocked a := by
  have hc := WaitingAtomic.attended_of_reachable h
  obtain ⟨k, hk⟩ := ha
  have hvalid := hc.valid i
  rcases hc.attended i a k hk with hwaiting | ⟨b, m, hm, hlt⟩
  · obtain ⟨hfits, -⟩ := atomic_locks (WaitingAtomic.reachable_forget h)
    have hwaited : (c.shared.cells.words i).waitedFor = true := by
      have hlocked : (c.shared.cells.words i).locked = false := by
        rw [← Bool.not_eq_true]
        exact fun hlocked => (hfits i).not_both ⟨hlocked, hwaiting⟩
      rw [Word.waitedFor, hwaiting, hlocked]
      rfl
    obtain ⟨b, hb | hb⟩ := WaitingAtomic.exists_hasLocked h hwaiting
    · have hsync : (c.pc b).sync = .accessing := by
        apply hc.sync_eq <;> cases hplace : (c.pc b).thread.place <;>
          simp_all [AtomicPlace.function, AtomicPlace.locking, AtomicPlace.finishing]
      exact ⟨b, ((WaitingState.Unblocks.function hsync hb hwaited hvalid).mono
        (Nat.le_succ 3)).exists_run⟩
    · have hplace := hidle b hb
      have hsync : (c.pc b).sync = .accessing := by
        apply hc.sync_eq <;> rw [hplace] <;> rfl
      exact ⟨b, (WaitingState.Unblocks.user hsync hplace hb hwaited hvalid).exists_run⟩
  · refine ⟨b, ((WaitingState.Unblocks.notify hm fun k' hk' => ?_).mono (by omega)).exists_run⟩
    rwa [hvalid.once a k' k hk' hk]

theorem blocked_progress_blocked : ∃ (c d : WaitingAtomic (Fin 2) (Fin 1)) (b : Fin 2)
    (es : List (WaitingEvent (Fin 1))), (c.shared.queues 0).Blocked 1 ∧
      (waitingSystem (Fin 2) (Fin 1)).Run c (es.map fun e => (b, e)) d ∧
        ¬(d.shared.queues 0).Blocked 1 := by
  obtain ⟨c, hc, hk, hlocks, -⟩ := reachable_storeBlocksLoad
  obtain ⟨b, es, d, hr, -, -, hd⟩ :=
    blocked_progress hc ⟨2, hk⟩ fun b hb => absurd hb (hlocks b)
  exact ⟨c, d, b, es, ⟨2, hk⟩, hr, hd⟩

end Minapp
