import Minapp.Model.AtomicWait
import Minapp.Verification.Atomic.Linearizable

/-! # The cells with waiting and notification

Waiting only delays accesses, so the cells are what they are without it. No wakeup is lost: a
thread stays blocked only while the cell is locked, or while the notification of the function
that has unlocked it is still to come. -/

namespace Minapp

open Linearization

variable {T ι : Type*}

/-! ## What a step can do -/

section Steps

variable [DecidableEq T] [DecidableEq ι]

inductive WaitingStep (a : T) (s : WaitingState T ι) (l : WaitingThread ι) :
    WaitingEvent ι → WaitingState T ι → WaitingThread ι → Prop
  | access {e cells thread} : l.sync = .accessing →
      s.cells.act a l.thread e = some (cells, thread) →
      WaitingStep a s l (.access e) ⟨cells, s.queuesAfter l.thread.place e⟩
        ⟨thread, s.syncAfter l.thread.place thread.place⟩
  | block {i v} : l.sync = .wait i v → ¬(s.queues i).Blocked a → s.cells.words i = v →
      WaitingStep a s l .sync (s.updateQueue i ((s.queues i).block a)) l
  | goOn {i v} : l.sync = .wait i v → ¬(s.queues i).Blocked a →
      WaitingStep a s l .sync s { l with sync := .accessing }
  | notify {i m} : l.sync = .notifyAll i m →
      WaitingStep a s l .sync (s.updateQueue i ((s.queues i).notifyAll m))
        { l with sync := .accessing }
  | unblock {i} : (s.queues i).Blocked a →
      WaitingStep a s l (.unblock i) (s.updateQueue i ((s.queues i).unblock a)) l

theorem WaitingState.act_cases {a : T} {s s' : WaitingState T ι} {l l' : WaitingThread ι}
    {e : WaitingEvent ι} (h : s.act a l e = some (s', l')) : WaitingStep a s l e s' l' := by
  cases e with
  | access e =>
      simp only [WaitingState.act] at h
      split at h
      · rename_i hsync
        obtain ⟨⟨cells, thread⟩, hact, heq⟩ := Option.map_eq_some_iff.mp h
        obtain ⟨rfl, rfl⟩ := Prod.mk.inj heq
        exact .access hsync hact
      · cases h
  | sync =>
      simp only [WaitingState.act] at h
      split at h
      · cases h
      · rename_i i v hsync
        split at h
        · cases h
        · rename_i hblocked
          split at h <;> obtain ⟨rfl, rfl⟩ := Prod.mk.inj (Option.some.inj h)
          · exact .block hsync hblocked ‹_›
          · exact .goOn hsync hblocked
      · rename_i i m hsync
        obtain ⟨rfl, rfl⟩ := Prod.mk.inj (Option.some.inj h)
        exact .notify hsync
  | unblock i =>
      simp only [WaitingState.act] at h
      split at h
      · obtain ⟨rfl, rfl⟩ := Prod.mk.inj (Option.some.inj h)
        exact .unblock ‹_›
      · cases h

end Steps

/-! ## Waiting refines spinning -/

/-- The cells and the threads without what they wait for. -/
def WaitingAtomic.forget (c : WaitingAtomic T ι) : Atomic T ι :=
  ⟨c.shared.cells, fun a => (c.pc a).thread⟩

def WaitingEvent.access? : WaitingEvent ι → Option (AtomicEvent ι)
  | .access e => some e
  | .sync | .unblock _ => none

theorem WaitingAtomic.forget_move [DecidableEq T] (c : WaitingAtomic T ι) (a : T)
    (s : WaitingState T ι) (l : WaitingThread ι) :
    WaitingAtomic.forget (c.move a s l) = c.forget.move a s.cells l.thread := by
  have hpc : (fun b => ((c.move a s l).pc b).thread) =
      (c.forget.move a s.cells l.thread).pc := by
    funext b
    rcases eq_or_ne b a with rfl | hne
    · rw [Config.move_pc_self, Config.move_pc_self]
    · rw [Config.move_pc_of_ne c hne, Config.move_pc_of_ne c.forget hne]
      rfl
  rw [forget, hpc]
  rfl

/-- A step that leaves the cells and the place of the thread alone is none without waiting. -/
theorem WaitingAtomic.forget_move_same [DecidableEq T] {c : WaitingAtomic T ι} {a : T}
    {s : WaitingState T ι} {l : WaitingThread ι} (hs : s.cells = c.shared.cells)
    (hl : l.thread = (c.pc a).thread) :
    WaitingAtomic.forget (c.move a s l) = c.forget := by
  rw [forget_move, hs, hl, Config.move]
  exact congrArg (Config.mk _) (Function.update_eq_self a _)

section

variable [DecidableEq T] [DecidableEq ι]

theorem WaitingAtomic.run_forget {c d : WaitingAtomic T ι} {es : List (T × WaitingEvent ι)}
    (h : (waitingSystem T ι).Run c es d) :
    (atomicSystem T ι).Run c.forget (es.filterMap fun e => e.2.access?.map (e.1, ·)) d.forget := by
  refine h.simulates WaitingAtomic.forget _ ?_
  rintro c ⟨a, e⟩ d hd
  obtain ⟨s, l, hact, rfl⟩ := Config.step_eq_some hd
  cases WaitingState.act_cases hact with
  | @access e cells thread _ haccess =>
      refine ⟨?_, fun h => by cases h⟩
      rintro _ ⟨⟩
      rw [forget_move]
      exact congrArg (Option.map _) haccess
  | block | goOn | notify | unblock =>
      exact ⟨fun _ h => (by cases h), fun _ => forget_move_same rfl rfl⟩

theorem WaitingAtomic.reachable_forget {c : WaitingAtomic T ι}
    (h : (waitingSystem T ι).Reachable c) : (atomicSystem T ι).Reachable c.forget := by
  obtain ⟨_, es, rfl, hr⟩ := h
  exact ⟨_, _, rfl, WaitingAtomic.run_forget hr⟩

end

/-! ## Blocked threads -/

/-- The cell whose lock a thread tries to get in `lock_and_load`. -/
def AtomicPlace.locking : AtomicPlace ι → Option ι
  | .lockLoad i _ | .lockTry i _ _ => some i
  | _ => none

/-- The thread has left `store_and_unlock`, or what comes before it does not matter. -/
def AtomicPlace.finishing : AtomicPlace ι → Bool
  | .finish _ _ => true
  | _ => false

/-- A word that is waited for stays so, until the cell is unlocked. -/
theorem AtomicState.waiting_localStep [DecidableEq ι] {a : T} {s s' : AtomicState T ι}
    {l l' : AtomicThread ι} {e : AtomicEvent ι} {i : ι} (hl : HoldsLocks a s l)
    (h : LocalStep a s l e s' l')
    (hwaiting : (s.words i).waiting = true) :
    (s'.words i).waiting = true ∨ e = .run ∧ l.place.unlocks = some i := by
  have hupdate : ∀ j v, ((s.words j).waiting = true → v.waiting = true) →
      ((s.setWord j v).words i).waiting = true := by
    intro j v hv
    rcases eq_or_ne i j with rfl | hne
    · simpa [setWord] using hv hwaiting
    · simpa [setWord, hne] using hwaiting
  have hknows := hl.knows
  cases h with
  | @lockFunction j x v hk _ hfree hword | @lockUser j v hk _ hfree hword =>
      refine .inl (hupdate j _ fun hj => ?_)
      rw [hword, hfree] at hj
      cases hj
  | wait => exact .inl (hupdate _ _ fun _ => rfl)
  | @storeUnlock j x p hk =>
      rcases eq_or_ne i j with rfl | hne
      · exact .inr ⟨rfl, by rw [hk]; rfl⟩
      · exact .inl (by simpa [setWord, setOwner, record, hne] using hwaiting)
  | @unlockStore j v hk =>
      rcases eq_or_ne i j with rfl | hne
      · exact .inr ⟨rfl, by rw [hk]; rfl⟩
      · exact .inl (by simpa [setWord, setOwner, record, hne] using hwaiting)
  | @tryExchange j v hk hword =>
      rw [hk] at hknows
      refine .inl (hupdate j _ fun hj => ?_)
      rw [hword, hknows.2] at hj
      cases hj
  | @setExchange j obj v hk hword =>
      refine .inl (hupdate j _ fun hj => ?_)
      rwa [hword] at hj
  | _ => exact .inl hwaiting

/-- Only threads that try to lock a cell are blocked at it; and while one is, the cell is
locked and the function that will unlock it will notify, or one that has unlocked it since is
about to. -/
structure WaitingAtomic.Attended (c : WaitingAtomic T ι) : Prop where
  valid : ∀ i, (c.shared.queues i).Valid
  waits : ∀ a i, (c.shared.queues i).Blocked a → ∃ v, (c.pc a).sync = .wait i v
  locking : ∀ a i v, (c.pc a).sync = .wait i v →
    v.waiting = true ∧ (c.pc a).thread.place.locking = some i
  finishing : ∀ a i m, (c.pc a).sync = .notifyAll i m → (c.pc a).thread.place.finishing = true
  attended : ∀ i a k, (a, k) ∈ (c.shared.queues i).waiters →
    (c.shared.cells.words i).waiting = true ∨ ∃ b m, (c.pc b).sync = .notifyAll i m ∧ k < m

/-- Another thread than `a` is about to notify those that have blocked at modification `k`. -/
def WaitingAtomic.NotifiedByOther (c : WaitingAtomic T ι) (a : T) (i : ι) (k : ℕ) : Prop :=
  ∃ b ≠ a, ∃ m, (c.pc b).sync = .notifyAll i m ∧ k < m

namespace WaitingAtomic.Attended

variable {c : WaitingAtomic T ι} {a : T} {s : WaitingState T ι} {l : WaitingThread ι}

/-- What a step has to show: that of the thread itself, and who attends to the waiters. -/
theorem move [DecidableEq T] (hc : c.Attended) (hvalid : ∀ i, (s.queues i).Valid)
    (hothers : ∀ i, ∀ b ≠ a, (s.queues i).Blocked b → (c.shared.queues i).Blocked b)
    (hwaits : ∀ i, (s.queues i).Blocked a → ∃ v, l.sync = .wait i v)
    (hlocking : ∀ i v, l.sync = .wait i v → v.waiting = true ∧ l.thread.place.locking = some i)
    (hfinishing : ∀ i m, l.sync = .notifyAll i m → l.thread.place.finishing = true)
    (hattended : ∀ i b k, (b, k) ∈ (s.queues i).waiters → (s.cells.words i).waiting = true ∨
      (∃ m, l.sync = .notifyAll i m ∧ k < m) ∨ c.NotifiedByOther a i k) :
    WaitingAtomic.Attended (c.move a s l) := by
  constructor
  · exact hvalid
  · exact Config.forall_pc_move (P := fun b (k : WaitingThread ι) =>
      ∀ i, (s.queues i).Blocked b → ∃ v, k.sync = .wait i v) hwaits
      fun b hne i hb => hc.waits b i (hothers i b hne hb)
  · exact Config.forall_pc_move (P := fun _ (k : WaitingThread ι) => ∀ i v, k.sync = .wait i v →
      v.waiting = true ∧ k.thread.place.locking = some i) hlocking fun b _ => hc.locking b
  · exact Config.forall_pc_move (P := fun _ (k : WaitingThread ι) => ∀ i m,
      k.sync = .notifyAll i m → k.thread.place.finishing = true) hfinishing
      fun b _ => hc.finishing b
  · intro i b k hk
    rcases hattended i b k hk with h | ⟨m, hm, hlt⟩ | ⟨b', hne, m, hm, hlt⟩
    · exact .inl h
    · exact .inr ⟨a, m, by rw [Config.move_pc_self]; exact hm, hlt⟩
    · exact .inr ⟨b', m, by rw [Config.move_pc_of_ne c hne]; exact hm, hlt⟩

/-- Who attends to the waiters that were there, when thread `a` has nothing to notify. -/
theorem attended_of_sync (hc : c.Attended) {i : ι} {b : T} {k : ℕ}
    (hk : (b, k) ∈ (c.shared.queues i).waiters) (hsync : ∀ m, (c.pc a).sync ≠ .notifyAll i m) :
    (c.shared.cells.words i).waiting = true ∨ c.NotifiedByOther a i k := by
  rcases hc.attended i b k hk with h | ⟨b', m, hm, hlt⟩
  · exact .inl h
  · refine .inr ⟨b', ?_, m, hm, hlt⟩
    rintro rfl
    exact hsync m hm

theorem not_blocked_of_sync (hc : c.Attended) {i : ι} (h : ∀ v, (c.pc a).sync ≠ .wait i v) :
    ¬(c.shared.queues i).Blocked a := by
  intro hb
  obtain ⟨v, hv⟩ := hc.waits a i hb
  exact h v hv

/-- A function that has locked a cell neither waits nor notifies. -/
theorem sync_eq (hc : c.Attended) {b : T}
    (hlocking : (c.pc b).thread.place.locking = none)
    (hfinishing : (c.pc b).thread.place.finishing = false) : (c.pc b).sync = .accessing := by
  cases hsync : (c.pc b).sync with
  | accessing => rfl
  | wait i v =>
      have h := (hc.locking b i v hsync).2
      rw [hlocking] at h
      cases h
  | notifyAll i m =>
      have h := hc.finishing b i m hsync
      rw [hfinishing] at h
      cases h

end WaitingAtomic.Attended

theorem WaitingState.syncAfter_of_unlocks {s : WaitingState T ι} {i : ι} {k k' : AtomicPlace ι}
    (hk : k.unlocks = some i) (hwaiting : (s.cells.words i).waitedFor = true) :
    s.syncAfter k k' = .notifyAll i ((s.queues i).version + 1) := by
  unfold syncAfter
  split
  · rename_i j hj
    obtain rfl : i = j := Option.some.inj (hk.symm.trans hj)
    exact if_pos hwaiting
  · rename_i hnone
    cases hk.symm.trans hnone

namespace WaitingState

variable [DecidableEq ι] {s : WaitingState T ι} {i j : ι} {q : WaitQueue T}

theorem updateQueue_self : (s.updateQueue i q).queues i = q := Function.update_self ..

theorem updateQueue_of_ne (h : j ≠ i) : (s.updateQueue i q).queues j = s.queues j :=
  Function.update_of_ne h ..

/-- What holds of every queue after one is changed. -/
theorem forall_updateQueue {P : ι → WaitQueue T → Prop} (hi : P i q)
    (h : ∀ j ≠ i, P j (s.queues j)) :
    ∀ j, P j ((s.updateQueue i q).queues j) := by
  intro j
  rcases eq_or_ne j i with rfl | hne
  · rw [updateQueue_self]
    exact hi
  · rw [updateQueue_of_ne hne]
    exact h j hne

theorem queuesAfter_eq (s : WaitingState T ι) (k : AtomicPlace ι) (e : AtomicEvent ι) :
    s.queuesAfter k e = s.queues ∨
      ∃ i, s.queuesAfter k e = (s.updateQueue i (s.queues i).modify).queues := by
  unfold queuesAfter
  cases e with
  | run =>
      cases k.modifies s.cells.words with
      | none => exact .inl rfl
      | some i => exact .inr ⟨i, rfl⟩
  | _ => exact .inl rfl

/-- An access blocks and unblocks nobody. -/
theorem waiters_queuesAfter (s : WaitingState T ι) (k : AtomicPlace ι) (e : AtomicEvent ι) (j : ι) :
    (s.queuesAfter k e j).waiters = (s.queues j).waiters := by
  rcases s.queuesAfter_eq k e with h | ⟨i, h⟩
  · rw [h]
  · rw [h]
    exact forall_updateQueue (q := (s.queues i).modify)
      (P := fun j q => q.waiters = (s.queues j).waiters) rfl (fun _ _ => rfl) j

theorem valid_queuesAfter (h : ∀ i, (s.queues i).Valid) (k : AtomicPlace ι) (e : AtomicEvent ι) :
    ∀ j, (s.queuesAfter k e j).Valid := by
  rcases s.queuesAfter_eq k e with hq | ⟨i, hq⟩
  · rw [hq]
    exact h
  · rw [hq]
    exact forall_updateQueue (P := fun _ q => q.Valid) (h i).modify fun j _ => h j

/-- A thread that is to wait has seen the cell waited for, and tries to lock it. -/
theorem syncAfter_wait {a : T} {cells : AtomicState T ι} {l l' : AtomicThread ι}
    {e : AtomicEvent ι} {v : Word} (h : AtomicState.LocalStep a s.cells l e cells l')
    (hsync : s.syncAfter l.place l'.place = .wait i v) :
    v.waiting = true ∧ l'.place.locking = some i := by
  unfold syncAfter at hsync
  split at hsync
  · split at hsync <;> cases hsync
  · split at hsync
    · rename_i j x w j' x' hk hk'
      cases h with
      | wait hk₂ =>
          rw [hk] at hk₂
          cases hk₂
          cases hsync
          exact ⟨rfl, rfl⟩
      | lockAgain hk₂ | lockUser hk₂ | terminate hk₂ => cases hk'
      | lockFunction hk₂ =>
          have hfun := AtomicPlace.function_afterLock j (by assumption) w.handle
          simp_all [AtomicPlace.function]
      | _ hk₂ => simp_all
    · rename_i j x w hk'
      split at hsync
      · rename_i hw
        cases hsync
        rw [hk']
        exact ⟨(Bool.and_eq_true_iff.mp hw).1, rfl⟩
      · cases hsync
    · cases hsync

/-- A thread that is to notify has unlocked the cell. -/
theorem syncAfter_notifyAll {a : T} {cells : AtomicState T ι} {l l' : AtomicThread ι}
    {e : AtomicEvent ι} {m : ℕ} (h : AtomicState.LocalStep a s.cells l e cells l')
    (hsync : s.syncAfter l.place l'.place = .notifyAll i m) : l'.place.finishing = true := by
  unfold syncAfter at hsync
  split at hsync
  · rename_i j hunlocks
    cases h with
    | storeUnlock | unlockStore => rfl
    | makeNull hk | makeHolder hk | copyNull hk | copyHolder hk | drop hk | call hk | lockLoad hk
    | lockAgain hk | lockFunction hk | lockUser hk | wait hk | terminate hk | addref hk
    | tryLoad hk | tryExchange hk | tryFail hk | unlockLoad hk | getLoad hk | getNull hk
    | getAddref hk | setLoad hk | setExchange hk | setAgain hk | release hk | releaseLast hk
    | dropNull hk | ret hk | finished hk | delete hk =>
        rw [hk] at hunlocks
        cases hunlocks
  · split at hsync
    · cases hsync
    · split at hsync <;> cases hsync
    · cases hsync

end WaitingState

section Reachable

variable [DecidableEq T] [DecidableEq ι] {c : WaitingAtomic T ι}

theorem WaitingAtomic.Attended.access {a : T} {cells : AtomicState T ι} {thread : AtomicThread ι}
    {e : AtomicEvent ι} (hc : c.Attended)
    (hfits : ∀ i, (c.shared.cells.owner i).Fits (c.shared.cells.words i))
    (hl : HoldsLocks a c.shared.cells (c.pc a).thread) (hsync : (c.pc a).sync = .accessing)
    (h : AtomicState.LocalStep a c.shared.cells (c.pc a).thread e cells thread) :
    WaitingAtomic.Attended
      (c.move a ⟨cells, c.shared.queuesAfter (c.pc a).thread.place e⟩
        ⟨thread, c.shared.syncAfter (c.pc a).thread.place thread.place⟩) := by
  have hwaiters := c.shared.waiters_queuesAfter (c.pc a).thread.place e
  have hblocked : ∀ i b, (c.shared.queuesAfter (c.pc a).thread.place e i).Blocked b →
      (c.shared.queues i).Blocked b := by
    rintro i b ⟨k, hk⟩
    exact ⟨k, hwaiters i ▸ hk⟩
  apply hc.move
  · exact WaitingState.valid_queuesAfter hc.valid _ e
  · exact fun i b _ hb => hblocked i b hb
  · intro i ha
    exact absurd (hblocked i a ha) (hc.not_blocked_of_sync fun v => by simp [hsync])
  · exact fun i v hv => WaitingState.syncAfter_wait h hv
  · exact fun i m hm => WaitingState.syncAfter_notifyAll h hm
  · intro i b k hk
    have hk : (b, k) ∈ (c.shared.queues i).waiters := hwaiters i ▸ hk
    rcases hc.attended_of_sync (a := a) hk fun m => by simp [hsync] with hwaiting | hother
    · rcases AtomicState.waiting_localStep hl h hwaiting with h | ⟨-, hunlocks⟩
      · exact .inl h
      · -- this thread unlocks the cell, after all that the waiters have observed
        have hlocked : (c.shared.cells.words i).locked = false := by
          rw [← Bool.not_eq_true]
          exact fun hlocked => (hfits i).not_both ⟨hlocked, hwaiting⟩
        refine .inr (.inl ⟨_, WaitingState.syncAfter_of_unlocks hunlocks ?_, ?_⟩)
        · rw [Word.waitedFor, hwaiting, hlocked]
          rfl
        · exact Nat.lt_succ_of_le ((hc.valid i).observed _ hk)
    · exact .inr (.inr hother)

theorem WaitingAtomic.Attended.step {a : T} {e : WaitingEvent ι} {s : WaitingState T ι}
    {l : WaitingThread ι} (hc : c.Attended)
    (hfits : ∀ i, (c.shared.cells.owner i).Fits (c.shared.cells.words i))
    (hl : HoldsLocks a c.shared.cells (c.pc a).thread)
    (h : WaitingStep a c.shared (c.pc a) e s l) : WaitingAtomic.Attended (c.move a s l) := by
  cases h with
  | access hsync hact => exact hc.access hfits hl hsync (AtomicState.localStep_of_act hact)
  | @block i v hsync hblocked hword =>
      have hwaiting : (c.shared.cells.words i).waiting = true := hword ▸ (hc.locking a i v hsync).1
      apply hc.move
      · exact WaitingState.forall_updateQueue (P := fun _ q => q.Valid)
          ((hc.valid i).block hblocked) fun j _ => hc.valid j
      · exact WaitingState.forall_updateQueue (P := fun j q => ∀ b ≠ a, q.Blocked b →
          (c.shared.queues j).Blocked b)
          (fun b hne hb => (WaitQueue.blocked_block.mp hb).resolve_right hne) fun _ _ _ _ hb => hb
      · exact WaitingState.forall_updateQueue (P := fun j q => q.Blocked a →
          ∃ v, (c.pc a).sync = .wait j v) (fun _ => ⟨v, hsync⟩) fun j _ hb => hc.waits a j hb
      · exact hc.locking a
      · exact hc.finishing a
      · intro j b k
        refine WaitingState.forall_updateQueue (P := fun j q => (b, k) ∈ q.waiters →
          (c.shared.cells.words j).waiting = true ∨
            (∃ m, (c.pc a).sync = .notifyAll j m ∧ k < m) ∨ c.NotifiedByOther a j k)
          (fun _ => .inl hwaiting) ?_ j
        intro j _ hk
        exact (hc.attended_of_sync hk fun m => by simp [hsync]).imp_right .inr
  | @goOn i v hsync hblocked =>
      apply hc.move
      · exact hc.valid
      · exact fun _ _ _ hb => hb
      · intro j hb
        obtain ⟨w, hw⟩ := hc.waits a j hb
        rw [hsync] at hw
        cases hw
        exact absurd hb hblocked
      · exact fun _ _ h => by cases h
      · exact fun _ _ h => by cases h
      · intro j b k hk
        exact (hc.attended_of_sync hk fun m => by simp [hsync]).imp_right .inr
  | @notify i m hsync =>
      apply hc.move
      · exact WaitingState.forall_updateQueue (P := fun _ q => q.Valid) (hc.valid i).notifyAll
          fun j _ => hc.valid j
      · exact WaitingState.forall_updateQueue (P := fun j q => ∀ b ≠ a, q.Blocked b →
          (c.shared.queues j).Blocked b) (fun b _ hb => WaitQueue.blocked_of_notifyAll hb)
          fun _ _ _ _ hb => hb
      · have hnot : ∀ j, ¬(c.shared.queues j).Blocked a :=
          fun j => hc.not_blocked_of_sync fun v => by simp [hsync]
        exact WaitingState.forall_updateQueue
          (P := fun j q => q.Blocked a → ∃ v, AtomicSync.accessing = .wait j v)
          (fun hb => absurd (WaitQueue.blocked_of_notifyAll hb) (hnot i))
          fun j _ hb => absurd hb (hnot j)
      · exact fun _ _ h => by cases h
      · exact fun _ _ h => by cases h
      · intro j b k
        refine WaitingState.forall_updateQueue (P := fun j q => (b, k) ∈ q.waiters →
          (c.shared.cells.words j).waiting = true ∨
            (∃ m, AtomicSync.accessing = .notifyAll j m ∧ k < m) ∨ c.NotifiedByOther a j k) ?_ ?_ j
        · intro hk
          obtain ⟨hk, hle⟩ := WaitQueue.mem_notifyAll.mp hk
          -- a waiter that is left has another one to notify it
          rcases hc.attended i b k hk with h | ⟨b', m', hm', hlt⟩
          · exact .inl h
          · refine .inr (.inr ⟨b', ?_, m', hm', hlt⟩)
            rintro rfl
            rw [hsync] at hm'
            cases hm'
            omega
        · intro j hne hk
          refine (hc.attended_of_sync hk fun m' => ?_).imp_right .inr
          rw [hsync]
          rintro ⟨⟩
          exact hne rfl
  | @unblock i hb =>
      apply hc.move
      · exact WaitingState.forall_updateQueue (P := fun _ q => q.Valid) (hc.valid i).unblock
          fun j _ => hc.valid j
      · exact WaitingState.forall_updateQueue (P := fun j q => ∀ b ≠ a, q.Blocked b →
          (c.shared.queues j).Blocked b)
          (fun b _ hb => WaitQueue.blocked_of_unblock hb) fun _ _ _ _ hb => hb
      · exact WaitingState.forall_updateQueue (P := fun j q => q.Blocked a →
          ∃ v, (c.pc a).sync = .wait j v)
          (fun hb => absurd hb WaitQueue.not_blocked_unblock) fun j _ hb => hc.waits a j hb
      · exact hc.locking a
      · exact hc.finishing a
      · intro j b k
        have hold : ∀ j, (b, k) ∈ (c.shared.queues j).waiters →
            (c.shared.cells.words j).waiting = true ∨
              (∃ m, (c.pc a).sync = .notifyAll j m ∧ k < m) ∨ c.NotifiedByOther a j k := by
          intro j hk
          rcases hc.attended j b k hk with h | ⟨b', m, hm, hlt⟩
          · exact .inl h
          · rcases eq_or_ne b' a with rfl | hne
            · exact .inr (.inl ⟨m, hm, hlt⟩)
            · exact .inr (.inr ⟨b', hne, m, hm, hlt⟩)
        exact WaitingState.forall_updateQueue (P := fun j q => (b, k) ∈ q.waiters →
          (c.shared.cells.words j).waiting = true ∨
            (∃ m, (c.pc a).sync = .notifyAll j m ∧ k < m) ∨ c.NotifiedByOther a j k)
          (fun hk => hold i (List.mem_of_mem_filter hk)) (fun j _ hk => hold j hk) j

theorem WaitingAtomic.attended_of_reachable (h : (waitingSystem T ι).Reachable c) :
    c.Attended := by
  apply h.invariant_of_reachable
  · rintro _ rfl
    constructor
    · exact fun _ => .empty
    · exact fun _ _ ⟨_, hk⟩ => absurd hk List.not_mem_nil
    · exact fun _ _ _ h => by cases h
    · exact fun _ _ _ h => by cases h
    · exact fun _ _ _ hk => absurd hk List.not_mem_nil
  · rintro c ⟨a, e⟩ d hreach hc hd
    obtain ⟨s, l, hact, rfl⟩ := Config.step_eq_some hd
    obtain ⟨hfits, hl⟩ := atomic_locks (WaitingAtomic.reachable_forget hreach)
    exact hc.step hfits (hl a) (WaitingState.act_cases hact)

end Reachable

end Minapp
