import Minapp.Verification.Session.WriteQueue
import Mathlib.Data.Fintype.Basic

/-! # Closing gracefully

`write()` closes a closing session once `mark` has found nothing to write. What it has
found is stale if a buffer is appended in between. -/

namespace Minapp

variable {T β : Type*}

/-- Nothing is managed, marked or being written. -/
structure SessionState.Drained (s : SessionState T β) : Prop where
  managed : s.queue.managed = []
  marked : s.queue.marked = []
  writes : s.writes = []

/-- The `close(true)` that `write()` makes when the queue is drained, up to the socket, with
the number of buffers that had been appended when `mark` found none. -/
def Place.drainedClose : Place β → Option ℕ
  | .closeLoad (.drained n) | .closeExchange (.drained n) _ | .closeSocket (.drained n) => some n
  | _ => none

/-- The number of buffers that had been appended when `mark` found none. -/
def Place.testing : Place β → Option ℕ
  | .testDrained n => some n
  | _ => none

/-- A place about to append a buffer. -/
def Place.appends : Place β → Bool
  | .manage buffers => !buffers.isEmpty
  | _ => false

/-- No buffer is appended between a `mark` that finds none and the end of the close it leads
to: not before the test of the status, and not after it. -/
structure Undisturbed (c : Session T β) (e : T × SessionEvent β) : Prop where
  test : ∀ n ∈ (c.pc e.1).testing, c.shared.status = .closing → c.shared.appended = n
  manage : (c.pc e.1).appends = true → ∀ a, (c.pc a).drainedClose = none

instance [Fintype T] (c : Session T β) (e : T × SessionEvent β) : Decidable (Undisturbed c e) :=
  decidable_of_iff (_ ∧ _) ⟨fun h => ⟨h.1, h.2⟩, fun h => ⟨h.test, h.manage⟩⟩

namespace SessionState

variable {a : T} {s s' : SessionState T β} {k k' : Place β} {e : SessionEvent β}

/-- Only `manage` appends. -/
theorem appended_localStep (hstep : LocalStep a s k e s' k') :
    (∃ buffers, k = .manage buffers ∧ s'.appended = s.appended + buffers.length) ∨
      s'.appended = s.appended := by
  cases hstep with
  | @manage buffers => exact .inl ⟨buffers, rfl, by simp [appended]⟩
  | _ => exact .inr rfl

/-- A drained queue stays so until a buffer is appended. -/
theorem drained_localStep (hs : s.QueueOk) (hk : Holds a s.owner k)
    (hstep : LocalStep a s k e s' k') (hd : s.Drained) (happ : s'.appended = s.appended) :
    s'.Drained := by
  cases hstep with
  | @manage buffers =>
      have hnil : buffers = [] := by simpa [appended] using happ
      refine ⟨?_, hd.marked, hd.writes⟩
      rw [hnil]
      simpa [BufferManager.manage] using hd.managed
  | markBusy hle hne =>
      obtain ⟨heq, -⟩ := BufferManager.mark_of_nonpos hs.marker hle
      exact ⟨by rw [heq]; exact hd.managed, by rw [heq]; exact hd.marked, hd.writes⟩
  | markEmpty hz =>
      obtain ⟨heq, -⟩ := BufferManager.mark_of_nonpos hs.marker (Int.le_of_eq hz)
      exact ⟨by rw [heq]; exact hd.managed, by rw [heq]; exact hd.marked, hd.writes⟩
  | markNew hpos =>
      obtain ⟨-, hmanaged, -⟩ := BufferManager.mark_of_pos hs.marker hpos
      exact absurd hd.managed hmanaged
  | asyncWrite =>
      have hbatches := hs.batches
      rw [hk.starting.mp rfl] at hbatches
      exact absurd hd.marked hbatches.1
  | written hw | writeFailed hw =>
      have hnil := hd.writes
      rw [hw] at hnil
      exact absurd hnil (by simp)
  | clearMarked => exact ⟨hd.managed, rfl, hd.writes⟩
  | _ => exact ⟨hd.managed, hd.marked, hd.writes⟩

/-- When `mark` has found nothing to write, there is nothing. -/
theorem drained_of_mark (hs : s.QueueOk) (hz : s.queue.mark.1 = 0) : s.Drained := by
  obtain ⟨-, ⟨-, hne⟩ | ⟨hmarked, hmanaged, -⟩⟩ :=
    BufferManager.mark_of_nonpos hs.marker (Int.le_of_eq hz)
  · exact absurd hz hne
  · have hbatches := hs.batches
    rw [owner_nobody hbatches hmarked] at hbatches
    exact ⟨hmanaged, hmarked, hbatches.2.1⟩

/-- What an activation that has found nothing to write still knows. -/
structure FoundDrained (s : SessionState T β) (k : Place β) : Prop where
  testing : ∀ n, k = .testDrained n → n ≤ s.appended ∧ (s.appended = n → s.Drained)
  closing : ∀ n, k.drainedClose = some n → s.appended = n ∧ s.Drained

theorem foundDrained_of_none {k : Place β} (hk : k.drainedClose = none)
    (htest : ∀ n, k ≠ .testDrained n) : FoundDrained s k :=
  ⟨fun n h => absurd h (htest n), fun n h => by rw [hk] at h; exact absurd h (by simp)⟩

/-- What it knows is not changed by a step, unless that appends under its close. -/
theorem FoundDrained.step {k₂ : Place β} (h : FoundDrained s k₂) (hs : s.QueueOk)
    (hk : Holds a s.owner k) (hstep : LocalStep a s k e s' k')
    (hmanage : k.appends = true → k₂.drainedClose = none) :
    FoundDrained s' k₂ := by
  have hdrained := drained_localStep hs hk hstep
  rcases appended_localStep hstep with ⟨buffers, hkm, happ⟩ | happ
  · refine ⟨fun n hn => ?_, fun n hn => ?_⟩
    · obtain ⟨hle, hd⟩ := h.testing n hn
      refine ⟨by omega, fun heq => ?_⟩
      exact hdrained (hd (by omega)) (by omega)
    · obtain ⟨heq, hd⟩ := h.closing n hn
      have hnil : buffers = [] := by
        by_contra hne
        rw [hmanage (by simpa [hkm, Place.appends] using hne)] at hn
        exact absurd hn (by simp)
      rw [hnil, List.length_nil, Nat.add_zero] at happ
      exact ⟨happ.trans heq, hdrained hd happ⟩
  · refine ⟨fun n hn => ?_, fun n hn => ?_⟩
    · rw [happ]
      obtain ⟨hle, hd⟩ := h.testing n hn
      exact ⟨hle, fun heq => hdrained (hd heq) happ⟩
    · rw [happ]
      obtain ⟨heq, hd⟩ := h.closing n hn
      exact ⟨heq, hdrained hd happ⟩

/-- Where a step leads from a place that knows, or from the `mark` that finds out. -/
theorem drainedClose_localStep (hstep : LocalStep a s k e s' k') :
    (∀ n, k' = .testDrained n → k = .mark ∧ s.queue.mark.1 = 0 ∧ n = s.appended) ∧
    ∀ n, k'.drainedClose = some n →
      k = .testDrained n ∧ s.status = .closing ∨ k.drainedClose = some n := by
  cases hstep with
  | markEmpty hz =>
      refine ⟨fun n hn => ⟨rfl, hz, (Place.testDrained.inj hn).symm⟩, ?_⟩
      simp [Place.drainedClose]
  | drained hclosing =>
      refine ⟨by simp, fun n hn => .inl ⟨?_, hclosing⟩⟩
      exact congrArg Place.testDrained (Option.some.inj hn)
  | @closeLoad call | @closeRetry call | @closeExchanged call =>
      refine ⟨by simp, fun n hn => .inr ?_⟩
      cases call <;> simp_all [Place.drainedClose]
  | _ => exact ⟨by simp, by simp [Place.drainedClose]⟩

theorem foundDrained_localStep (hs : s.QueueOk) (hk : Holds a s.owner k) (hf : FoundDrained s k)
    (htest : ∀ n, k = .testDrained n → s.status = .closing → s.appended = n)
    (hstep : LocalStep a s k e s' k') : FoundDrained s' k' := by
  obtain ⟨hfrom, hclose⟩ := drainedClose_localStep hstep
  have hdrained := drained_localStep hs hk hstep
  constructor
  · intro n hn
    obtain ⟨rfl, hz, rfl⟩ := hfrom n hn
    rcases appended_localStep hstep with ⟨buffers, hkm, -⟩ | happ
    · exact absurd hkm (by simp)
    · exact ⟨Nat.le_of_eq happ.symm, fun _ => hdrained (drained_of_mark hs hz) happ⟩
  · intro n hn
    have hbefore : s.appended = n ∧ s.Drained := by
      rcases hclose n hn with ⟨hkt, hclosing⟩ | hkc
      · have heq := htest n hkt hclosing
        exact ⟨heq, (hf.testing n hkt).2 heq⟩
      · exact hf.closing n hkc
    rcases appended_localStep hstep with ⟨buffers, rfl, -⟩ | happ
    · cases hstep
      exact absurd hn (by simp [Place.drainedClose])
    · exact ⟨happ.trans hbefore.1, hdrained hbefore.2 happ⟩

end SessionState

/-- The runs in which no buffer is appended under a graceful close. -/
def undisturbedSystem (T β : Type*) [DecidableEq T] :
    TransitionSystem (Session T β) (T × SessionEvent β) :=
  (sessionSystem T β).restrict Undisturbed

theorem foundDrained [DecidableEq T] {c : Session T β} (hc : (undisturbedSystem T β).Reachable c)
    (a : T) : SessionState.FoundDrained c.shared (c.pc a) := by
  refine (hc.interleave_invariant (G := fun _ => True)
    (L := fun _ s k => SessionState.FoundDrained s k) ?_ ?_).2 a
  · rintro c ⟨accepted, rfl⟩
    exact ⟨trivial, fun a => SessionState.foundDrained_of_none rfl (by simp [Session.initial])⟩
  · intro c a e s k hreach _ hl hC hact
    obtain ⟨hs, hk⟩ := session_queueInv hreach
    have hstep := SessionState.localStep_of_act hact
    refine ⟨trivial, ?_, fun b _ => (hl b).step hs (hk a) hstep fun happ => hC.manage happ b⟩
    refine SessionState.foundDrained_localStep hs (hk a) (hl a) (fun n hn => ?_) hstep
    exact hC.test n (by rw [hn]; rfl)

/-- In every run in which no buffer is appended under a graceful close, whatever fails and
whoever else closes the session: while the graceful path of `write()` performs its
`close(true)`, up to the moment the socket is closed, no `async_write` is outstanding and
no buffer is managed or marked; all that was appended is written completely and reported. -/
theorem graceful_close_drained [DecidableEq T] (c : Session T β) (a : T) (n : ℕ)
    (hc : (undisturbedSystem T β).Reachable c) (ha : (c.pc a).drainedClose = some n) :
    c.shared.Drained ∧ c.shared.completed.flatten = c.shared.calls.flatten ∧
      c.shared.reported = c.shared.completed := by
  obtain ⟨hs, -⟩ := session_queueInv hc
  obtain ⟨-, hd⟩ := (foundDrained hc a).closing n ha
  have hbatches := hs.batches
  have horder := hs.order
  have howner := owner_nobody hbatches hd.marked
  rw [howner] at hbatches horder
  refine ⟨hd, ?_, hbatches.2.2.2.symm⟩
  rw [← hbatches.2.2.1, ← horder, hd.managed]
  simp [Owner.unhanded]

/-- A write is followed by a graceful close. -/
def writeThenClose (a b : T) : List (T × SessionEvent ℕ) :=
  [(a, .write [1]), (a, .run), (a, .run), (a, .run), (a, .run), (a, .run), (b, .close false),
    (b, .run), (b, .run), (b, .run), (b, .run), (b, .run), (a, .writeDone true), (a, .run),
    (a, .run), (a, .run), (a, .run), (a, .run), (a, .run), (a, .run)]

theorem graceful_close_drained_one : ∃ c : Session (Fin 2) ℕ,
    c.shared.status = .closed ∧ c.pc 0 = .closeSocket (.drained 1) ∧ c.shared.calls = [[1]] ∧
      c.shared.Drained ∧ c.shared.completed.flatten = c.shared.calls.flatten := by
  obtain ⟨c, hc, hp⟩ := Session.exists_reachable_of_exec (Undisturbed (T := Fin 2) (β := ℕ)) true
    (writeThenClose 0 1) (fun c => decide (c.shared.status = .closed ∧
      c.pc 0 = .closeSocket (.drained 1) ∧ c.shared.calls = [[1]])) (by decide +kernel)
  obtain ⟨hclosed, hk, hcalls⟩ := of_decide_eq_true hp
  obtain ⟨hd, hall, -⟩ := graceful_close_drained c 0 1 hc (by rw [hk]; rfl)
  exact ⟨c, hclosed, hk, hcalls, hd, hall⟩

/-- No I/O fails, and the application closes gracefully only. -/
def SessionEvent.calm : SessionEvent β → Bool
  | .close immediately => !immediately
  | .connectDone ok | .readDone ok | .writeDone ok => ok
  | _ => true

/-- Between the empty `mark` of a callback and its test of the status, a call of `write` starts
a batch and returns, and `close(false)` is called. -/
def writeAfterMark (a b : T) : List (T × SessionEvent ℕ) :=
  [(a, .write [1]), (a, .run), (a, .run), (a, .run), (a, .run), (a, .run), (a, .writeDone true),
    (a, .run), (a, .run), (a, .run), (a, .run), (b, .write [2]), (b, .run), (b, .run), (b, .run),
    (b, .run), (b, .run), (b, .close false), (b, .run), (b, .run), (b, .run), (b, .run), (b, .run),
    (a, .run), (a, .run), (a, .run)]

theorem not_graceful_close_drained : ¬ ∀ (c : Session (Fin 2) ℕ) (a : Fin 2) (n : ℕ),
    ((sessionSystem (Fin 2) ℕ).restrict fun _ e => e.2.calm = true).Reachable c →
      c.pc a = .closeSocket (.drained n) → c.shared.writes = [] := by
  intro h
  obtain ⟨c, hc, hp⟩ := Session.exists_reachable_of_exec
    (fun (_ : Session (Fin 2) ℕ) e => e.2.calm = true) true (writeAfterMark 0 1)
    (fun c => decide (c.pc 0 = .closeSocket (.drained 1) ∧ c.shared.writes = [[2]]))
    (by decide +kernel)
  obtain ⟨hk, hwrites⟩ := of_decide_eq_true hp
  have hnil := h c 0 1 hc hk
  rw [hwrites] at hnil
  exact absurd hnil (by simp)

end Minapp
