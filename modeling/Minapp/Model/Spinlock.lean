import Minapp.Library.Interleaving
import Minapp.Library.WaitQueue

/-! A `spinlock` and the threads that use it, interleaved at every access to its flag. -/

namespace Minapp

/-- How `lock` waits, by the feature test macros. -/
inductive SpinBuild where
  /-- `__cpp_lib_atomic_wait`. -/
  | wait
  /-- `__cpp_lib_atomic_flag_test`. -/
  | test
  | neither
  deriving DecidableEq, Repr

/-- The next access of a thread to `guard_`. -/
inductive SpinPlace where
  | idle
  /-- `try_lock`, called by `lock` or for itself. -/
  | testAndSet (locks : Bool)
  /-- `guard_.wait(true)`. -/
  | wait
  /-- `while (guard_.test())`. -/
  | test
  | clear
  /-- `guard_.notify_one()`; the thread has made modification `m`. -/
  | notifyOne (m : ℕ)
  deriving DecidableEq, Repr

/-- A thread, and whether it has the lock. -/
structure SpinThread where
  place : SpinPlace := .idle
  holds : Bool := false
  deriving DecidableEq, Repr

structure SpinState (T : Type*) where
  guard : Bool := false
  queue : WaitQueue T := {}
  deriving DecidableEq

inductive SpinEvent (T : Type*) where
  | lock
  | tryLock
  | unlock
  /-- The next access. -/
  | run
  /-- `notify_one` unblocks a thread, or none. -/
  | notify (woken : Option T)
  /-- The thread is unblocked spuriously. -/
  | unblock
  deriving DecidableEq

/-- Where `lock` goes on when `try_lock` has failed. -/
def SpinBuild.afterFailure : SpinBuild → SpinPlace
  | .wait => .wait
  | .test => .test
  | .neither => .testAndSet true

/-- Where `unlock` goes on when it has cleared the flag. -/
def SpinBuild.afterClear (m : ℕ) : SpinBuild → SpinPlace
  | .wait => .notifyOne m
  | .test | .neither => .idle

namespace SpinState

variable {T : Type*} [DecidableEq T]

/-- The next access of thread `a`. -/
def access (build : SpinBuild) (a : T) (s : SpinState T) (l : SpinThread) :
    Option (SpinState T × SpinThread) :=
  match l.place with
  | .testAndSet locks =>
    let s' := { s with guard := true, queue := s.queue.modify }
    if s.guard then
      some (s', { l with place := if locks then build.afterFailure else .idle })
    else some (s', { l with place := .idle, holds := true })
  | .wait =>
    if s.queue.Blocked a then none
    else if s.guard then some ({ s with queue := s.queue.block a }, l)
    else some (s, { l with place := .testAndSet true })
  | .test => some (s, if s.guard then l else { l with place := .testAndSet true })
  | .clear =>
    some ({ s with guard := false, queue := s.queue.modify },
      { l with place := build.afterClear (s.queue.version + 1), holds := false })
  | .idle | .notifyOne _ => none

/-- One step of thread `a`. Only the thread that has the lock calls `unlock`. -/
def act (build : SpinBuild) (a : T) (s : SpinState T) (l : SpinThread) :
    SpinEvent T → Option (SpinState T × SpinThread)
  | .lock => if l.place = .idle then some (s, { l with place := .testAndSet true }) else none
  | .tryLock => if l.place = .idle then some (s, { l with place := .testAndSet false }) else none
  | .unlock =>
    if l.place = .idle ∧ l.holds = true then some (s, { l with place := .clear }) else none
  | .run => s.access build a l
  | .notify woken =>
    match l.place with
    | .notifyOne m =>
      (s.queue.notifyOne m woken).map fun queue => ({ s with queue }, { l with place := .idle })
    | _ => none
  | .unblock =>
    if s.queue.Blocked a then some ({ s with queue := s.queue.unblock a }, l) else none

end SpinState

/-- A spinlock and the threads `T` that use it. -/
abbrev Spinlock (T : Type*) := Config T (SpinState T) SpinThread

/-- All interleavings of the threads, from a lock that is free. -/
def spinlockSystem (T : Type*) [DecidableEq T] (build : SpinBuild) :
    TransitionSystem (Spinlock T) (T × SpinEvent T) :=
  interleave (· = ⟨{}, fun _ => {}⟩) (SpinState.act build)

end Minapp
