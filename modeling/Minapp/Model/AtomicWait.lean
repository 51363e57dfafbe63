import Minapp.Library.WaitQueue
import Minapp.Model.Atomic

/-! Cells `object::atomic` in the order of C++20: a thread that finds a cell locked blocks in
`storage.wait`, and `store_and_unlock` calls `notify_all` when there may be such threads. -/

namespace Minapp

variable {T ι : Type*}

/-- `(v & mask) == waiting`. -/
def Word.waitedFor (v : Word) : Bool := v.waiting && !v.locked

/-- The cell that the next access of a thread unlocks: `storage.exchange` in
`store_and_unlock`. -/
def AtomicPlace.unlocks : AtomicPlace ι → Option ι
  | .storeUnlock i _ _ | .unlockStore i _ => some i
  | _ => none

/-- The cell that the next access of a thread modifies. -/
def AtomicPlace.modifies [DecidableEq ι] (words : ι → Word) : AtomicPlace ι → Option ι
  | .lockTry i _ v => if v.waiting = false ∧ words i = v then some i else none
  | .tryExchange i v | .setExchange i _ v => if words i = v then some i else none
  | k => k.unlocks

/-- What a thread does before its next access to a cell. -/
inductive AtomicSync (ι : Type*) where
  | accessing
  /-- `storage.wait(v)`. -/
  | wait (i : ι) (v : Word)
  /-- `storage.notify_all()`; the thread has made modification `m`. -/
  | notifyAll (i : ι) (m : ℕ)
  deriving DecidableEq

structure WaitingThread (ι : Type*) where
  thread : AtomicThread ι := {}
  sync : AtomicSync ι := .accessing
  deriving DecidableEq

/-- The cells, and the threads that are blocked on each. -/
structure WaitingState (T ι : Type*) where
  cells : AtomicState T ι := {}
  queues : ι → WaitQueue T := fun _ => {}

inductive WaitingEvent (ι : Type*) where
  | access (e : AtomicEvent ι)
  /-- `wait` compares the value, or `notify_all`. -/
  | sync
  /-- The thread is unblocked spuriously. -/
  | unblock (i : ι)

namespace WaitingState

variable [DecidableEq ι] (s : WaitingState T ι)

/-- What a thread does once it has gone from the place `k` to `k'`. -/
def syncAfter (k k' : AtomicPlace ι) : AtomicSync ι :=
  match k.unlocks with
  | some i =>
    if (s.cells.words i).waitedFor then .notifyAll i ((s.queues i).version + 1) else .accessing
  | none =>
    match k, k' with
    -- the exchange of `case locked` has succeeded, and `case waiting` follows
    | .lockTry i _ v, .lockLoad _ _ => .wait i { v.unmasked with waiting := true }
    | _, .lockTry i _ v => if v.waitedFor then .wait i v else .accessing
    | _, _ => .accessing

def updateQueue (i : ι) (q : WaitQueue T) : WaitingState T ι :=
  { s with queues := Function.update s.queues i q }

/-- The queues after an access at the place `k`. -/
def queuesAfter (k : AtomicPlace ι) : AtomicEvent ι → ι → WaitQueue T
  | .run =>
    match k.modifies s.cells.words with
    | some i => Function.update s.queues i (s.queues i).modify
    | none => s.queues
  | _ => s.queues

/-- One step of thread `a`. -/
def act [DecidableEq T] (a : T) (s : WaitingState T ι) (l : WaitingThread ι) :
    WaitingEvent ι → Option (WaitingState T ι × WaitingThread ι)
  | .access e =>
    if l.sync = .accessing then
      (s.cells.act a l.thread e).map fun r =>
        (⟨r.1, s.queuesAfter l.thread.place e⟩, ⟨r.2, s.syncAfter l.thread.place r.2.place⟩)
    else none
  | .sync =>
    match l.sync with
    | .accessing => none
    | .wait i v =>
      if (s.queues i).Blocked a then none
      else if s.cells.words i = v then some (s.updateQueue i ((s.queues i).block a), l)
      else some (s, { l with sync := .accessing })
    | .notifyAll i m =>
      some (s.updateQueue i ((s.queues i).notifyAll m), { l with sync := .accessing })
  | .unblock i =>
    if (s.queues i).Blocked a then some (s.updateQueue i ((s.queues i).unblock a), l) else none

end WaitingState

/-- Cells `ι` and the threads `T` that operate on them. -/
abbrev WaitingAtomic (T ι : Type*) := Config T (WaitingState T ι) (WaitingThread ι)

/-- All interleavings of the threads. -/
def waitingSystem (T ι : Type*) [DecidableEq T] [DecidableEq ι] :
    TransitionSystem (WaitingAtomic T ι) (T × WaitingEvent ι) :=
  interleave (· = ⟨{}, fun _ => {}⟩) WaitingState.act

end Minapp
