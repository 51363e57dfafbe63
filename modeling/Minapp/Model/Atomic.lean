import Minapp.Library.Interleaving
import Minapp.Library.Linearization
import Mathlib.Data.Int.Notation

/-! Cells `object::atomic` and the threads that operate on them, interleaved at every access
to the storage words and to the reference counts, in the order of C++17: without
`storage.wait`, which only makes a thread skip loads that find the same word. -/

namespace Minapp

/-- The address of a holder; null is none. -/
abbrev Handle := Option ℕ

/-- The storage word: a handle, whose two low order bits are `locked` and `waiting`. -/
structure Word where
  handle : Handle := none
  locked : Bool := false
  waiting : Bool := false
  deriving DecidableEq

/-- `v & ~mask`. -/
def Word.unmasked (v : Word) : Word := { handle := v.handle }

/-- The functions that access the object by `lock_and_load` and `store_and_unlock`. -/
inductive Access where
  | load
  | store (desired : Handle)
  | exchange (desired : Handle)
  /-- `compare_exchange_strong`; `compare_exchange_weak` calls it. -/
  | compareExchange (expected desired : Handle)
  deriving DecidableEq

inductive AtomicOp where
  | access (x : Access)
  | lock
  | tryLock
  | unlock
  | get
  | set (obj : Handle)
  deriving DecidableEq

inductive AtomicResult where
  | done
  | handle (p : Handle)
  | succeeded (result : Bool)
  /-- The result of `compare_exchange`, and what is in `expected` then. -/
  | compared (result : Bool) (expected : Handle)
  deriving DecidableEq

namespace Access

/-- The objects the function is given, by value or as `expected`. -/
def args : Access → List Handle
  | .load => []
  | .store desired | .exchange desired => [desired]
  | .compareExchange expected desired => [expected, desired]

/-- Whether `obj` is copied, as the handle that was in the cell goes back there. -/
def keeps (p : Handle) : Access → Bool
  | .load => true
  | .store _ | .exchange _ => false
  | .compareExchange expected _ => p ≠ expected

/-- The handle that `store_and_unlock` is given. -/
def stored (p : Handle) : Access → Handle
  | .load => p
  | .store desired | .exchange desired => desired
  | .compareExchange expected desired => if p = expected then desired else p

def result (p : Handle) : Access → AtomicResult
  | .load | .exchange _ => .handle p
  | .store _ => .done
  | .compareExchange expected _ =>
    if p = expected then .compared true expected else .compared false p

/-- The objects that are left to the caller: what is returned, and `expected`. -/
def left (p : Handle) : Access → List Handle
  | .load | .exchange _ => [p]
  | .store _ => []
  | .compareExchange expected _ => if p = expected then [expected] else [p]

/-- The objects that are destroyed at the end: `obj`, and `desired` if it was not stored. -/
def drops (p : Handle) : Access → List Handle
  | .load | .exchange _ => []
  | .store _ => [p]
  | .compareExchange expected desired => if p = expected then [p] else [expected, desired]

end Access

def AtomicOp.args : AtomicOp → List Handle
  | .access x => x.args
  | .set obj => [obj]
  | _ => []

/-- The functions that only the holder of the lock calls. -/
def AtomicOp.needsLock : AtomicOp → Bool
  | .unlock | .get | .set _ => true
  | _ => false

/-- The next access of a thread to the cell `i`; none instead of a function is `lock`. -/
inductive AtomicPlace (ι : Type*) where
  | idle
  /-- `lock_and_load`: `storage.load`. -/
  | lockLoad (i : ι) (x : Option Access)
  /-- The switch on `v & mask`, and the access of its case. -/
  | lockTry (i : ι) (x : Option Access) (v : Word)
  /-- `obj.p->addref()`, if `obj` is not null. -/
  | addref (i : ι) (x : Access) (holder : ℕ)
  | storeUnlock (i : ι) (x : Access) (p : Handle)
  | tryLoad (i : ι)
  | tryExchange (i : ι) (v : Word)
  | unlockLoad (i : ι)
  | unlockStore (i : ι) (v : Word)
  | getLoad (i : ι)
  | getAddref (i : ι) (holder : ℕ)
  | setLoad (i : ι) (obj : Handle)
  | setExchange (i : ι) (obj : Handle) (v : Word)
  /-- Objects are destroyed: at the end of an operation, which then returns, or for itself. -/
  | finish (ret : Option (ι × AtomicOp × AtomicResult)) (drops : List Handle)
  /-- `delete p`. -/
  | delete (ret : Option (ι × AtomicOp × AtomicResult)) (drops : List Handle) (holder : ℕ)
  | terminated
  deriving DecidableEq

def AtomicOp.start {ι : Type*} (i : ι) : AtomicOp → AtomicPlace ι
  | .access x => .lockLoad i (some x)
  | .lock => .lockLoad i none
  | .tryLock => .tryLoad i
  | .unlock => .unlockLoad i
  | .get => .getLoad i
  | .set obj => .setLoad i obj

/-- Where a function goes on when `lock_and_load` has returned `p`. -/
def Access.afterLock {ι : Type*} (i : ι) (x : Access) (p : Handle) : AtomicPlace ι :=
  match p with
  | some holder => if x.keeps p then .addref i x holder else .storeUnlock i x p
  | none => .storeUnlock i x p

/-- A thread: its object variables, the cells it has locked, and its next access. -/
structure AtomicThread (ι : Type*) where
  vars : List Handle := []
  locks : List ι := []
  place : AtomicPlace ι := .idle
  deriving DecidableEq

/-- Who has locked a cell: a function, or the caller of `lock` or `try_lock`. -/
inductive CellOwner (T : Type*) where
  | free
  | function (a : T)
  | user (a : T)
  deriving DecidableEq

/-- The cells, and the reference counts of the holders. From `owner` on it is history. -/
structure AtomicState (T ι : Type*) where
  words : ι → Word := fun _ => {}
  counts : ℕ → ℤ := fun _ => 0
  /-- The addresses at which there is a holder; `new` takes any other. -/
  alive : ℕ → Bool := fun _ => false
  owner : ι → CellOwner T := fun _ => .free
  /-- Who has released the last reference. -/
  releasedBy : ℕ → Option T := fun _ => none
  trace : List (Linearization.Event T (ι × AtomicOp) AtomicResult) := []

inductive AtomicEvent (ι : Type*) where
  /-- An object variable is created, with a new holder or null, copied, or destroyed. -/
  | make (p : Handle)
  | copy (p : Handle)
  | drop (p : Handle)
  | call (i : ι) (op : AtomicOp)
  /-- The next access. -/
  | run
  /-- `compare_exchange_weak` fails although it could succeed. -/
  | spurious

/-- What is left of the variables when `args` are moved out of them. -/
def takeArgs : List Handle → List Handle → Option (List Handle)
  | vars, [] => some vars
  | vars, p :: args => if p ∈ vars then takeArgs (vars.erase p) args else none

namespace AtomicState

variable {T ι : Type*} [DecidableEq ι] (s : AtomicState T ι)

def setWord (i : ι) (v : Word) : AtomicState T ι :=
  { s with words := Function.update s.words i v }

def setOwner (i : ι) (o : CellOwner T) : AtomicState T ι :=
  { s with owner := Function.update s.owner i o }

def addCount (holder : ℕ) (c : ℤ) : AtomicState T ι :=
  { s with counts := Function.update s.counts holder (s.counts holder + c) }

def record (e : Linearization.Event T (ι × AtomicOp) AtomicResult) : AtomicState T ι :=
  { s with trace := s.trace ++ [e] }

/-- The next access of thread `a`, and where it goes on. -/
def access (a : T) (l : AtomicThread ι) : Option (AtomicState T ι × AtomicThread ι) :=
  match l.place with
  | .lockLoad i x => some (s, { l with place := .lockTry i x (s.words i) })
  | .lockTry i x v =>
    let again := { l with place := .lockTry i x (s.words i) }
    match v.locked, v.waiting with
    | false, false =>
      if s.words i = v then
        let s := s.setWord i { v with locked := true }
        match x with
        | some x => some (s.setOwner i (.function a), { l with place := x.afterLock i v.handle })
        | none =>
          some ((s.setOwner i (.user a)).record (.effect a (i, .lock) .done),
            { l with locks := i :: l.locks, place := .finish (some (i, .lock, .done)) [] })
      else some (s, again)
    | true, false =>
      if s.words i = v then
        some (s.setWord i { v.unmasked with waiting := true }, { l with place := .lockLoad i x })
      else some (s, again)
    | false, true => some (s, again)
    | true, true => some (s, { l with place := .terminated })
  | .addref i x holder =>
    some (s.addCount holder 1, { l with place := .storeUnlock i x (some holder) })
  | .storeUnlock i x p =>
    some (((s.setWord i { handle := x.stored p }).setOwner i .free).record
        (.effect a (i, .access x) (x.result p)),
      { l with
        vars := l.vars ++ x.left p
        place := .finish (some (i, .access x, x.result p)) (x.drops p) })
  | .tryLoad i => some (s, { l with place := .tryExchange i (s.words i).unmasked })
  | .tryExchange i v =>
    if s.words i = v then
      some (((s.setWord i { v with locked := true }).setOwner i (.user a)).record
          (.effect a (i, .tryLock) (.succeeded true)),
        { l with
          locks := i :: l.locks
          place := .finish (some (i, .tryLock, .succeeded true)) [] })
    else
      some (s.record (.effect a (i, .tryLock) (.succeeded false)),
        { l with place := .finish (some (i, .tryLock, .succeeded false)) [] })
  | .unlockLoad i => some (s, { l with place := .unlockStore i (s.words i).unmasked })
  | .unlockStore i v =>
    some (((s.setWord i v).setOwner i .free).record (.effect a (i, .unlock) .done),
      { l with locks := l.locks.erase i, place := .finish (some (i, .unlock, .done)) [] })
  | .getLoad i =>
    match (s.words i).handle with
    | some holder => some (s, { l with place := .getAddref i holder })
    | none =>
      some (s.record (.effect a (i, .get) (.handle none)),
        { l with
          vars := l.vars ++ [none]
          place := .finish (some (i, .get, .handle none)) [] })
  | .getAddref i holder =>
    some ((s.addCount holder 1).record (.effect a (i, .get) (.handle (some holder))),
      { l with
        vars := l.vars ++ [some holder]
        place := .finish (some (i, .get, .handle (some holder))) [] })
  | .setLoad i obj => some (s, { l with place := .setExchange i obj (s.words i) })
  | .setExchange i obj v =>
    if s.words i = v then
      some ((s.setWord i { v with handle := obj }).record
          (.effect a (i, .set obj) (.handle v.handle)),
        { l with
          vars := l.vars ++ [v.handle]
          place := .finish (some (i, .set obj, .handle v.handle)) [] })
    else some (s, { l with place := .setExchange i obj (s.words i) })
  | .finish ret (some holder :: drops) =>
    let s := s.addCount holder (-1)
    if s.counts holder = 0 then
      some ({ s with releasedBy := Function.update s.releasedBy holder (some a) },
        { l with place := .delete ret drops holder })
    else some (s, { l with place := .finish ret drops })
  | .finish ret (none :: drops) => some (s, { l with place := .finish ret drops })
  | .finish (some (i, op, result)) [] =>
    some (s.record (.ret a (i, op) result), { l with place := .idle })
  | .finish none [] => some (s, { l with place := .idle })
  | .delete ret drops holder =>
    some ({ s with alive := Function.update s.alive holder false },
      { l with place := .finish ret drops })
  | .idle | .terminated => none

/-- One step of thread `a`. -/
def act (a : T) (s : AtomicState T ι) (l : AtomicThread ι) :
    AtomicEvent ι → Option (AtomicState T ι × AtomicThread ι)
  | .make none =>
    if l.place = .idle then some (s, { l with vars := l.vars ++ [none] }) else none
  | .make (some holder) =>
    if l.place = .idle ∧ s.alive holder = false then
      some ({ s with
          counts := Function.update s.counts holder 1
          alive := Function.update s.alive holder true },
        { l with vars := l.vars ++ [some holder] })
    else none
  | .copy p =>
    if l.place = .idle ∧ p ∈ l.vars then
      match p with
      | some holder => some (s.addCount holder 1, { l with vars := l.vars ++ [p] })
      | none => some (s, { l with vars := l.vars ++ [p] })
    else none
  | .drop p =>
    if l.place = .idle ∧ p ∈ l.vars then
      some (s, { l with vars := l.vars.erase p, place := .finish none [p] })
    else none
  | .call i op =>
    if l.place = .idle ∧ (op.needsLock → i ∈ l.locks) then
      (takeArgs l.vars op.args).map fun vars =>
        (s.record (.call a (i, op)), { l with vars, place := op.start i })
    else none
  | .run => s.access a l
  | .spurious =>
    match l.place with
    | .lockTry i x v =>
      if v.waiting then none else some (s, { l with place := .lockTry i x (s.words i) })
    | .tryExchange i _ =>
      some (s.record (.effect a (i, .tryLock) (.succeeded false)),
        { l with place := .finish (some (i, .tryLock, .succeeded false)) [] })
    | .setExchange i obj _ => some (s, { l with place := .setExchange i obj (s.words i) })
    | _ => none

end AtomicState

/-- Cells `ι` and the threads `T` that operate on them. -/
abbrev Atomic (T ι : Type*) := Config T (AtomicState T ι) (AtomicThread ι)

namespace Atomic

/-- Empty cells, and threads without variables. -/
def initial (T ι : Type*) : Atomic T ι := ⟨{}, fun _ => {}⟩

end Atomic

/-- All interleavings of the threads. -/
def atomicSystem (T ι : Type*) [DecidableEq T] [DecidableEq ι] :
    TransitionSystem (Atomic T ι) (T × AtomicEvent ι) :=
  interleave (· = Atomic.initial T ι) AtomicState.act

end Minapp
