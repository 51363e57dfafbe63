import Minapp.Library.Interleaving
import Minapp.Library.OrderedSet
import Mathlib.Algebra.Group.Nat.Defs
import Mathlib.Data.Nat.Basic

/-! A session manager as its activations see it: the creation of sessions, the release of
the last `session_ptr`, and the calls of `get` and `foreach`, interleaved at every access to
the guard, the set, the reference counts and the handlers. -/

namespace Minapp

/-- What `noexcept_handler::wrap` makes of a `handler_ptr`. -/
inductive Handler (H : Type*) where
  | dummy
  | wrapped (handler : H)
  deriving DecidableEq

def Handler.wrap {H : Type*} : Option H → Handler H
  | none => .dummy
  | some handler => .wrapped handler

/-- The number of values of `unsigned long`. -/
def ulongSize : ℕ := 2 ^ 64

/-- The `id_` of the session that has drawn the `n`-th value of the counter. -/
def sessionId (n : ℕ) : ℕ := n % ulongSize

/-- A session, by what its creation, its lookup and its release access. -/
structure SessionObject (T H : Type*) where
  /-- The `session_ptr` of the application and of asynchronous operations. -/
  refs : ℕ := 0
  /-- The activations with a `session_ptr` of their own. -/
  pins : List T := []
  /-- `handler_`, which is null at first. -/
  handler : Option (Handler H) := none
  /-- History: who creates the session, and whether it has been owned. -/
  creator : Option T := none
  born : Bool := false

/-- `use_count() != 0`. -/
def SessionObject.Owned {T H : Type*} (o : SessionObject T H) : Prop := 0 < o.refs ∨ o.pins ≠ []

instance {T H : Type*} (o : SessionObject T H) : Decidable o.Owned :=
  decidable_of_iff (0 < o.refs ∨ o.pins.isEmpty = false) (by simp [SessionObject.Owned])

/-- A call of `foreach`. All but `count` is history: the sessions owned when it was called,
and those it has called `f` with. -/
structure Visit where
  started : List ℕ
  calls : List ℕ := []
  /-- `c`. -/
  count : ℕ := 0
  deriving DecidableEq

/-- A call of `get`, with the sessions owned when it was called. -/
structure Query where
  started : List ℕ
  id : ℕ
  deriving DecidableEq

/-- What a call of `get` or `foreach` has ended in. -/
inductive LookupOutcome where
  | got (query : Query) (result : Option ℕ)
  /-- All sessions are visited, or `f` has returned false. -/
  | visited (visit : Visit)
  | stopped (visit : Visit)
  | callbackThrew
  | badWeakPtr
  deriving DecidableEq

/-- Where the release of a local `session_ptr` goes on. -/
inductive ReleaseReturn where
  | idle
  | next (visit : Visit) (id : ℕ)
  | stopped (visit : Visit)
  | callbackThrew
  deriving DecidableEq

/-- The next access of an activation, about the session `n` where there is one. -/
inductive ManagerPlace (H : Type*) where
  | idle
  /-- `id_(::id.fetch_add(1))`. -/
  | fetchId (handler : Handler H)
  /-- `session_impl::session_impl`. -/
  | insertLock (n : ℕ) (handler : Handler H)
  | insert (n : ℕ) (handler : Handler H)
  | insertUnlock (n : ℕ) (handler : Handler H)
  /-- `make_shared` makes the new session owned. -/
  | makeShared (n : ℕ) (handler : Handler H)
  /-- `session->handler_ = ...`, by `connect_impl` or `accept`. -/
  | assignHandler (n : ℕ) (handler : Handler H)
  | connect (n : ℕ)
  /-- A local `session_ptr` goes out of scope. -/
  | release (n : ℕ) (ret : ReleaseReturn)
  /-- `session_impl::~session_impl`. -/
  | eraseLock (n : ℕ) (ret : ReleaseReturn)
  | erase (n : ℕ) (ret : ReleaseReturn)
  | eraseUnlock (n : ℕ) (ret : ReleaseReturn)
  /-- `session::~session`: `close(true)`, which calls the handler. -/
  | destroy (n : ℕ) (ret : ReleaseReturn)
  | getLock (query : Query)
  | getFind (query : Query)
  | getShared (query : Query) (n : ℕ)
  | getUnlock (query : Query) (result : Option ℕ)
  | getUnwind
  | eachLock (visit : Visit) (after : Option ℕ)
  | eachSeek (visit : Visit) (after : Option ℕ)
  | eachShared (visit : Visit) (n : ℕ)
  | eachUnlock (visit : Visit) (n : ℕ)
  | eachCall (visit : Visit) (n : ℕ)
  | eachEnd (visit : Visit)
  | done (outcome : LookupOutcome)
  deriving DecidableEq

def ReleaseReturn.place {H : Type*} : ReleaseReturn → ManagerPlace H
  | .idle => .idle
  | .next visit id => .eachLock visit (some id)
  | .stopped visit => .done (.stopped visit)
  | .callbackThrew => .done .callbackThrew

/-- What `f` does. -/
inductive CallbackResult where
  | true
  | false
  | throws
  deriving DecidableEq

structure ManagerState (T H : Type*) where
  /-- `::id`, but for the wrapping. -/
  issued : ℕ := 1
  objects : ℕ → SessionObject T H := fun _ => {}
  /-- `sessions`. -/
  sessions : List ℕ := []
  /-- Who has locked the guard. -/
  guard : Option T := none

inductive ManagerEvent (H : Type*) where
  /-- A session is created, by `connect_impl` or in the callback of `accept`. -/
  | create (handler : Option H)
  /-- A session of another manager draws an id. -/
  | elsewhere
  | get (id : ℕ)
  | foreach
  /-- A `session_ptr` to the session `n` is copied, dropped, or used to set the handler. -/
  | copy (n : ℕ)
  | drop (n : ℕ)
  | handler (n : ℕ) (handler : Option H)
  /-- The next access. -/
  | run
  /-- `f` takes a `session_ptr`, and returns. -/
  | keep
  | answer (result : CallbackResult)

/-- What `shared_from_this` throws when no `session_ptr` owns the session. -/
inductive BadWeakPtr where
  | badWeakPtr

namespace ManagerState

variable {T H : Type*} [DecidableEq T] (s : ManagerState T H)

/-- The sessions that are owned. -/
def ownedSessions : List ℕ := (List.range s.issued).filter fun n => (s.objects n).Owned

def setObject (n : ℕ) (o : SessionObject T H) : ManagerState T H :=
  { s with objects := Function.update s.objects n o }

/-- A `session_ptr` of activation `a`. -/
def pin (a : T) (n : ℕ) : ManagerState T H :=
  s.setObject n { s.objects n with pins := a :: (s.objects n).pins }

def unpin (a : T) (n : ℕ) : ManagerState T H :=
  s.setObject n { s.objects n with pins := (s.objects n).pins.erase a }

def addRef (n : ℕ) : ManagerState T H :=
  s.setObject n { s.objects n with refs := (s.objects n).refs + 1 }

def dropRef (n : ℕ) : ManagerState T H :=
  s.setObject n { s.objects n with refs := (s.objects n).refs - 1 }

/-- Where a released session leads: its destructor runs when it is not owned any more. -/
def afterRelease (n : ℕ) (ret : ReleaseReturn) : ManagerPlace H :=
  if (s.objects n).Owned then ret.place else .eraseLock n ret

/-- `std::enable_shared_from_this::shared_from_this`. -/
def sharedFromThis (n : ℕ) : Except BadWeakPtr (Option ℕ) :=
  if (s.objects n).Owned then .ok (some n) else .error .badWeakPtr

/-- `begin()`, or `upper_bound(id)`. -/
def seek : Option ℕ → Option ℕ
  | none => s.sessions.head?
  | some id => OrderedSet.upperBound sessionId id s.sessions

/-- `guard.lock()`, once the guard is free. -/
def lock (a : T) (k : ManagerPlace H) : Option (ManagerState T H × ManagerPlace H) :=
  if s.guard = none then some ({ s with guard := some a }, k) else none

def unlock (k : ManagerPlace H) : Option (ManagerState T H × ManagerPlace H) :=
  some ({ s with guard := none }, k)

/-- The next access of activation `a`, and where it goes on. -/
def access (a : T) : ManagerPlace H → Option (ManagerState T H × ManagerPlace H)
  | .fetchId handler =>
    some ({ s.setObject s.issued { creator := some a } with issued := s.issued + 1 },
      .insertLock s.issued handler)
  | .insertLock n handler => s.lock a (.insert n handler)
  | .insert n handler =>
    some ({ s with sessions := OrderedSet.insert sessionId n s.sessions }, .insertUnlock n handler)
  | .insertUnlock n handler => s.unlock (.makeShared n handler)
  | .makeShared n handler =>
    some (s.setObject n { s.objects n with pins := [a], born := true }, .assignHandler n handler)
  | .assignHandler n handler =>
    some (s.setObject n { s.objects n with handler := some handler }, .connect n)
  | .connect n => some (s.addRef n, .release n .idle)
  | .release n ret => some (s.unpin a n, (s.unpin a n).afterRelease n ret)
  | .eraseLock n ret => s.lock a (.erase n ret)
  | .erase n ret => some ({ s with sessions := s.sessions.erase n }, .eraseUnlock n ret)
  | .eraseUnlock n ret => s.unlock (.destroy n ret)
  | .destroy _ ret => some (s, ret.place)
  | .getLock query => s.lock a (.getFind query)
  | .getFind query =>
    match OrderedSet.find sessionId query.id s.sessions with
    | some n => some (s, .getShared query n)
    | none => some (s, .getUnlock query none)
  | .getShared query n =>
    match s.sharedFromThis n with
    | .ok (some n) => some (s.pin a n, .getUnlock query (some n))
    | .ok none => some (s, .getUnlock query none)
    -- the lock guard is destroyed while the exception is thrown
    | .error _ => some (s, .getUnwind)
  | .getUnlock query result => s.unlock (.done (.got query result))
  | .getUnwind => s.unlock (.done .badWeakPtr)
  | .eachLock visit after => s.lock a (.eachSeek visit after)
  | .eachSeek visit after =>
    match s.seek after with
    | some n => some (s, .eachShared visit n)
    | none => some (s, .eachEnd visit)
  | .eachShared visit n =>
    match s.sharedFromThis n with
    | .ok (some n) => some (s.pin a n, .eachUnlock visit n)
    | .ok none => some (s, .eachSeek visit (some (sessionId n)))
    -- nothing unlocks the guard
    | .error _ => some (s, .done .badWeakPtr)
  | .eachUnlock visit n => s.unlock (.eachCall visit n)
  | .eachEnd visit => s.unlock (.done (.visited visit))
  | .done (.got _ (some n)) => some ((s.unpin a n).addRef n, .idle)
  | .done _ => some (s, .idle)
  | .idle | .eachCall _ _ => none

/-- One step of activation `a`. -/
def act (a : T) (s : ManagerState T H) (k : ManagerPlace H) :
    ManagerEvent H → Option (ManagerState T H × ManagerPlace H)
  | .create handler => if k matches .idle then some (s, .fetchId (.wrap handler)) else none
  | .elsewhere => if k matches .idle then some ({ s with issued := s.issued + 1 }, .idle) else none
  | .get id => if k matches .idle then some (s, .getLock ⟨s.ownedSessions, id⟩) else none
  | .foreach =>
    if k matches .idle then some (s, .eachLock { started := s.ownedSessions } none) else none
  | .copy n =>
    if (k matches .idle) ∧ 0 < (s.objects n).refs then some (s.addRef n, .idle) else none
  | .drop n =>
    if (k matches .idle) ∧ 0 < (s.objects n).refs then
      some (s.dropRef n, (s.dropRef n).afterRelease n .idle)
    else none
  | .handler n handler =>
    if (k matches .idle) ∧ 0 < (s.objects n).refs then
      some (s.setObject n { s.objects n with handler := some (.wrap handler) }, .idle)
    else none
  | .run => s.access a k
  | .keep =>
    match k with
    | .eachCall visit n => some (s.addRef n, .eachCall visit n)
    | _ => none
  | .answer result =>
    match k with
    | .eachCall visit n =>
      let calls := visit.calls ++ [n]
      match result with
      | .true =>
        some (s, .release n (.next { visit with calls, count := visit.count + 1 } (sessionId n)))
      | .false => some (s, .release n (.stopped { visit with calls }))
      | .throws => some (s, .release n .callbackThrew)
    | _ => none

end ManagerState

/-- A session manager and its activations. -/
abbrev SessionManager (T H : Type*) := Config T (ManagerState T H) (ManagerPlace H)

namespace SessionManager

def initial (T H : Type*) : SessionManager T H := ⟨{}, fun _ => .idle⟩

end SessionManager

/-- All interleavings of the activations `T` of a manager of sessions with handlers `H`. -/
def managerSystem (T H : Type*) [DecidableEq T] :
    TransitionSystem (SessionManager T H) (T × ManagerEvent H) :=
  interleave (· = SessionManager.initial T H) ManagerState.act

end Minapp
