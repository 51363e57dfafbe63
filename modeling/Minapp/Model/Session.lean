import Minapp.Library.Interleaving
import Minapp.Model.BufferManager

/-! A session as its activations see it: the calls of `write` and `close`, and the
callbacks of its asynchronous operations, interleaved at every access to the status, the
write queue, the socket and the handler. A call made inside an upcall is an activation of
its own. -/

namespace Minapp

/-- `enum class status`. -/
inductive Status where
  | connecting
  | connected
  | reading
  | closing
  | closed
  deriving DecidableEq, Repr

/-- The value of the enumerator, by which statuses are compared. -/
def Status.value : Status → ℕ
  | .connecting => 0
  | .connected => 1
  | .reading => 2
  | .closing => 3
  | .closed => 4

instance : LE Status := ⟨fun a b => a.value ≤ b.value⟩
instance : LT Status := ⟨fun a b => a.value < b.value⟩
instance (a b : Status) : Decidable (a ≤ b) := inferInstanceAs (Decidable (a.value ≤ b.value))
instance (a b : Status) : Decidable (a < b) := inferInstanceAs (Decidable (a.value < b.value))

/-- Calls of the handler, those of `write` with the buffers they are given. -/
inductive Upcall (β : Type*) where
  | connect
  | read
  | write (buffers : List β)
  | close
  | error
  deriving DecidableEq, Repr

def Upcall.written {β : Type*} : Upcall β → Option (List β)
  | .write buffers => some buffers
  | _ => none

/-- Where `close` is called from. -/
inductive CloseCall where
  /-- By the application, or by the destructor. -/
  | application (immediately : Bool)
  /-- By `write()` when the queue is drained; `appended` buffers had been appended when
  `mark` found it empty. -/
  | drained (appended : ℕ)
  | connectError
  | readError
  | writeError
  deriving DecidableEq, Repr

def CloseCall.immediately : CloseCall → Bool
  | .application immediately => immediately
  | .drained _ | .connectError | .writeError => true
  | .readError => false

def CloseCall.target (call : CloseCall) : Status :=
  if call.immediately then .closed else .closing

/-- The next access of an activation. -/
inductive Place (β : Type*) where
  | idle
  /-- `write(buffers)`: `if (status_ >= status::closing) return`. -/
  | testClosing (buffers : List β)
  | manage (buffers : List β)
  /-- `write()`: `if (status_ >= status::closed) return`. -/
  | testClosed
  | mark
  /-- `status_ == status::closing`, once `mark` has returned zero. -/
  | testDrained (appended : ℕ)
  | asyncWrite
  /-- `close`: `status_.load()`. -/
  | closeLoad (call : CloseCall)
  /-- `current < target && !status_.compare_exchange_weak(current, target)`. -/
  | closeExchange (call : CloseCall) (current : Status)
  | closeSocket (call : CloseCall)
  | closeUpcall
  /-- `connect(ec, promise)`: `status_ = status::connected`. -/
  | storeConnected
  /-- The argument of the upcall, `socket_.remote_endpoint()`. -/
  | remoteEndpoint
  | connectUpcall
  | connectError
  /-- `read()`: `status_.compare_exchange_strong(connected, reading)`. -/
  | readExchange
  /-- The functions that read by protocol, up to what they end in. -/
  | readProtocol
  /-- `protocol::none`: `status_.compare_exchange_strong(reading, connected)`. -/
  | readNone
  /-- The callback of a read, which delivers or goes on reading. -/
  | readDone
  | readUpcall
  | readError
  | writeUpcall
  | clearMarked
  | writeError
  deriving DecidableEq, Repr

/-- What a read function ends in. -/
inductive ReadOutcome where
  | none
  | async
  | upcall
  | error
  deriving DecidableEq, Repr

/-- Who answers for the marked buffers. -/
inductive Owner (T : Type*) where
  | nobody
  | starting (a : T)
  | operation
  | reporting (a : T)
  | clearing (a : T)
  | failed
  deriving DecidableEq, Repr

/-- The state the activations share. From `owner` on it is history: who answers for the
marked buffers, which activation has closed the session, the buffers of each call of
`manage`, the batches handed to `async_write`, those written completely, and every upcall. -/
structure SessionState (T β : Type*) where
  status : Status := .connecting
  /-- Created by an acceptor, with a connected socket, rather than by `connect_impl`. -/
  accepted : Bool
  /-- Its creator has not called `connect` yet. -/
  creating : Bool := true
  /-- The operations outstanding. -/
  connects : ℕ := 0
  reads : ℕ := 0
  writes : List (List β) := []
  queue : BufferManager β := {}
  socketOpen : Bool := accepted
  owner : Owner T := .nobody
  closedBy : Option T := none
  calls : List (List β) := []
  handed : List (List β) := []
  completed : List (List β) := []
  upcalls : List (Upcall β) := []

inductive SessionEvent (β : Type*) where
  /-- `write` of one buffer, several or a list is called. -/
  | write (buffers : List β)
  | close (immediately : Bool)
  /-- The creator calls `connect`, which of an accepted socket is the callback itself. -/
  | connect
  /-- A callback is called, with success or with an error. -/
  | connectDone (ok : Bool)
  | readDone (ok : Bool)
  | writeDone (ok : Bool)
  /-- The next access. -/
  | run
  /-- An access fails although it could succeed: `compare_exchange_weak` spuriously, or
  `remote_endpoint`, as the peer is gone. -/
  | spurious
  /-- A read function ends. -/
  | read (outcome : ReadOutcome)

namespace SessionState

variable {T β : Type*} (s : SessionState T β)

/-- The number of buffers appended so far. -/
def appended : ℕ := s.calls.flatten.length

/-- The batches reported by `handler::write`. -/
def reported : List (List β) := s.upcalls.filterMap Upcall.written

def upcall (u : Upcall β) : SessionState T β := { s with upcalls := s.upcalls ++ [u] }

/-- The next access of activation `a`, and where it goes on. -/
def access (a : T) : Place β → Option (SessionState T β × Place β)
  | .testClosing buffers =>
    some (s, if Status.closing ≤ s.status then .idle else .manage buffers)
  | .manage buffers =>
    some ({ s with queue := s.queue.manage buffers, calls := s.calls ++ [buffers] }, .testClosed)
  | .testClosed => some (s, if Status.closed ≤ s.status then .idle else .mark)
  | .mark =>
    let (marker, queue) := s.queue.mark
    if marker ≤ 0 then
      some ({ s with queue }, if marker = 0 then .testDrained s.appended else .idle)
    else some ({ s with queue, owner := .starting a }, .asyncWrite)
  | .testDrained appended =>
    some (s, if s.status = .closing then .closeLoad (.drained appended) else .idle)
  | .asyncWrite =>
    some ({ s with
      writes := s.writes ++ [s.queue.marked]
      owner := .operation
      handed := s.handed ++ [s.queue.marked] }, .idle)
  | .closeLoad call => some (s, .closeExchange call s.status)
  | .closeExchange call current =>
    if current < call.target then
      if s.status = current then
        some ({ s with
          status := call.target
          closedBy := if call.immediately then some a else s.closedBy }, .closeSocket call)
      else some (s, .closeExchange call s.status)
    else some (s, .idle)
  | .closeSocket call =>
    if call.immediately then some ({ s with socketOpen := false }, .closeUpcall)
    else some (s, .testClosed)
  | .closeUpcall => some (s.upcall .close, .idle)
  | .storeConnected => some ({ s with status := .connected }, .remoteEndpoint)
  | .remoteEndpoint =>
    -- `remote_endpoint` throws out of the callback if the socket is closed
    some (s, if s.socketOpen then .connectUpcall else .idle)
  | .connectUpcall => some (s.upcall .connect, .readExchange)
  | .connectError => some (s.upcall .error, .closeLoad .connectError)
  | .readExchange =>
    if s.status = .connected then some ({ s with status := .reading }, .readProtocol)
    else some (s, if s.status = .reading then .readProtocol else .idle)
  | .readNone =>
    some ({ s with status := if s.status = .reading then .connected else s.status }, .idle)
  | .readUpcall => some (s.upcall .read, .readExchange)
  | .readError => some (s.upcall .error, .closeLoad .readError)
  | .writeUpcall =>
    some ({ s.upcall (.write s.queue.marked) with owner := .clearing a }, .clearMarked)
  | .clearMarked => some ({ s with queue := s.queue.clearMarked, owner := .nobody }, .testClosed)
  | .writeError => some (s.upcall .error, .closeLoad .writeError)
  | .idle | .readProtocol | .readDone => none

/-- One step of activation `a`. -/
def act (a : T) (s : SessionState T β) (k : Place β) :
    SessionEvent β → Option (SessionState T β × Place β)
  | .write buffers => if k matches .idle then some (s, .testClosing buffers) else none
  | .close immediately =>
    if k matches .idle then some (s, .closeLoad (.application immediately)) else none
  | .connect =>
    if (k matches .idle) ∧ s.creating then
      if s.accepted then some ({ s with creating := false }, .storeConnected)
      else
        some ({ s with
          creating := false
          connects := s.connects + 1
          socketOpen := true }, .idle)
    else none
  | .connectDone ok =>
    if (k matches .idle) ∧ 0 < s.connects then
      some ({ s with connects := s.connects - 1 }, if ok then .storeConnected else .connectError)
    else none
  | .readDone ok =>
    if (k matches .idle) ∧ 0 < s.reads then
      some ({ s with reads := s.reads - 1 }, if ok then .readDone else .readError)
    else none
  | .writeDone ok =>
    match k, s.writes with
    | .idle, batch :: writes =>
      if ok then
        some ({ s with
          writes
          owner := .reporting a
          completed := s.completed ++ [batch] }, .writeUpcall)
      else some ({ s with writes, owner := .failed }, .writeError)
    | _, _ => none
  | .run => s.access a k
  | .spurious =>
    match k with
    | .closeExchange call current =>
      if current < call.target then some (s, .closeExchange call s.status) else none
    | .remoteEndpoint => some (s, .idle)
    | _ => none
  | .read outcome =>
    match k, outcome with
    | .readProtocol, .none => some (s, .readNone)
    | .readProtocol, .async | .readDone, .async => some ({ s with reads := s.reads + 1 }, .idle)
    | .readProtocol, .upcall | .readDone, .upcall => some (s, .readUpcall)
    | .readProtocol, .error | .readDone, .error => some (s, .readError)
    | _, _ => none

end SessionState

/-- A session and its activations. -/
abbrev Session (T β : Type*) := Config T (SessionState T β) (Place β)

namespace Session

/-- A session that its creator has given a handler, and an acceptor its socket. -/
def initial (T β : Type*) (accepted : Bool) : Session T β := ⟨{ accepted }, fun _ => .idle⟩

def IsInitial {T β : Type*} (c : Session T β) : Prop := ∃ accepted, c = initial T β accepted

end Session

/-- All interleavings of the activations `T` of a session that writes buffers `β`. -/
def sessionSystem (T β : Type*) [DecidableEq T] :
    TransitionSystem (Session T β) (T × SessionEvent β) :=
  interleave Session.IsInitial SessionState.act

end Minapp
