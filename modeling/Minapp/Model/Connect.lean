import Minapp.Model.Receive
import Minapp.Model.Session

/-! `session::connect(ec, promise)`, the callback of an asynchronous connect and what an
acceptor calls for the socket it has accepted: the accesses of a session activation, with
the promise to fulfil, the exceptions that may leave the callback, and the receive path in the
`read()` that it calls. -/

namespace Minapp

/-- The promise of `connect(ep)`. -/
inductive PromiseState where
  | unset
  /-- `set_value(shared_from_this())`. -/
  | value
  /-- `set_exception(system_error(ec))`. -/
  | exception
  deriving DecidableEq, Repr

/-- How a call of `session::connect(ec, promise)` ends. -/
inductive CallEnd where
  | returned (result : Bool)
  /-- An exception leaves it, into the function that runs the io_context. -/
  | threw
  deriving DecidableEq, Repr

/-- `read()`, up to its end or to the upcall that it makes before it calls itself. -/
def ReadState.call (s : ReadState) : ReadState :=
  match s.read.control with
  | .readPrefix len => s.read.readPrefix len
  | _ => s.read

/-- What the functions that read have ended in, if they have not thrown. -/
def Control.outcome : Control → Option ReadOutcome
  | .idle => some .none
  | .readSome _ | .readFixed _ _ | .prefixBytes _ _ _ | .readDelim _ _ _ | .overrun => some .async
  | .upcall _ => some .upcall
  | .failed _ => some .error
  | .read | .readPrefix _ | .threw => none

/-- They have called `storage.resize`, which may throw. -/
def Control.resizes (c : Control) : Prop := c = .threw ∨ c.outcome = some .async

instance : DecidablePred Control.resizes := fun _ => inferInstanceAs (Decidable (_ ∨ _))

/-- A session with the promise, which an acceptor does not give. `input` is the receive path,
which nobody uses before the callback; what becomes of it after the callback is left out. From
`caller` on it is history: the activation inside the callback, the upcalls with which the
callback reports the outcome, and how it has ended. -/
structure ConnectState (T β : Type*) where
  session : SessionState T β
  promise : Option PromiseState
  input : ReadState
  caller : Option T := none
  reported : List (Upcall β) := []
  ended : Option CallEnd := none

inductive ConnectPlace (β : Type*) where
  /-- Not in the callback. -/
  | outside (k : Place β)
  /-- `handler()->error(this, ec); close(true);` -/
  | failing (k : Place β)
  | setException
  /-- `status_ = connected; handler()->connect(this, socket_.remote_endpoint()); read();` -/
  | connecting (k : Place β)
  | setValue
  deriving DecidableEq, Repr

inductive ConnectEvent (β : Type*) where
  | session (e : SessionEvent β)
  /-- `storage.resize` throws out of the read function that prepares the output buffer. -/
  | readThrows

/-- The upcall with which the callback reports the outcome. -/
def Place.reports {β : Type*} : Place β → List (Upcall β)
  | .connectError => [.error]
  | .connectUpcall => [.connect]
  | _ => []

namespace ConnectState

variable {T β : Type*}

/-- The callback ends. -/
def finish (s : ConnectState T β) (promise : Option PromiseState) (ended : CallEnd) :
    ConnectState T β × ConnectPlace β :=
  ({ s with promise, caller := none, ended := some ended }, .outside .idle)

/-- Where an access outside the callback leads: the call of the callback is one of them. -/
def enter (a : T) (s : ConnectState T β) (session : SessionState T β) (k : Place β) :
    ConnectState T β × ConnectPlace β :=
  match k with
  | .storeConnected => ({ s with session, caller := some a }, .connecting k)
  | .connectError => ({ s with session, caller := some a }, .failing k)
  | _ => ({ s with session }, .outside k)

/-- Where an access at `k` of the error branch leads. -/
def fail (s : ConnectState T β) (session : SessionState T β) (k k' : Place β) :
    ConnectState T β × ConnectPlace β :=
  let s := { s with session, reported := s.reported ++ k.reports }
  match k' with
  | .idle => (s, .setException)
  | _ => (s, .failing k')

/-- Where an access at `k` of the other branch leads. -/
def proceed (s : ConnectState T β) (session : SessionState T β) (k k' : Place β) :
    ConnectState T β × ConnectPlace β :=
  let s := { s with session, reported := s.reported ++ k.reports }
  match k' with
  | .idle =>
    match k with
    -- the exception of `remote_endpoint` is not caught
    | .remoteEndpoint => s.finish s.promise .threw
    | _ => (s, .setValue)
  | _ => (s, .connecting k')

/-- What an access of the callback does to the receive path. -/
def receive (h : ReadHandler) (s : ConnectState T β) (k : Place β) (e : SessionEvent β) :
    Option ReadState :=
  match k, e with
  | .readProtocol, .read outcome =>
    if s.input.call.control.outcome = some outcome then some s.input.call else none
  | .readUpcall, .run =>
    match s.input.control with
    | .upcall tail => some (s.input.handlerRead h tail)
    | _ => none
  | _, _ => some s.input

/-- One step of activation `a`. -/
def act (h : ReadHandler) (a : T) (s : ConnectState T β) (k : ConnectPlace β)
    (e : ConnectEvent β) : Option (ConnectState T β × ConnectPlace β) :=
  match k, e with
  | .outside k, .session e => (s.session.act a k e).map fun r => s.enter a r.1 r.2
  | .failing k, .session e => (s.session.act a k e).map fun r => s.fail r.1 k r.2
  | .connecting k, .session e =>
    (s.receive h k e).bind fun input =>
      (s.session.act a k e).map fun r => { s with input }.proceed r.1 k r.2
  | .setException, .session .run =>
    some (s.finish (s.promise.map fun _ => .exception) (.returned false))
  | .setValue, .session .run => some (s.finish (s.promise.map fun _ => .value) (.returned true))
  | .connecting .readProtocol, .readThrows =>
    if s.input.call.control.resizes then some (s.finish s.promise .threw) else none
  | .outside .readProtocol, .readThrows => some (s, .outside .idle)
  | _, _ => none

end ConnectState

/-- A session with the promise, and the activations. -/
abbrev ConnectConfig (T β : Type*) := Config T (ConnectState T β) (ConnectPlace β)

namespace ConnectConfig

/-- Only `connect(ep)` makes a promise. -/
def initial (T β : Type*) (h : ReadHandler) (accepted : Bool) : ConnectConfig T β :=
  ⟨{ session := { accepted }
     promise := if accepted then none else some .unset
     input := .initial h }, fun _ => .outside .idle⟩

def IsInitial {T β : Type*} (h : ReadHandler) (c : ConnectConfig T β) : Prop :=
  ∃ accepted, c = initial T β h accepted

end ConnectConfig

/-- All interleavings of the activations of a session and the callback of its connect, under the
handler of the session. -/
def connectSystem (T β : Type*) [DecidableEq T] (h : ReadHandler) :
    TransitionSystem (ConnectConfig T β) (T × ConnectEvent β) :=
  interleave (ConnectConfig.IsInitial h) (ConnectState.act h)

end Minapp
