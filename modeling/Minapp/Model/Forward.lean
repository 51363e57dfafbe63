import Minapp.Model.Receive
import Minapp.Model.Session

/-! The forwarding handler: a session writes all it receives to the session that is its
`PEER`, which connects to the other end meanwhile. One direction of it, with the receive path
of the one session and all activations of the other. -/

namespace Minapp

/-- `read`, which finds `PEER` or not: the protocol it sets. Before its first upcall a session
has the settings that it is constructed with, and they are those of the former. -/
def forwardHandler (peered : Bool) : ReadHandler := fun _ =>
  ⟨[], ⟨.any, if peered then 0 else .doNotConsumeBuffer, 65536, []⟩⟩

structure Relay (T : Type*) where
  /-- The session that is read from. -/
  reader : ReadState
  /-- The session written to. -/
  peer : Session T (List Byte)
  /-- The session that is read from has its `PEER`. -/
  peered : Bool := false
  /-- The activation of the peer that a read upcall is in, while it writes. -/
  writing : Option T := none

inductive RelayEvent (T : Type*) where
  /-- A step of the receive path, or the upcall of a session without `PEER`. -/
  | read (e : ReadEvent)
  /-- The upcall of a session with `PEER` calls `peer->write(buf.whole())`. -/
  | write (a : T)
  /-- The call has returned, and the upcall does. -/
  | written
  /-- The upcall finds that the peer is gone, and closes its session. -/
  | expired
  /-- A step of the peer that is none of the upcall's. -/
  | peer (a : T) (e : SessionEvent (List Byte))

/-- A call of `write`. -/
def SessionEvent.writes {β : Type*} : SessionEvent β → Bool
  | .write _ => true
  | _ => false

namespace Relay

variable {T : Type*} [DecidableEq T]

/-- One step. The connect upcall of the peer gives the session its `PEER`; but for the upcalls of
the session nobody writes to the peer. -/
def step (r : Relay T) : RelayEvent T → Option (Relay T)
  | .read e =>
    if r.peered ∧ e = .upcall then none
    else (r.reader.step (forwardHandler false) e).map fun reader => { r with reader }
  | .write a =>
    if r.peered ∧ r.writing = none ∧ (r.reader.control matches .upcall _) then
      (Config.step SessionState.act r.peer (a, .write [r.reader.buf.whole])).map fun peer =>
        { r with peer, writing := some a }
    else none
  | .written =>
    match r.writing with
    | none => none
    | some a =>
      if r.peer.pc a = .idle then
        (r.reader.step (forwardHandler true) .upcall).map fun reader =>
          { r with reader, writing := none }
      else none
  | .expired =>
    if r.peered ∧ r.writing = none then
      (r.reader.step (forwardHandler true) .upcall).map fun reader =>
        { r with reader := { reader with control := .idle } }
    else none
  | .peer a e =>
    if e.writes ∨ r.writing = some a ∧ r.peer.pc a = .idle then none
    else
      (Config.step SessionState.act r.peer (a, e)).map fun peer =>
        { r with peer, peered := r.peered || r.peer.pc a = .connectUpcall }

def IsInitial (r : Relay T) : Prop :=
  ∃ accepted, r = ⟨.initial (forwardHandler true), .initial T (List Byte) accepted, false, none⟩

end Relay

end Minapp
