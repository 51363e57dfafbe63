import Mathlib.Data.Nat.Notation

/-! The handlers that a session calls: the default one, the wrapper of a handler of the
application, which lets no exception through, and the `connect_handler` of `service::connect`.
Code of the application is run inside such calls, may throw, and may set the handler of the
session or make further calls of handlers. -/

namespace Minapp

inductive RuntimeErrc where
  | unknownConnectException
  | unknownReadException
  | unknownWriteException
  | unknownExceptException
  | unknownErrorException
  | unknownCloseException
  deriving DecidableEq, Repr

/-- The value of the enumerator. -/
def RuntimeErrc.value : RuntimeErrc → ℕ
  | .unknownConnectException => 0
  | .unknownReadException => 1
  | .unknownWriteException => 2
  | .unknownExceptException => 3
  | .unknownErrorException => 4
  | .unknownCloseException => 5

/-- `runtime_category::message`. -/
def runtimeMessage : ℕ → String
  | 0 => "Unexpected exception from connect handler"
  | 1 => "Unexpected exception from read handler"
  | 2 => "Unexpected exception from write handler"
  | 3 => "Unexpected exception from except handler"
  | 4 => "Unexpected exception from error handler"
  | 5 => "Unexpected exception from close handler"
  | _ => "runtime error"

/-- `boost::system::error_code`: no error, one of `runtime_category`, or any other that is a
failure. -/
inductive ErrorCode (A : Type*) where
  | success
  | runtime (value : RuntimeErrc)
  | other (ec : A)
  deriving DecidableEq, Repr

/-- Its conversion to `bool`. -/
def ErrorCode.failed {A : Type*} : ErrorCode A → Bool
  | .success => false
  | .runtime value => value.value != 0
  | .other _ => true

/-- A function of a handler with its arguments other than the session. Endpoints, buffers,
exceptions and the codes of other categories are only handed on. -/
inductive HandlerCall (A : Type*) where
  | connect (ep : A)
  | read (buf : A)
  | write (list : A)
  | except (e : A)
  | error (ec : ErrorCode A)
  | close
  deriving DecidableEq, Repr

/-- What is thrown: a `std::exception` or anything else. -/
inductive Thrown (A : Type*) where
  | exception (e : A)
  | unknown
  deriving DecidableEq, Repr

/-- A `handler` that is a `noexcept_handler`. -/
inductive NoexceptHandler (H : Type*) where
  | dummy
  | connectHandler
  /-- `noexcept_handler_wrapper` of a handler of the application, or a `noexcept_handler_impl` of
  its own. -/
  | wrapper (h : H)
  deriving DecidableEq, Repr

inductive HandlerPtr (H : Type*) where
  | null
  | plain (h : H)
  | noexcept (obj : NoexceptHandler H)
  deriving DecidableEq, Repr

/-- `noexcept_handler::wrap`. -/
def NoexceptHandler.wrap {H : Type*} : HandlerPtr H → NoexceptHandler H
  | .null => .dummy
  | .plain h => .wrapper h
  | .noexcept obj => obj

/-- What is called when a function throws: the `catch` clauses of `noexcept_handler_impl`. -/
def HandlerCall.report {A : Type*} : HandlerCall A → Thrown A → HandlerCall A
  | .except _, _ => .error (.runtime .unknownExceptException)
  | .error _, _ => .error (.runtime .unknownErrorException)
  | .connect _, .exception e | .read _, .exception e | .write _, .exception e
  | .close, .exception e => .except e
  | .connect _, .unknown => .error (.runtime .unknownConnectException)
  | .read _, .unknown => .error (.runtime .unknownReadException)
  | .write _, .unknown => .error (.runtime .unknownWriteException)
  | .close, .unknown => .error (.runtime .unknownCloseException)

/-- The calls that `connect_handler` overrides, with what it hands to its function. -/
def HandlerCall.outcome {A : Type*} : HandlerCall A → Option (ErrorCode A)
  | .connect _ => some .success
  | .error ec => some ec
  | _ => none

inductive HandlerEvent (H F A : Type*) where
  /-- A function of a handler of the application is called. -/
  | call (h : H) (c : HandlerCall A)
  /-- The function of `connect_handler` is called. -/
  | connector (f : F) (ec : ErrorCode A)
  /-- Something is thrown and caught. -/
  | threw (obj : NoexceptHandler H) (c : HandlerCall A) (x : Thrown A)
  /-- The last `catch (...)`: `\todo log something`. -/
  | dropped (obj : NoexceptHandler H) (x : Thrown A)
  deriving DecidableEq, Repr

/-- The handler of the session and of its service, and the function that `connect_handler` has
until it is moved from. -/
structure HandlerState (H F A : Type*) where
  handler : NoexceptHandler H
  serviceHandler : NoexceptHandler H
  conn : Option F
  trace : List (HandlerEvent H F A) := []

/-- What is executed: a function of a handler, a `_impl` function, or code of the application. -/
inductive HandlerCode (H A : Type*) where
  | noexcept (obj : NoexceptHandler H) (c : HandlerCall A)
  | impl (obj : NoexceptHandler H) (c : HandlerCall A)
  | application

namespace HandlerState

variable {H F A : Type*} (s : HandlerState H F A)

def record (e : HandlerEvent H F A) : HandlerState H F A := { s with trace := s.trace ++ [e] }

/-- `session::handler(other)`, which returns the old one. -/
def setHandler (other : HandlerPtr H) : HandlerState H F A :=
  { s with handler := .wrap other }

/-- `session::use_service_handler()`. -/
def useServiceHandler : HandlerState H F A := { s with handler := s.serviceHandler }

/-- `session->handler({}); if (connector conn = std::move(this->conn)) conn(session, ec);`

This assumes that the move leaves the `std::function` empty. C++ leaves it valid but unspecified;
libstdc++ empties it. -/
def takeConnector (f : F) (ec : ErrorCode A) : HandlerState H F A :=
  { s.setHandler .null with conn := none }.record (.connector f ec)

/-- The session that `service::connect` makes for a function. -/
def connecting (f : F) (serviceHandler : NoexceptHandler H) : HandlerState H F A :=
  ⟨.connectHandler, serviceHandler, some f, []⟩

end HandlerState

/-- The executions that come to an end, with what they throw. -/
inductive Executes {H F A : Type*} : HandlerCode H A → HandlerState H F A → HandlerState H F A →
    Option (Thrown A) → Prop
  -- the application may do any of this in any order, and then return or throw
  | ends {s r} : Executes .application s s r
  | setHandler {s s' r} (other : HandlerPtr H) :
      Executes .application (s.setHandler other) s' r → Executes .application s s' r
  | useServiceHandler {s s' r} :
      Executes .application s.useServiceHandler s' r → Executes .application s s' r
  | calls {s t s' r obj c} : Executes (.noexcept obj c) s t none → Executes .application t s' r →
      Executes .application s s' r
  -- `noexcept_handler`
  | dummy {s c} : Executes (.noexcept .dummy c) s s none
  -- `noexcept_handler_impl`
  | returns {s s' obj c} : Executes (.impl obj c) s s' none → Executes (.noexcept obj c) s s' none
  | throws {s t s' r obj c x} : (∀ ec, c ≠ .error ec) → Executes (.impl obj c) s t (some x) →
      Executes (.noexcept obj (c.report x)) (t.record (.threw obj c x)) s' r →
      Executes (.noexcept obj c) s s' r
  | errorThrows {s t s' obj ec x} : Executes (.impl obj (.error ec)) s t (some x) →
      Executes (.impl obj (HandlerCall.report (.error ec) x))
        (t.record (.threw obj (.error ec) x)) s' none →
      Executes (.noexcept obj (.error ec)) s s' none
  | errorThrowsTwice {s t s' obj ec x y} : Executes (.impl obj (.error ec)) s t (some x) →
      Executes (.impl obj (HandlerCall.report (.error ec) x))
        (t.record (.threw obj (.error ec) x)) s' (some y) →
      Executes (.noexcept obj (.error ec)) s (s'.record (.dropped obj y)) none
  -- `noexcept_handler_wrapper`
  | wrapped {s s' r h c} : Executes .application (s.record (.call h c)) s' r →
      Executes (.impl (.wrapper h) c) s s' r
  -- `connect_handler`
  | connector {s s' r c ec f} : HandlerCall.outcome c = some ec → s.conn = some f →
      Executes .application (s.takeConnector f ec) s' r →
      Executes (.impl .connectHandler c) s s' r
  | noConnector {s s' r c ec} : HandlerCall.outcome c = some ec → s.conn = none →
      Executes (.noexcept (s.setHandler .null).handler c) (s.setHandler .null) s' r →
      Executes (.impl .connectHandler c) s s' r
  | ignored {s c} : HandlerCall.outcome c = none → Executes (.impl .connectHandler c) s s none

end Minapp
