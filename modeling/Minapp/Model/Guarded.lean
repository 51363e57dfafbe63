import Minapp.Library.Linearization
import Minapp.Model.Spinlock

/-! Objects whose member functions begin with `std::lock_guard<spinlock>`: the threads that
call them, interleaved at every access to the spinlock and to the object. -/

namespace Minapp

/-- The bodies of the member functions, as sequences of accesses. -/
structure GuardedClass (σ ω κ ρ : Type*) where
  /-- The first access of the body of a function. -/
  start : ω → κ
  /-- An access, with the next one, or what the function returns or throws. -/
  step : σ → κ → σ × (κ ⊕ ρ)

inductive GuardedPlace (ω κ ρ : Type*) where
  | idle
  /-- The constructor of the guard. -/
  | locking (op : ω)
  | body (op : ω) (k : κ)
  /-- The destructor of the guard. -/
  | unlocking (op : ω) (result : ρ)

structure GuardedThread (ω κ ρ : Type*) where
  spin : SpinThread := {}
  place : GuardedPlace ω κ ρ := .idle

/-- The spinlock and the object. The trace is history. -/
structure GuardedState (T σ ω ρ : Type*) where
  spin : SpinState T := {}
  object : σ
  trace : List (Linearization.Event T ω ρ) := []

/-- A call of a function of the spinlock, rather than a step of one. -/
def SpinEvent.isCall {T : Type*} : SpinEvent T → Bool
  | .lock | .tryLock | .unlock => true
  | _ => false

inductive GuardedEvent (T ω : Type*) where
  | call (op : ω)
  /-- An access to the spinlock. -/
  | spin (e : SpinEvent T)
  /-- An access to the object. -/
  | body

namespace GuardedState

variable {T σ ω κ ρ : Type*} [DecidableEq T] (C : GuardedClass σ ω κ ρ) (build : SpinBuild)

def record (s : GuardedState T σ ω ρ) (e : Linearization.Event T ω ρ) : GuardedState T σ ω ρ :=
  { s with trace := s.trace ++ [e] }

/-- Where a thread goes on after an access to the spinlock. -/
def afterSpin (a : T) (s : GuardedState T σ ω ρ) (l : GuardedThread ω κ ρ) :
    GuardedState T σ ω ρ × GuardedThread ω κ ρ :=
  match l.place with
  | .locking op =>
    if l.spin.holds then (s, { l with place := .body op (C.start op) }) else (s, l)
  | .unlocking op result =>
    if l.spin.place = .idle then (s.record (.ret a op result), { l with place := .idle })
    else (s, l)
  | _ => (s, l)

/-- One step of thread `a`. -/
def act (a : T) (s : GuardedState T σ ω ρ) (l : GuardedThread ω κ ρ) :
    GuardedEvent T ω → Option (GuardedState T σ ω ρ × GuardedThread ω κ ρ)
  | .call op =>
    match l.place with
    | .idle =>
      (s.spin.act build a l.spin .lock).map fun r =>
        ({ s with spin := r.1 }.record (.call a op), ⟨r.2, .locking op⟩)
    | _ => none
  | .spin e =>
    match l.place with
    | .locking _ | .unlocking _ _ =>
      if e.isCall then none
      else (s.spin.act build a l.spin e).map fun r =>
        afterSpin C a { s with spin := r.1 } { l with spin := r.2 }
    | _ => none
  | .body =>
    match l.place with
    | .body op k =>
      match C.step s.object k with
      | (object, .inl k) => some ({ s with object }, { l with place := .body op k })
      | (object, .inr result) =>
        (s.spin.act build a l.spin .unlock).map fun r =>
          ({ s with spin := r.1, object }.record (.effect a op result), ⟨r.2, .unlocking op result⟩)
    | _ => none

end GuardedState

/-- An object with its spinlock, and the threads `T` that call its functions. -/
abbrev Guarded (T σ ω κ ρ : Type*) := Config T (GuardedState T σ ω ρ) (GuardedThread ω κ ρ)

/-- All interleavings of the threads, from the object `init`. -/
def guardedSystem (T : Type*) {σ ω κ ρ : Type*} [DecidableEq T] (C : GuardedClass σ ω κ ρ)
    (build : SpinBuild) (init : σ) : TransitionSystem (Guarded T σ ω κ ρ) (T × GuardedEvent T ω) :=
  interleave (· = ⟨{ object := init }, fun _ => {}⟩) (GuardedState.act C build)

end Minapp
