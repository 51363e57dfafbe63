import Mathlib.Data.List.Basic
import Mathlib.Logic.Function.Basic

/-! Histories of operations on a shared object, in which every operation takes effect at
one event between its call and its return: how far each thread is, and the sequential
history that the effects make up. -/

namespace Linearization

/-- A call of an operation `ω`, the point at which it takes effect with its result `ρ`, and
its return. -/
inductive Event (T ω ρ : Type*) where
  | call (a : T) (op : ω)
  | effect (a : T) (op : ω) (result : ρ)
  | ret (a : T) (op : ω) (result : ρ)

/-- How far a thread is with an operation. -/
inductive Phase (ω ρ : Type*) where
  | idle
  | called (op : ω)
  | effected (op : ω) (result : ρ)

variable {T ω ρ σ : Type*}

def Event.thread : Event T ω ρ → T
  | .call a _ | .effect a _ _ | .ret a _ _ => a

/-- The thread `a` calls one operation after the other, each of which takes effect once and
returns what it then gives. -/
inductive Progress (a : T) : List (Event T ω ρ) → Phase ω ρ → Prop where
  | nil : Progress a [] .idle
  | call {es op} : Progress a es .idle → Progress a (es ++ [.call a op]) (.called op)
  | effect {es op r} :
      Progress a es (.called op) → Progress a (es ++ [.effect a op r]) (.effected op r)
  | ret {es op r} : Progress a es (.effected op r) → Progress a (es ++ [.ret a op r]) .idle
  | other {es e k} : e.thread ≠ a → Progress a es k → Progress a (es ++ [e]) k

/-- The effects, in their order, are steps of a sequential object that take it from `s` to
the state given. -/
inductive Sequential (step : σ → T → ω → ρ → σ → Prop) (s : σ) :
    List (Event T ω ρ) → σ → Prop where
  | nil : Sequential step s [] s
  | call {es a op t} : Sequential step s es t → Sequential step s (es ++ [.call a op]) t
  | effect {es a op r t u} : Sequential step s es t → step t a op r u →
      Sequential step s (es ++ [.effect a op r]) u
  | ret {es a op r t} : Sequential step s es t → Sequential step s (es ++ [.ret a op r]) t

/-- A map that takes the steps of an object to steps of another one takes its histories to
histories of that one. -/
theorem Sequential.map {τ : Type*} {step : σ → T → ω → ρ → σ → Prop}
    {step' : τ → T → ω → ρ → τ → Prop} {s t : σ} {es : List (Event T ω ρ)} (f : σ → τ)
    (hstep : ∀ s a op r t, step s a op r t → step' (f s) a op r (f t))
    (h : Sequential step s es t) : Sequential step' (f s) es (f t) := by
  induction h with
  | nil => exact .nil
  | call _ ih => exact .call ih
  | effect _ ht ih => exact .effect ih (hstep _ _ _ _ _ ht)
  | ret _ ih => exact .ret ih

/-- An operation on one of many objects, as a step of them all. -/
def stepAt {ι : Type*} [DecidableEq ι] (step : σ → T → ω → ρ → σ → Prop) (s : ι → σ) (a : T)
    (op : ι × ω) (r : ρ) (t : ι → σ) : Prop :=
  ∃ x, step (s op.1) a op.2 r x ∧ t = Function.update s op.1 x

section Threads

variable [DecidableEq T] {a : T} {es : List (Event T ω ρ)} {k : Phase ω ρ}

/-- The operations of thread `a` that have taken effect, with their results. -/
def effects (a : T) (es : List (Event T ω ρ)) : List (ω × ρ) :=
  es.filterMap fun
    | .effect b op r => if b = a then some (op, r) else none
    | _ => none

/-- The operations of thread `a` that have returned, with what they have returned. -/
def returns (a : T) (es : List (Event T ω ρ)) : List (ω × ρ) :=
  es.filterMap fun
    | .ret b op r => if b = a then some (op, r) else none
    | _ => none

/-- An operation that has taken effect and not returned. -/
def Phase.pending : Phase ω ρ → List (ω × ρ)
  | .effected op r => [(op, r)]
  | _ => []

/-- To the thread the sequential history is its own: what has taken effect is what it has
been returned, but for the operation it is in. -/
theorem Progress.effects_eq (h : Progress a es k) : effects a es = returns a es ++ k.pending := by
  induction h with
  | nil => rfl
  | call _ ih | effect _ ih =>
      simp only [effects, returns, Phase.pending, List.filterMap_append] at ih ⊢
      simp [ih]
  | ret _ ih =>
      simp only [effects, returns, Phase.pending, List.filterMap_append] at ih ⊢
      simp [ih]
  | @other es e k hne _ ih =>
      simp only [effects, returns, List.filterMap_append] at ih ⊢
      cases e <;> simp_all [Event.thread]

end Threads

end Linearization
