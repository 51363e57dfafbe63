import Mathlib.Data.Nat.Notation
import Mathlib.Logic.Relation

/-! Labelled transition systems: reachable states, runs, the invariant rule, and
the subsystem whose steps all meet a condition. -/

/-- A transition system over states `σ` whose steps carry labels `ε`. -/
structure TransitionSystem (σ ε : Type*) where
  Init : σ → Prop
  Step : σ → ε → σ → Prop

namespace TransitionSystem

variable {σ ε : Type*}

/-- A run from one state to another, with the labels of its steps in order. -/
inductive Run (T : TransitionSystem σ ε) (s : σ) : List ε → σ → Prop where
  | nil : Run T s [] s
  | snoc {es t e u} : Run T s es t → T.Step t e u → Run T s (es ++ [e]) u

/-- A state some run leads to from an initial state. -/
def Reachable (T : TransitionSystem σ ε) (s : σ) : Prop :=
  ∃ s₀ es, T.Init s₀ ∧ T.Run s₀ es s

variable {T : TransitionSystem σ ε}

theorem Reachable.init {s : σ} (h : T.Init s) : T.Reachable s := ⟨s, [], h, .nil⟩

theorem Reachable.step {s t : σ} {e : ε} (h : T.Reachable s) (hs : T.Step s e t) :
    T.Reachable t := by
  obtain ⟨s₀, es, h₀, hr⟩ := h
  exact ⟨s₀, es ++ [e], h₀, hr.snoc hs⟩

theorem Run.cons {s t u : σ} {e : ε} {es : List ε} (hs : T.Step s e t) (hr : T.Run t es u) :
    T.Run s (e :: es) u := by
  induction hr with
  | nil => exact .snoc .nil hs
  | snoc _ ht ih => exact .snoc ih ht

theorem Run.trans {s t u : σ} {es es' : List ε} (hr : T.Run s es t) (hr' : T.Run t es' u) :
    T.Run s (es ++ es') u := by
  induction hr' with
  | nil =>
      rw [List.append_nil]
      exact hr
  | snoc _ hu ih =>
      rw [← List.append_assoc]
      exact ih.snoc hu

/-- A run of a system is one of any system that has its steps. -/
theorem Run.mono {U : TransitionSystem σ ε} {s t : σ} {es : List ε} (hr : T.Run s es t)
    (hstep : ∀ s e t, T.Step s e t → U.Step s e t) : U.Run s es t := by
  induction hr with
  | nil => exact .nil
  | snoc _ ht ih => exact ih.snoc (hstep _ _ _ ht)

/-- A relation between the labels so far and the state, kept by every step, holds
at the end of every run. -/
theorem Run.rec_invariant {I : List ε → σ → Prop} {s t : σ} {es : List ε} (hr : T.Run s es t)
    (h₀ : I [] s) (hstep : ∀ es t e u, I es t → T.Step t e u → I (es ++ [e]) u) : I es t := by
  induction hr with
  | nil => exact h₀
  | snoc _ ht ih => exact hstep _ _ _ _ ih ht

/-- The invariant rule: what holds initially and is kept by every step holds in every
reachable state. -/
theorem Reachable.invariant {I : σ → Prop} {s : σ} (h : T.Reachable s)
    (h₀ : ∀ s, T.Init s → I s) (hstep : ∀ s e t, I s → T.Step s e t → I t) : I s := by
  obtain ⟨s₀, es, hi, hr⟩ := h
  exact hr.rec_invariant (I := fun _ => I) (h₀ s₀ hi) fun _ _ _ _ => hstep _ _ _

/-- An invariant whose steps may use that they start in a reachable state. -/
theorem Reachable.invariant_of_reachable {I : σ → Prop} {s : σ} (h : T.Reachable s)
    (h₀ : ∀ s, T.Init s → I s)
    (hstep : ∀ s e t, T.Reachable s → I s → T.Step s e t → I t) : I s := by
  have hboth : T.Reachable s ∧ I s := by
    refine h.invariant (I := fun s => T.Reachable s ∧ I s) (fun s hs => ⟨.init hs, h₀ s hs⟩) ?_
    rintro s e t ⟨hs, hi⟩ ht
    exact ⟨hs.step ht, hstep s e t hs hi ht⟩
  exact hboth.2

/-- The runs of `T` whose steps all meet `C`, a condition on the state before the
step and on its label. -/
def restrict (T : TransitionSystem σ ε) (C : σ → ε → Prop) : TransitionSystem σ ε where
  Init := T.Init
  Step s e t := C s e ∧ T.Step s e t

theorem Reachable.of_restrict {C : σ → ε → Prop} {s : σ} (h : (T.restrict C).Reachable s) :
    T.Reachable s :=
  h.invariant (fun _ hi => .init hi) fun _ _ _ hs ht => hs.step ht.2

theorem Reachable.restrict_true {s : σ} (h : T.Reachable s) :
    (T.restrict fun _ _ => True).Reachable s :=
  h.invariant (fun _ hi => .init hi) fun _ _ _ hs ht => hs.step ⟨trivial, ht⟩

theorem Run.of_restrict {C : σ → ε → Prop} {s t : σ} {es : List ε}
    (h : (T.restrict C).Run s es t) : T.Run s es t :=
  h.mono fun _ _ _ ht => ht.2

/-- A functional simulation: the steps that `g` gives a label are steps of the other system,
and those it gives none change nothing there. -/
theorem Run.simulates {τ δ : Type*} {U : TransitionSystem τ δ} {s t : σ} {es : List ε} (f : σ → τ)
    (g : ε → Option δ)
    (hstep : ∀ s e t, T.Step s e t → (∀ d, g e = some d → U.Step (f s) d (f t)) ∧
      (g e = none → f t = f s))
    (hr : T.Run s es t) : U.Run (f s) (es.filterMap g) (f t) := by
  induction hr with
  | nil => exact .nil
  | @snoc es t e u _ ht ih =>
      rw [List.filterMap_append]
      cases hg : g e with
      | none =>
          rw [(hstep t e u ht).2 hg]
          simpa [hg] using ih
      | some d =>
          have hd := (hstep t e u ht).1 d hg
          simpa [hg] using ih.snoc hd

section Rank

variable {I : σ → Prop} {rank : σ → ℕ}
  (hstep : ∀ s e t, I s → T.Step s e t → I t ∧ rank t < rank s)

include hstep

/-- A rank that every step lowers bounds the length of the runs. -/
theorem Run.length_add_rank_le {s t : σ} {es : List ε} (hr : T.Run s es t) (hs : I s) :
    es.length + rank t ≤ rank s := by
  have hboth : I t ∧ es.length + rank t ≤ rank s := by
    apply hr.rec_invariant (I := fun es t => I t ∧ es.length + rank t ≤ rank s)
    · exact ⟨hs, by simp⟩
    · intro es t e u ht hu
      obtain ⟨hi, hlt⟩ := hstep t e u ht.1 hu
      have hle := ht.2
      refine ⟨hi, ?_⟩
      rw [List.length_append, List.length_singleton]
      omega
  exact hboth.2

/-- The termination rule: if a state that is not one to stop in has a step, some run comes to
a stop. -/
theorem exists_run_of_rank {Stop : σ → Prop}
    (hprogress : ∀ s, I s → ¬ Stop s → ∃ e t, T.Step s e t) {s : σ} (hs : I s) :
    ∃ es t, T.Run s es t ∧ Stop t := by
  induction hn : rank s using Nat.strongRecOn generalizing s with
  | ind n ih =>
      by_cases hstop : Stop s
      · exact ⟨[], s, .nil, hstop⟩
      · obtain ⟨e, t, ht⟩ := hprogress s hs hstop
        obtain ⟨hi, hlt⟩ := hstep s e t hs ht
        obtain ⟨es, u, hr, hu⟩ := ih (rank t) (hn ▸ hlt) hi rfl
        exact ⟨e :: es, u, .cons ht hr, hu⟩

end Rank

/-! ## What every execution comes to -/

/-- However it goes on, an execution from the state comes to a state in which `P` holds. -/
inductive Inevitable (T : TransitionSystem σ ε) (P : σ → Prop) : σ → Prop where
  | here {s} : P s → Inevitable T P s
  | later {s} : (∃ e t, T.Step s e t) → (∀ e t, T.Step s e t → Inevitable T P t) →
      Inevitable T P s

/-- The rule of total correctness: while `P` does not hold there is a step, and every step keeps
the invariant and lowers the rank, or leads to `P`. -/
theorem Inevitable.of_rank {P I : σ → Prop} (rank : σ → ℕ)
    (hprogress : ∀ s, I s → ¬ P s → ∃ e t, T.Step s e t)
    (hstep : ∀ s e t, I s → ¬ P s → T.Step s e t → P t ∨ I t ∧ rank t < rank s)
    {s : σ} (hs : I s) : T.Inevitable P s := by
  induction hn : rank s using Nat.strongRecOn generalizing s with
  | ind n ih =>
      by_cases hp : P s
      · exact .here hp
      · refine .later (hprogress s hs hp) fun e t ht => ?_
        rcases hstep s e t hs hp ht with hp' | ⟨hi, hlt⟩
        · exact .here hp'
        · exact ih (rank t) (hn ▸ hlt) hi rfl

/-- The rule of divergence: a step can always be found that stays where `P` does not hold. -/
theorem not_inevitable {P I : σ → Prop} (hno : ∀ s, I s → ¬ P s)
    (hstep : ∀ s, I s → ∃ e t, T.Step s e t ∧ I t) {s : σ} (hs : I s) : ¬ T.Inevitable P s := by
  intro h
  induction h with
  | here hp => exact hno _ hs hp
  | later _ _ ih =>
      obtain ⟨e, t, ht, hi⟩ := hstep _ hs
      exact ih e t ht hi

/-! ## Systems given by an executable step -/

/-- The system of a partial step function. -/
def ofStep (Init : σ → Prop) (step : σ → ε → Option σ) : TransitionSystem σ ε where
  Init := Init
  Step s e t := step s e = some t

/-- Executes the steps labelled `es` in order, as long as they are possible. -/
def exec (step : σ → ε → Option σ) : σ → List ε → Option σ
  | s, [] => some s
  | s, e :: es => (step s e).bind fun t => exec step t es

theorem run_of_exec {Init : σ → Prop} {step : σ → ε → Option σ} {s t : σ} {es : List ε}
    (h : exec step s es = some t) : (ofStep Init step).Run s es t := by
  induction es generalizing s with
  | nil =>
      obtain rfl := Option.some.inj h
      exact .nil
  | cons e es ih =>
      obtain ⟨u, hu, ht⟩ := Option.bind_eq_some_iff.mp h
      exact .cons hu (ih ht)

theorem reachable_of_exec {Init : σ → Prop} {step : σ → ε → Option σ} {s t : σ} {es : List ε}
    (hs : Init s) (h : exec step s es = some t) : (ofStep Init step).Reachable t :=
  ⟨s, es, hs, run_of_exec h⟩

/-- A property of the state an execution ends in is that of a reachable state. -/
theorem exists_reachable_of_exec (Init : σ → Prop) (step : σ → ε → Option σ) {s : σ}
    (es : List ε) (p : σ → Bool) (hs : Init s) (h : (exec step s es).map p = some true) :
    ∃ t, (ofStep Init step).Reachable t ∧ p t = true := by
  obtain ⟨t, ht, hp⟩ := Option.map_eq_some_iff.mp h
  exact ⟨t, reachable_of_exec hs ht, hp⟩

section Restrict

variable (C : σ → ε → Prop) [∀ s e, Decidable (C s e)]

/-- The step, where the condition holds. -/
def guardedStep (step : σ → ε → Option σ) (s : σ) (e : ε) : Option σ :=
  if C s e then step s e else none

/-- An execution that checks a condition at every step is a run of the subsystem. -/
theorem run_restrict_of_exec {Init : σ → Prop} {step : σ → ε → Option σ} {s t : σ} {es : List ε}
    (h : exec (guardedStep C step) s es = some t) : ((ofStep Init step).restrict C).Run s es t := by
  induction es generalizing s with
  | nil =>
      obtain rfl := Option.some.inj h
      exact .nil
  | cons e es ih =>
      obtain ⟨u, hu, ht⟩ := Option.bind_eq_some_iff.mp h
      unfold guardedStep at hu
      split at hu
      · exact .cons ⟨‹_›, hu⟩ (ih ht)
      · exact absurd hu (by simp)

theorem exists_run_restrict_of_exec (Init : σ → Prop) (step : σ → ε → Option σ) (s : σ)
    (es : List ε) (p : σ → Bool) (h : (exec (guardedStep C step) s es).map p = some true) :
    ∃ t, ((ofStep Init step).restrict C).Run s es t ∧ p t = true := by
  obtain ⟨t, ht, hp⟩ := Option.map_eq_some_iff.mp h
  exact ⟨t, run_restrict_of_exec C ht, hp⟩

end Restrict

end TransitionSystem
