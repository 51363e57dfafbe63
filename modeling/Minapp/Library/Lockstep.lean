import Minapp.Library.TransitionSystem

/-! Two machines in lockstep: partial step functions over related states, which are possible
for the same labels and lead to related states again. -/

namespace TransitionSystem

variable {σ τ ε : Type*} {step : σ → ε → Option σ} {step' : τ → ε → Option τ}

/-- A step of one is answered by a step of the other. -/
theorem exists_of_rel {R : σ → τ → Prop} {a : Option σ} {b : Option τ}
    (h : Option.Rel R a b) {s : σ}
    (ha : a = some s) : ∃ t, b = some t ∧ R s t := by
  cases h with
  | some hst =>
      obtain rfl := Option.some.inj ha
      exact ⟨_, rfl, hst⟩
  | none => cases ha

theorem rel_flip {R : σ → τ → Prop} {a : Option σ} {b : Option τ} (h : Option.Rel R a b) :
    Option.Rel (fun t s => R s t) b a := by
  cases h with
  | some hst => exact .some hst
  | none => exact .none

/-- The lockstep rule: a run whose steps meet `C` is answered by one with the same labels. -/
theorem Run.lockstep {R : σ → τ → Prop} {C : σ → ε → Prop} {Init : σ → Prop} {Init' : τ → Prop}
    (hstep : ∀ s t e, R s t → C s e → Option.Rel R (step s e) (step' t e)) {s s' : σ} {t : τ}
    {es : List ε} (h : R s t) (hr : ((ofStep Init step).restrict C).Run s es s') :
    ∃ t', (ofStep Init' step').Run t es t' ∧ R s' t' := by
  induction hr with
  | nil => exact ⟨t, .nil, h⟩
  | @snoc es u e v _ hu ih =>
      obtain ⟨w, hw, hrel⟩ := ih
      obtain ⟨x, hx, hvx⟩ := exists_of_rel (hstep u w e hrel hu.1) hu.2
      exact ⟨x, hw.snoc hx, hvx⟩

end TransitionSystem
