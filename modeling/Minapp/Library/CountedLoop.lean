import Mathlib.Data.Nat.Notation

/-! `for (unsigned i = 0; i < bound; ++i)`, whose counter wraps at a modulus, and whose body can
fail. -/

namespace CountedLoop

variable {σ : Type*} (modulus bound : ℕ) (body : ℕ → σ → Option σ)

/-- The loop from a value of the counter on; without fuel it has not come to an end. -/
def loop : ℕ → ℕ → σ → Option σ
  | 0, _, _ => none
  | fuel + 1, i, s =>
    if i < bound then (body i s).bind fun t => loop fuel ((i + 1) % modulus) t else some s

/-- `i` begins at zero. -/
def forLoop (fuel : ℕ) (s : σ) : Option σ := loop modulus bound body fuel 0 s

variable {modulus bound : ℕ} {body : ℕ → σ → Option σ}

theorem loop_of_invariant {I : ℕ → σ → Prop} (hbound : bound < modulus)
    (hbody : ∀ i s, i < bound → I i s → ∃ t, body i s = some t ∧ I (i + 1) t)
    {fuel i : ℕ} {s : σ} (hfuel : bound < fuel + i) (hi : i ≤ bound) (hs : I i s) :
    ∃ t, loop modulus bound body fuel i s = some t ∧ I bound t := by
  induction fuel generalizing i s with
  | zero => omega
  | succ fuel ih =>
      rw [loop]
      by_cases hlt : i < bound
      · obtain ⟨t, ht, hinv⟩ := hbody i s hlt hs
        rw [if_pos hlt, ht, Option.bind_some, Nat.mod_eq_of_lt (by omega)]
        exact ih (by omega) hlt hinv
      · rw [if_neg hlt]
        obtain rfl : i = bound := by omega
        exact ⟨s, rfl, hs⟩

/-- The invariant rule: below the modulus the loop ends, with what its passes keep. -/
theorem forLoop_of_invariant (I : ℕ → σ → Prop) (hbound : bound < modulus)
    (hbody : ∀ i s, i < bound → I i s → ∃ t, body i s = some t ∧ I (i + 1) t)
    {fuel : ℕ} {s : σ} (hfuel : bound < fuel) (hs : I 0 s) :
    ∃ t, forLoop modulus bound body fuel s = some t ∧ I bound t :=
  loop_of_invariant hbound hbody hfuel (Nat.zero_le _) hs

/-- The rule for passes that are all known. -/
theorem forLoop_eq (f : ℕ → σ) (hbound : bound < modulus)
    (hbody : ∀ i < bound, body i (f i) = some (f (i + 1))) {fuel : ℕ} {s : σ}
    (hfuel : bound < fuel) (hs : s = f 0) :
    forLoop modulus bound body fuel s = some (f bound) := by
  have hpass : ∀ i t, i < bound → t = f i → ∃ u, body i t = some u ∧ u = f (i + 1) := by
    intro i t hi ht
    subst ht
    exact ⟨_, hbody i hi, rfl⟩
  obtain ⟨t, ht, rfl⟩ := forLoop_of_invariant (fun i t => t = f i) hbound hpass hfuel hs
  exact ht

/-- A bound that the counter does not reach: the loop does not end. -/
theorem forLoop_of_wrap (hmodulus : 0 < modulus) (hbound : modulus ≤ bound) (fuel : ℕ) (s : σ) :
    forLoop modulus bound body fuel s = none := by
  have hloop : ∀ fuel i s, i < modulus → loop modulus bound body fuel i s = none := by
    intro fuel
    induction fuel with
    | zero => exact fun _ _ _ => rfl
    | succ fuel ih =>
        intro i s hi
        rw [loop, if_pos (Nat.lt_of_lt_of_le hi hbound)]
        cases body i s with
        | none => rfl
        | some t => exact ih _ t (Nat.mod_lt _ hmodulus)
  exact hloop fuel 0 s hmodulus

end CountedLoop
