import Minapp.Library.Interleaving

/-! A token that the activations of a program pass on through the shared state: it is either
there, counted, or with one activation, and never duplicated. -/

namespace Config

variable {T σ κ : Type*}

/-- There is at most one token: `count` of them in the shared state, and one with every
activation at a place that `holds` it. -/
structure OneToken (count : σ → ℕ) (holds : κ → Bool) (c : Config T σ κ) : Prop where
  count_le : count c.shared ≤ 1
  nobody : 0 < count c.shared → ∀ a, holds (c.pc a) = false
  unique : ∀ a b, holds (c.pc a) = true → holds (c.pc b) = true → a = b

variable {count : σ → ℕ} {holds : κ → Bool} {c : Config T σ κ} {a : T} {s : σ} {k : κ}

theorem OneToken.count_eq_zero (h : c.OneToken count holds) (ha : holds (c.pc a) = true) :
    count c.shared = 0 := by
  by_contra hpos
  rw [h.nobody (Nat.pos_of_ne_zero hpos) a] at ha
  cases ha

/-- Another activation has it. -/
theorem OneToken.not_holds (h : c.OneToken count holds) {b : T} (hne : b ≠ a)
    (ha : holds (c.pc a) = true) : holds (c.pc b) = false := by
  by_contra hb
  exact hne (h.unique b a (Bool.not_eq_false _ ▸ hb) ha)

/-- The rule: a step that makes no token keeps them at most one. -/
theorem OneToken.move [DecidableEq T] (h : c.OneToken count holds)
    (hstep : count s + (holds k).toNat ≤ count c.shared + (holds (c.pc a)).toNat) :
    (c.move a s k).OneToken count holds := by
  have hle : count c.shared + (holds (c.pc a)).toNat ≤ 1 := by
    cases ha : holds (c.pc a) with
    | false => exact h.count_le
    | true =>
        rw [h.count_eq_zero ha]
        decide
  -- where one is in the shared state or with `a` afterwards, it was before
  have hother : 0 < count s ∨ holds k = true → ∀ b, b ≠ a → holds (c.pc b) = false := by
    intro hpos b hne
    have hold : 0 < count c.shared + (holds (c.pc a)).toNat := by
      rcases hpos with hpos | hk
      · omega
      · rw [hk, Bool.toNat_true] at hstep
        omega
    cases ha : holds (c.pc a) with
    | true => exact h.not_holds hne ha
    | false =>
        rw [ha] at hold
        exact h.nobody hold b
  have hplace : ∀ b, holds ((c.move a s k).pc b) = true →
      b = a ∧ holds k = true ∨ b ≠ a ∧ holds (c.pc b) = true := by
    intro b hb
    rcases eq_or_ne b a with rfl | hne
    · rw [move_pc_self] at hb
      exact .inl ⟨rfl, hb⟩
    · rw [move_pc_of_ne c hne] at hb
      exact .inr ⟨hne, hb⟩
  refine ⟨by simp only [move_shared]; omega, ?_, ?_⟩
  · intro hpos b
    rw [move_shared] at hpos
    by_contra hb
    rcases hplace b (Bool.not_eq_false _ ▸ hb) with ⟨-, hk⟩ | ⟨hne, hb⟩
    · rw [hk, Bool.toNat_true] at hstep
      omega
    · rw [hother (.inl hpos) b hne] at hb
      cases hb
  · intro b d hb hd
    rcases hplace b hb with ⟨rfl, hk⟩ | ⟨hne, hold⟩ <;>
      rcases hplace d hd with ⟨rfl, hk'⟩ | ⟨hne', hold'⟩
    · rfl
    · rw [hother (.inr hk) d hne'] at hold'
      cases hold'
    · rw [hother (.inr hk') b hne] at hold
      cases hold
    · exact h.unique b d hold hold'

end Config
