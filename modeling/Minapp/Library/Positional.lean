import Mathlib.Data.Nat.Digits.Defs
import Mathlib.Tactic.Ring

/-! Assembling an unsigned word from its digits by shifting and or-ing, and its value
in positional notation. -/

namespace Positional

/-- The loop `acc |= d << (w * i)` over `w`-bit digits from position `i` on, in
`bits`-bit unsigned arithmetic. -/
def orShift (bits w : ℕ) : ℕ → ℕ → List ℕ → ℕ
  | acc, _, [] => acc
  | acc, i, d :: ds => orShift bits w (acc ||| (d <<< (w * i)) % 2 ^ bits) (i + 1) ds

/-- While the digits fit the word, or-ing them in adds their positional value. -/
theorem orShift_eq {bits w : ℕ} (ds : List ℕ) (acc i : ℕ) (hd : ∀ d ∈ ds, d < 2 ^ w)
    (hacc : acc < 2 ^ (w * i)) (hfit : w * (i + ds.length) ≤ bits) :
    orShift bits w acc i ds = acc + 2 ^ (w * i) * Nat.ofDigits (2 ^ w) ds := by
  induction ds generalizing acc i with
  | nil => simp [orShift]
  | cons d ds ih =>
      have hdlt : d < 2 ^ w := hd d (by simp)
      have hpow : 2 ^ (w * (i + 1)) = 2 ^ (w * i) * 2 ^ w := by
        rw [← Nat.pow_add, Nat.mul_succ]
      have hshift : d <<< (w * i) < 2 ^ bits := by
        rw [Nat.shiftLeft_eq, Nat.mul_comm]
        calc
          2 ^ (w * i) * d < 2 ^ (w * i) * 2 ^ w :=
            Nat.mul_lt_mul_of_pos_left hdlt (Nat.two_pow_pos _)
          _ = 2 ^ (w * (i + 1)) := hpow.symm
          _ ≤ 2 ^ bits := Nat.pow_le_pow_right (by omega) (by
            refine le_trans (Nat.mul_le_mul_left w ?_) hfit
            simp only [List.length_cons]
            omega)
      have hor : acc ||| (d <<< (w * i)) % 2 ^ bits = acc + 2 ^ (w * i) * d := by
        rw [Nat.mod_eq_of_lt hshift, Nat.shiftLeft_eq, Nat.or_comm, Nat.mul_comm d,
          ← Nat.two_pow_add_eq_or_of_lt hacc, Nat.add_comm]
      have hnext : acc + 2 ^ (w * i) * d < 2 ^ (w * (i + 1)) := by
        have hle : 2 ^ (w * i) * (d + 1) ≤ 2 ^ (w * i) * 2 ^ w := Nat.mul_le_mul_left _ hdlt
        rw [Nat.mul_succ] at hle
        omega
      rw [orShift, hor, ih _ _ (fun e he => hd e (by simp [he])) hnext (by
        simp only [List.length_cons] at hfit
        simpa only [Nat.add_assoc, Nat.add_comm 1] using hfit)]
      rw [hpow, Nat.ofDigits_cons]
      ring

end Positional
