import Mathlib.Data.Nat.Basic
import Mathlib.Data.List.Basic

/-! Bytes written as pairs of hexadecimal digits. -/

namespace Hexadecimal

variable {α : Type*} (digit : ℕ → α)

/-- The digits of bytes, the high one of each byte first. -/
def encode (bytes : List UInt8) : List α :=
  bytes.flatMap fun b : UInt8 => [digit (b >>> 4).toNat, digit (b &&& 0x0f).toNat]

variable {digit}

theorem high_lt (b : UInt8) : (b >>> 4).toNat < 16 := by
  rw [UInt8.toNat_shiftRight, Nat.shiftRight_eq_div_pow]
  have := b.toNat_lt
  exact Nat.div_lt_of_lt_mul this

theorem low_lt (b : UInt8) : (b &&& 0x0f).toNat < 16 := by
  rw [UInt8.toNat_and]
  exact Nat.lt_of_le_of_lt Nat.and_le_right (by decide)

/-- A byte is given by its halves. -/
theorem halves_injective {a b : UInt8} (hhigh : (a >>> 4).toNat = (b >>> 4).toNat)
    (hlow : (a &&& 0x0f).toNat = (b &&& 0x0f).toNat) : a = b := by
  have hdiv : a.toNat / 16 = b.toNat / 16 := by
    simpa [UInt8.toNat_shiftRight, Nat.shiftRight_eq_div_pow] using hhigh
  have hmod : a.toNat % 16 = b.toNat % 16 := by
    have hand : ∀ n : ℕ, n &&& 15 = n % 16 := fun n => Nat.and_two_pow_sub_one_eq_mod n 4
    simpa [UInt8.toNat_and, hand] using hlow
  exact UInt8.toNat_inj.mp (by omega)

/-- With sixteen different digits no two lists of bytes are written alike. -/
theorem encode_injective (h : ∀ m < 16, ∀ n < 16, digit m = digit n → m = n) :
    Function.Injective (encode digit) := by
  intro as
  induction as with
  | nil =>
      intro bs heq
      cases bs with
      | nil => rfl
      | cons b bs => exact absurd heq (by simp [encode])
  | cons a as ih =>
      intro bs heq
      cases bs with
      | nil => exact absurd heq (by simp [encode])
      | cons b bs =>
          rw [encode, encode, List.flatMap_cons, List.flatMap_cons] at heq
          obtain ⟨hhigh, heq⟩ := List.cons.inj heq
          obtain ⟨hlow, heq⟩ := List.cons.inj heq
          rw [ih heq, halves_injective (h _ (high_lt a) _ (high_lt b) hhigh)
            (h _ (low_lt a) _ (low_lt b) hlow)]

theorem mem_encode {bytes : List UInt8} {d : α} (h : d ∈ encode digit bytes) :
    ∃ n < 16, digit n = d := by
  obtain ⟨b, -, hd⟩ := List.mem_flatMap.mp h
  rcases List.mem_cons.mp hd with rfl | hd
  · exact ⟨_, high_lt b, rfl⟩
  · rw [List.mem_singleton.mp hd]
    exact ⟨_, low_lt b, rfl⟩

/-! ## Reading digits -/

/-- The byte of two digits, each of which has a value. -/
def decodePair (value : α → Option ℕ) (high low : α) : Option UInt8 :=
  (value high).bind fun m => (value low).map fun n => UInt8.ofNat (16 * m + n)

/-- The digits of a byte are read as that byte. -/
theorem decodePair_digits {value : α → Option ℕ} (h : ∀ n < 16, value (digit n) = some n)
    (b : UInt8) :
    decodePair value (digit (b >>> 4).toNat) (digit (b &&& 0x0f).toNat) = some b := by
  have hmod : (b &&& 0x0f).toNat = b.toNat % 16 := by
    rw [UInt8.toNat_and]
    exact Nat.and_two_pow_sub_one_eq_mod b.toNat 4
  have hdiv : (b >>> 4).toNat = b.toNat / 16 := by
    rw [UInt8.toNat_shiftRight, Nat.shiftRight_eq_div_pow]
    rfl
  rw [decodePair, h _ (high_lt b), h _ (low_lt b), Option.bind_some, Option.map_some, hmod, hdiv,
    Nat.div_add_mod, UInt8.ofNat_toNat]

end Hexadecimal
