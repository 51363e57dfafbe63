import Minapp.Verification.Bluetooth.Grammar
import Mathlib.Data.Nat.Digits.Lemmas

/-! # Addresses through text -/

namespace Minapp.Bluetooth

open Scanf

/-! ## Groups that are printed -/

theorem hexDigit_upperDigit : ∀ n < 16, hexDigit (upperDigit n) = some n := by decide

/-- A byte is printed as two digits, whatever it is. -/
theorem printHex_byte (b : Byte) :
    printHex 2 b.toNat = [upperDigit (b.toNat / 16), upperDigit (b.toNat % 16)] := by
  have hlt := b.toNat_lt
  generalize b.toNat = n at hlt
  rw [printHex]
  by_cases hzero : n = 0
  · subst hzero
    rfl
  · simp only [if_neg hzero]
    by_cases hone : n < 16
    · rw [Nat.digits_of_lt 16 n hzero hone, Nat.div_eq_of_lt hone, Nat.mod_eq_of_lt hone]
      rfl
    · have hdiv : n / 16 ≠ 0 := by omega
      rw [Nat.digits_def' (by decide) (Nat.pos_of_ne_zero hzero),
        Nat.digits_of_lt 16 (n / 16) hdiv (by omega)]
      rfl

theorem groups_printHex (b : Byte) : Groups [b.toNat] (printHex 2 b.toNat) := by
  have hlt := b.toNat_lt
  have hgroup := Groups.last (hexDigit_upperDigit (b.toNat / 16) (by omega))
    (hexDigit_upperDigit (b.toNat % 16) (by omega))
  rw [Nat.div_add_mod] at hgroup
  rwa [printHex_byte]

theorem Groups.printHex_cons (b : Byte) {vs : List ℕ} {rest : List Byte} (h : Groups vs rest) :
    Groups (b.toNat :: vs) (printHex 2 b.toNat ++ 58 :: rest) := by
  have hlt := b.toNat_lt
  have hgroup := Groups.cons (c := 58) (hexDigit_upperDigit (b.toNat / 16) (by omega))
    (hexDigit_upperDigit (b.toNat % 16) (by omega)) (by decide) h
  rw [Nat.div_add_mod] at hgroup
  rwa [printHex_byte]

namespace Address

variable (a : Address)

theorem groups_print : Groups a.values a.print := by
  simp only [print, List.append_assoc, List.cons_append]
  exact .printHex_cons _ (.printHex_cons _ (.printHex_cons _ (.printHex_cons _
    (.printHex_cons _ (groups_printHex _)))))

theorem length_print : a.print.length = 17 := by
  have hlen : a.print.length + 1 = 3 * 6 := a.groups_print.length_eq
  omega

/-- The string is filled by what is printed. -/
theorem toString_eq : a.toString = a.print := by
  rw [toString, a.length_print, List.take_of_length_le a.length_print.le]
  exact List.append_nil _

end Address

theorem makeAddress_toString (a : Address) : makeAddress a.toString = .ok a := by
  rw [a.toString_eq]
  exact makeAddress_of_groups a.groups_print

/-- An address is written with 17 characters, from which it is read again; different addresses
are written differently, and a string that is accepted is the same address as the text of what
is read. -/
theorem address_roundTrip :
    (∀ a : Address, a.toString.length = 17 ∧ makeAddress a.toString = .ok a) ∧
      Function.Injective Address.toString ∧
      ∀ s : List Byte, (makeAddress s).bind (fun a => makeAddress a.toString) = makeAddress s := by
  refine ⟨?_, ?_, ?_⟩
  · intro a
    rw [a.toString_eq]
    exact ⟨a.length_print, makeAddress_of_groups a.groups_print⟩
  · intro a b h
    have hread := makeAddress_toString a
    rw [h, makeAddress_toString b] at hread
    simpa using hread.symm
  · intro s
    cases makeAddress s with
    | error e => rfl
    | ok a => exact makeAddress_toString a

end Minapp.Bluetooth
