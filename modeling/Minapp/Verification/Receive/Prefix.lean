import Minapp.Verification.Receive.Buffer
import Mathlib.Data.Nat.Digits.Lemmas

/-! Parsing of length prefixes: the value of a field as an integer, and when the
modular sum of `read_prefix` agrees with it. -/

namespace Minapp

open Positional

/-- The number of prefix bytes of the fixed-width prefix protocols. -/
def prefixSize : Protocol → Option ℕ
  | .prefix8 => some 1
  | .prefix16 => some 2
  | .prefix32 => some 4
  | .prefix64 => some 8
  | _ => none

theorem prefixSize_bounds {p : Protocol} {n : ℕ} (h : prefixSize p = some n) : 1 ≤ n ∧ n ≤ 8 := by
  cases p <;> simp only [prefixSize, Option.some.injEq, reduceCtorEq] at h <;> omega

/-- A varint ends with its first byte without a continuation bit. -/
def varintLength (p : List Byte) : ℕ := (p.takeWhile continues).length + 1

/-- The number of bytes of the length field at the start of an input. -/
def fieldSize (s : Settings) (input : List Byte) : ℕ :=
  (prefixSize s.protocol).getD (varintLength input)

/-- Whether the length field is a varint. -/
def varField (s : Settings) : Bool := (prefixSize s.protocol).isNone

/-- The payload bits of the prefix bytes, least significant digit first. -/
def fieldDigits (s : Settings) (var : Bool) (p : List Byte) : List ℕ :=
  let digits := p.map fun c => if var then c.toNat % 128 else c.toNat
  if s.littleEndian then digits else digits.reverse

/-- A length field as an integer in the configured byte order. -/
def fieldValue (s : Settings) (var : Bool) (p : List Byte) : ℕ :=
  Nat.ofDigits (if var then 128 else 256) (fieldDigits s var p)

/-- The length of the whole frame, prefix included, that a field announces. -/
def fieldTotal (s : Settings) (var : Bool) (p : List Byte) : ℕ :=
  if s.includePrefix then fieldValue s var p else fieldValue s var p + p.length

theorem fieldSize_pos (s : Settings) (input : List Byte) : 0 < fieldSize s input := by
  rw [fieldSize]
  cases hp : prefixSize s.protocol with
  | none => exact Nat.succ_pos _
  | some n => exact (prefixSize_bounds hp).1

/-- Only a varint can have more bytes than are buffered of it, and then by one. -/
theorem varField_or_fieldSize (s : Settings) (input : List Byte) :
    (varField s = true ∧ fieldSize s input ≤ input.length + 1) ∨
      varField s = false ∧ ∃ n, prefixSize s.protocol = some n ∧ fieldSize s input = n := by
  rw [varField, fieldSize]
  cases prefixSize s.protocol with
  | none =>
      exact .inl ⟨rfl, Nat.succ_le_succ (List.takeWhile_prefix (l := input) continues).length_le⟩
  | some n => exact .inr ⟨rfl, n, rfl, rfl⟩

theorem varintLength_append {input : List Byte} (ys : List Byte)
    (h : varintLength input ≤ input.length) :
    varintLength (input ++ ys) = varintLength input := by
  have hlt : (input.takeWhile continues).length < input.length := h
  unfold varintLength
  rw [List.takeWhile_append, if_neg (Nat.ne_of_lt hlt)]

/-- A complete field is not lengthened by what follows it. -/
theorem fieldSize_append {s : Settings} {input : List Byte} (ys : List Byte)
    (h : fieldSize s input ≤ input.length) : fieldSize s (input ++ ys) = fieldSize s input := by
  unfold fieldSize at *
  cases hp : prefixSize s.protocol with
  | none =>
      rw [hp] at h
      exact varintLength_append ys h
  | some n => rfl

theorem fieldSize_le_append (s : Settings) (input ys : List Byte) :
    fieldSize s input ≤ fieldSize s (input ++ ys) := by
  unfold fieldSize
  cases prefixSize s.protocol with
  | none =>
      simp only [Option.getD_none, varintLength, List.takeWhile_append]
      split
      · rw [List.length_append]
        omega
      · exact le_rfl
  | some n => exact le_rfl

/-! ## The value of a field -/

theorem toNat_and_127 (c : Byte) : (c &&& 0x7f).toNat = c.toNat % 128 := by
  rw [UInt8.toNat_and]
  exact Nat.and_two_pow_sub_one_eq_mod c.toNat 7

theorem length_fieldDigits (s : Settings) (var : Bool) (p : List Byte) :
    (fieldDigits s var p).length = p.length := by
  cases h : s.littleEndian <;> simp [fieldDigits, h]

theorem fieldDigits_lt (s : Settings) (var : Bool) (p : List Byte) :
    ∀ d ∈ fieldDigits s var p, d < if var then 128 else 256 := by
  intro d hd
  have hm : d ∈ p.map fun c => if var then c.toNat % 128 else c.toNat := by
    cases h : s.littleEndian
    · simpa only [fieldDigits, h, Bool.false_eq_true, if_false, List.mem_reverse] using hd
    · simpa only [fieldDigits, h, if_true] using hd
  obtain ⟨c, -, rfl⟩ := List.mem_map.mp hm
  cases var
  · exact c.toNat_lt
  · exact Nat.mod_lt _ (by decide)

/-- The loops of `read_prefix` compute the value of the field. -/
theorem prefixValue_eq (s : Settings) (var : Bool) (p : List Byte)
    (h : p.length ≤ 8 + var.toNat) : prefixValue s var p = fieldValue s var p := by
  have hdigits : (let digits := p.map fun c => if var then (c &&& 0x7f).toNat else c.toNat
      if s.littleEndian then digits else digits.reverse) = fieldDigits s var p := by
    simp only [toNat_and_127, fieldDigits]
  have hlt := fieldDigits_lt s var p
  have hlen := length_fieldDigits s var p
  rw [prefixValue]
  simp only at hdigits ⊢
  rw [hdigits]
  cases var
  · rw [orShift_eq _ 0 0 (by simpa using hlt) (by simp) (by simp at h ⊢; omega)]
    simp [fieldValue]
  · rw [orShift_eq _ 0 0 (by simpa using hlt) (by simp) (by simp at h ⊢; omega)]
    simp [fieldValue]

theorem fieldValue_lt (s : Settings) (var : Bool) (p : List Byte) :
    fieldValue s var p < (if var then 128 else 256) ^ p.length := by
  have h := Nat.ofDigits_lt_base_pow_length (b := if var then 128 else 256)
    (by cases var <;> decide) (fieldDigits_lt s var p)
  rwa [length_fieldDigits] at h

/-! ## Parsing -/

theorem parseField_of_long {s : Settings} {var : Bool} {p : List Byte} {n : ℕ}
    (h : 8 + var.toNat < n) : parseField s var p n = .error .valueTooLarge := if_pos h

/-- Over at most nine bytes, `parseField` decides by the value of the field. -/
theorem parseField_eq {s : Settings} {var : Bool} {p : List Byte} {n : ℕ}
    (hn : n ≤ p.length) (h : n ≤ 8 + var.toNat) :
    parseField s var p n =
      if s.includePrefix ∧ fieldValue s var (p.take n) < n then .error .badMessage
      else if s.readBufferSize < wrap (fieldTotal s var (p.take n)) then .error .messageSize
      else .body n (fieldTotal s var (p.take n) - n) := by
  have hlen : (p.take n).length = n := List.length_take_of_le hn
  rw [parseField, fieldTotal]
  rw [if_neg (Nat.not_lt.mpr h), prefixValue_eq _ _ _ (by rw [hlen]; exact h), hlen]
  cases hi : s.includePrefix with
  | false => simp
  | true =>
      by_cases hv : fieldValue s var (p.take n) < n
      · simp [hv]
      · have hle : n ≤ fieldValue s var (p.take n) := Nat.le_of_not_lt hv
        simp [hv, Nat.sub_add_cancel hle]

/-- Only a 64-bit field that does not include its prefix can exceed 64 bits. -/
theorem fieldTotal_lt {s : Settings} {var : Bool} {p : List Byte} (h : p.length ≤ 8 + var.toNat)
    (h8 : var = true ∨ s.includePrefix = true ∨ p.length ≤ 7) : fieldTotal s var p < 2 ^ 64 := by
  have hv := fieldValue_lt s var p
  rw [fieldTotal]
  cases var
  · simp only [Bool.toNat_false, Nat.add_zero, Bool.false_eq_true, false_or, if_false] at h h8 hv
    rcases h8 with h8 | h8
    · rw [if_pos h8]
      calc
        fieldValue s false p < 256 ^ p.length := hv
        _ ≤ 256 ^ 8 := Nat.pow_le_pow_right (by decide) h
        _ = 2 ^ 64 := by decide
    · have : 256 ^ p.length ≤ 256 ^ 7 := Nat.pow_le_pow_right (by decide) h8
      split <;> omega
  · simp only [Bool.toNat_true, if_true] at h hv
    have : 128 ^ p.length ≤ 128 ^ 9 := Nat.pow_le_pow_right (by decide) h
    split <;> omega

/-- A varint is at least as long as what is buffered of it. -/
theorem varintLength_le {p : List Byte} (h : ∀ c ∈ p.dropLast, continues c = true)
    (hp : p ≠ []) : varintLength p =
      if continues (p.getD (p.length - 1) 0) then p.length + 1 else p.length := by
  obtain ⟨init, last, rfl⟩ := List.eq_nil_or_concat p |>.resolve_left hp
  rw [List.concat_eq_append] at h ⊢
  rw [List.dropLast_concat] at h
  rw [varintLength]
  rw [List.takeWhile_append_of_pos (fun c hc => h c hc)]
  cases hc : continues last <;> simp [hc]

theorem takeWhile_of_varint (p : List Byte) (h : varintLength p ≤ p.length) :
    continues (p.getD (varintLength p - 1) 0) = false := by
  rw [varintLength] at h ⊢
  induction p with
  | nil => simp at h
  | cons c p ih =>
      cases hc : continues c
      · simp [hc]
      · simp only [List.takeWhile_cons, hc, if_true, List.length_cons] at h ⊢
        simpa using ih (by omega)

/-- `read_prefix` over a prefix protocol, in terms of the bytes the prefix needs. -/
theorem parsePrefix_eq_of_need {s : Settings} {p : List Byte} {len n : ℕ} {var : Bool}
    (hvar : var = decide (sizeMsb ≤ len))
    (hn : n = let len := if var then len - sizeMsb else len
      if len = 0 then varintLength p else len)
    (hstop : var = true → n ≤ p.length → continues (p.getD (n - 1) 0) = false) :
    parsePrefix s p len =
      if p.length < n then if s.readBufferSize < n then .error .messageSize else .incomplete n
      else parseField s var p n := by
  subst hvar
  rw [parsePrefix]
  simp only [← varintLength.eq_1, decide_eq_true_eq] at hn ⊢
  rw [← hn]
  by_cases hlt : p.length < n
  · simp [hlt]
  · rw [if_neg, if_neg hlt]
    rintro (h | ⟨hv, hc⟩)
    · exact hlt h
    · rw [hstop (by simpa using hv) (Nat.le_of_not_lt hlt)] at hc
      exact Bool.false_ne_true hc

theorem parsePrefix_fixed {s : Settings} {p : List Byte} {n : ℕ}
    (h : prefixSize s.protocol = some n) :
    parsePrefix s p n =
      if p.length < n then if s.readBufferSize < n then .error .messageSize else .incomplete n
      else parseField s false p n := by
  have hb := prefixSize_bounds h
  have hm : ¬ sizeMsb ≤ n := by unfold sizeMsb; omega
  refine parsePrefix_eq_of_need (by simp [hm]) ?_ (by simp)
  simp [show n ≠ 0 by omega]

theorem parsePrefix_var (s : Settings) (p : List Byte) :
    parsePrefix s p sizeMsb =
      if p.length < varintLength p then
        if s.readBufferSize < varintLength p then .error .messageSize
        else .incomplete (varintLength p)
      else parseField s true p (varintLength p) := by
  apply parsePrefix_eq_of_need (by simp) (by simp)
  intro _ h
  exact takeWhile_of_varint p h

/-- When `read_prefix` re-enters itself with the bytes it has read packed with the
flag, it decides as a fresh scan of these bytes. -/
theorem parsePrefix_reenter {s : Settings} {p : List Byte} (hp : p ≠ [])
    (h : ∀ c ∈ p.dropLast, continues c = true) :
    parsePrefix s p (p.length + sizeMsb) = parsePrefix s p sizeMsb := by
  have hlen : 0 < p.length := List.length_pos_iff.mpr hp
  rw [parsePrefix_var, varintLength_le h hp]
  rw [parsePrefix]
  simp only [Nat.le_add_left, decide_true, if_true, Nat.add_sub_cancel,
    if_neg (Nat.ne_of_gt hlen), Nat.lt_irrefl, false_or, true_and]
  cases hc : continues (p.getD (p.length - 1) 0) <;> simp

end Minapp
