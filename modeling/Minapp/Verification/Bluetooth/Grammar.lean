import Minapp.Model.Bluetooth
import Mathlib.Data.List.GetD
import Mathlib.Tactic.FinCases

/-! # The text of Bluetooth addresses

What `make_address` accepts is the language of its scan format, which is wider than six groups
of two digits. -/

namespace Minapp.Bluetooth

open Scanf

/-! ## The language of the format -/

/-- The format of one group, with `k` more after it. -/
def fieldFormat : ℕ → List Directive
  | 0 => [.hex 2]
  | k + 1 => .hex 2 :: .skip separators :: fieldFormat k

theorem scanFormat_eq : scanFormat = fieldFormat 5 := rfl

/-- Fields with runs of separators between them, and anything behind the last one. -/
inductive Fields : List ℕ → List Byte → Prop where
  | last {text v rest} : Field text v rest → Fields [v] (text ++ rest)
  | cons {text v seps rest vs} : Field text v (seps ++ rest) → Skipped separators seps rest →
      Fields vs rest → Fields (v :: vs) (text ++ (seps ++ rest))

theorem Fields.ne_nil {vs : List ℕ} {s : List Byte} (h : Fields vs s) : vs ≠ [] := by
  cases h <;> simp

theorem fields_of_matchAll {k : ℕ} {s : List Byte} {vs : List ℕ}
    (h : matchAll (fieldFormat k) s = some vs) : vs.length = k + 1 ∧ Fields vs s := by
  induction k generalizing s vs with
  | zero =>
      rw [fieldFormat, matchAll] at h
      split at h
      · rename_i v rest hscan
        obtain ⟨text, rfl, hfield⟩ := scanHex_iff.mp hscan
        obtain ⟨ws, hws, rfl⟩ := Option.map_eq_some_iff.mp h
        obtain rfl := Option.some.inj hws
        exact ⟨rfl, .last hfield⟩
      · exact absurd h (by simp)
  | succ k ih =>
      rw [fieldFormat, matchAll] at h
      split at h
      · rename_i v rest hscan
        obtain ⟨text, rfl, hfield⟩ := scanHex_iff.mp hscan
        obtain ⟨ws, hws, rfl⟩ := Option.map_eq_some_iff.mp h
        rw [matchAll] at hws
        split at hws
        · rename_i rest' hskip
          obtain ⟨seps, rfl, hskipped⟩ := scanSkip_iff.mp hskip
          obtain ⟨hlen, hfields⟩ := ih hws
          exact ⟨by rw [List.length_cons, hlen], .cons hfield hskipped hfields⟩
        · exact absurd hws (by simp)
      · exact absurd h (by simp)

theorem matchAll_of_fields {s : List Byte} {vs : List ℕ} (h : Fields vs s) :
    matchAll (fieldFormat (vs.length - 1)) s = some vs := by
  induction h with
  | last hfield =>
      rw [List.length_singleton, fieldFormat, matchAll, scanHex_of_field hfield]
      rfl
  | @cons text v seps rest vs hfield hskipped hfields ih =>
      obtain ⟨k, hk⟩ : ∃ k, vs.length = k + 1 :=
        Nat.exists_eq_succ_of_ne_zero fun hzero => hfields.ne_nil (List.length_eq_zero_iff.mp hzero)
      rw [hk, Nat.add_sub_cancel] at ih
      rw [List.length_cons, hk, Nat.add_sub_cancel, fieldFormat, matchAll, scanHex_of_field hfield]
      simp only [matchAll, scanSkip_iff.mpr ⟨seps, rfl, hskipped⟩, ih, Option.map_some]

/-! ## What is stored -/

theorem storeData_of_le {d : ℕ → ℕ} {r : ℕ} (h : ∀ i < r, d i ≤ 0xff) (addr : Address) :
    storeData d r addr =
      (-1, ⟨fun i => if i < r then UInt8.ofNat (d i) else addr.data i⟩) := by
  induction r generalizing addr with
  | zero => simp [storeData]
  | succ r ih =>
      rw [storeData, if_neg (Nat.not_lt.mpr (h r (Nat.lt_succ_self r))),
        ih fun i hi => h i (Nat.lt_succ_of_lt hi)]
      congr 2
      funext i
      by_cases hi : i < r
      · rw [if_pos hi, if_pos (Nat.lt_succ_of_lt hi)]
      · rw [if_neg hi]
        by_cases heq : (i : ℕ) = r
        · simp [heq]
        · simp only [heq, if_false]
          rw [if_neg (by omega)]

/-- The loop stops at a value that is not a byte. -/
theorem storeData_of_lt {d : ℕ → ℕ} {r i : ℕ} (hi : i < r) (h : 0xff < d i) (addr : Address) :
    (storeData d r addr).1 ≠ -1 := by
  induction r generalizing addr with
  | zero => omega
  | succ r ih =>
      rw [storeData]
      split
      · simp only
        omega
      · rename_i hr
        exact ih (Nat.lt_of_le_of_ne (Nat.le_of_lt_succ hi) fun heq => hr (heq ▸ h)) _

/-- The values are bytes: each is stored where the format says. -/
theorem values_of_storeData {vs : List ℕ} (hlen : vs.length = 6) (h : ∀ v ∈ vs, v ≤ 0xff) :
    ∃ a : Address, storeData (assignments vs) 6 .zero = (-1, a) ∧ a.values = vs := by
  have hmem : ∀ i < 6, assignments vs i ∈ vs := by
    intro i hi
    rw [assignments, List.getD_eq_getElem _ _ (by omega)]
    exact List.getElem_mem _
  refine ⟨_, storeData_of_le (fun i hi => h _ (hmem i hi)) _, ?_⟩
  have hbyte : ∀ i < 6, (UInt8.ofNat (assignments vs i)).toNat = assignments vs i := by
    intro i hi
    have := h _ (hmem i hi)
    exact UInt8.toNat_ofNat_of_lt' (Nat.lt_succ_of_le this)
  match vs, hlen with
  | [v₅, v₄, v₃, v₂, v₁, v₀], _ =>
      simp [Address.values, hbyte]
      simp [assignments]

theorem Address.values_le (a : Address) : ∀ v ∈ a.values, v ≤ 0xff := by
  intro v hv
  simp only [Address.values, List.mem_cons, List.not_mem_nil, or_false] at hv
  rcases hv with rfl | rfl | rfl | rfl | rfl | rfl <;> exact Nat.le_of_lt_succ (UInt8.toNat_lt _)

theorem values_injective {a b : Address} (h : a.values = b.values) : a = b := by
  simp only [Address.values, List.cons.injEq, and_true, UInt8.toNat_inj] at h
  obtain ⟨h₅, h₄, h₃, h₂, h₁, h₀⟩ := h
  cases a
  cases b
  simp only [Address.mk.injEq]
  funext i
  fin_cases i <;> assumption

/-- `make_address` accepts the language of its format, with values that are bytes. -/
theorem makeAddress_ok_iff {str : List Byte} {a : Address} :
    makeAddress str = .ok a ↔ Fields a.values str := by
  have hlast : ∃ width, scanFormat.getLast? = some (.hex width) := ⟨2, rfl⟩
  constructor
  · intro h
    rw [makeAddress] at h
    rcases sscanf_eq (s := str) hlast with ⟨vs, hvs, hscan⟩ | ⟨-, hlt⟩
    · have hfields := fields_of_matchAll (k := 5) hvs
      simp only [hscan, show ((assigned scanFormat : ℕ) : ℤ) = 6 from rfl, if_true] at h
      by_cases hall : ∀ v ∈ vs, v ≤ 0xff
      · obtain ⟨b, hstore, hb⟩ := values_of_storeData hfields.1 hall
        rw [hstore] at h
        obtain rfl : b = a := by simpa using h
        rw [hb]
        exact hfields.2
      · exfalso
        obtain ⟨v, hv, hlt⟩ : ∃ v ∈ vs, 0xff < v := by simpa using hall
        obtain ⟨i, hi, rfl⟩ := List.mem_iff_getElem.mp hv
        have hne := storeData_of_lt (d := assignments vs) (r := 6) (i := 5 - i) (by omega)
          (by rwa [assignments, show 5 - (5 - i) = i by omega,
            List.getD_eq_getElem _ _ hi]) .zero
        rw [if_neg hne] at h
        exact absurd h (by simp)
    · rw [if_neg (show (sscanf str scanFormat).1 ≠ 6 from hlt.ne)] at h
      exact absurd h (by simp)
  · intro h
    have hmatch := matchAll_of_fields h
    rw [show a.values.length - 1 = 5 from rfl, ← scanFormat_eq] at hmatch
    rcases sscanf_eq (s := str) hlast with ⟨vs, hvs, hscan⟩ | ⟨hnone, -⟩
    · obtain rfl := Option.some.inj (hmatch.symm.trans hvs)
      have hlen : a.values.length = 6 := rfl
      obtain ⟨b, hstore, hb⟩ := values_of_storeData hlen a.values_le
      obtain rfl := values_injective hb
      simp only [makeAddress, hscan, show ((assigned scanFormat : ℕ) : ℤ) = 6 from rfl, if_true,
        hstore]
    · exact absurd (hmatch.symm.trans hnone) (by simp)

/-! ## The grammar of addresses -/

/-- Groups of two digits with single separators between them, and nothing else. -/
inductive Groups : List ℕ → List Byte → Prop where
  | last {h l m n} : hexDigit h = some m → hexDigit l = some n → Groups [16 * m + n] [h, l]
  | cons {h l m n c vs rest} : hexDigit h = some m → hexDigit l = some n → c ∈ separators →
      Groups vs rest → Groups ((16 * m + n) :: vs) (h :: l :: c :: rest)

theorem Groups.length_eq {vs : List ℕ} {s : List Byte} (h : Groups vs s) :
    s.length + 1 = 3 * vs.length := by
  induction h with
  | last => rfl
  | cons _ _ _ _ ih =>
      simp only [List.length_cons] at ih ⊢
      omega

theorem not_mem_separators {c : Byte} {m : ℕ} (h : hexDigit c = some m) : c ∉ separators := by
  intro hc
  simp only [separators, List.mem_cons, List.not_mem_nil, or_false] at hc
  rcases hc with rfl | rfl <;> simp [hexDigit] at h

/-- A group begins with a digit, so that a single separator before it is all there is. -/
theorem Groups.skipped {vs : List ℕ} {s : List Byte} {c : Byte} (h : Groups vs s)
    (hc : c ∈ separators) : Skipped separators [c] s := by
  refine ⟨by simp, by simpa using hc, ?_⟩
  intro d hd
  cases h with
  | last hh _ =>
      obtain rfl := Option.some.inj hd
      exact not_mem_separators hh
  | cons hh _ _ _ =>
      obtain rfl := Option.some.inj hd
      exact not_mem_separators hh

/-- The grammar is a part of the language. -/
theorem Groups.fields {vs : List ℕ} {s : List Byte} (h : Groups vs s) : Fields vs s := by
  induction h with
  | last hh hl =>
      have hfield : Field _ _ [] := .two hh hl
      exact .last hfield
  | cons hh hl hc hgroups ih =>
      exact .cons (.two hh hl) (hgroups.skipped hc) ih

/-- `make_address` accepts the text of an address in the grammar, and no other string. -/
def AcceptsExactly (str : List Byte) : Prop :=
  (∀ a : Address, makeAddress str = .ok a ↔ Groups a.values str) ∧
    ((∀ a : Address, ¬ Groups a.values str) → makeAddress str = .error .invalidArgument)

theorem makeAddress_of_groups {str : List Byte} {a : Address} (h : Groups a.values str) :
    makeAddress str = .ok a := makeAddress_ok_iff.mpr h.fields

/-- A string is treated as the grammar says exactly if it is in the grammar, or not even in
the wider language of the format. -/
theorem acceptsExactly_iff (str : List Byte) :
    AcceptsExactly str ↔
      (∃ a : Address, Groups a.values str) ∨ ¬ ∃ a : Address, Fields a.values str := by
  constructor
  · intro h
    by_cases hfields : ∃ a : Address, Fields a.values str
    · obtain ⟨a, ha⟩ := hfields
      exact .inl ⟨a, (h.1 a).mp (makeAddress_ok_iff.mpr ha)⟩
    · exact .inr hfields
  · rintro (⟨a, ha⟩ | hnone)
    · have hok := makeAddress_of_groups ha
      refine ⟨?_, fun hnone => absurd ha (hnone a)⟩
      intro b
      constructor
      · intro hb
        obtain rfl : a = b := by simpa using hok.symm.trans hb
        exact ha
      · exact makeAddress_of_groups
    · have herror : makeAddress str = .error .invalidArgument := by
        cases h : makeAddress str with
        | error e => rfl
        | ok a => exact absurd ⟨a, makeAddress_ok_iff.mp h⟩ hnone
      refine ⟨?_, fun _ => herror⟩
      intro a
      constructor
      · intro ha
        exact absurd (herror.symm.trans ha) (by simp)
      · intro ha
        exact absurd ⟨a, ha.fields⟩ hnone

/-- `1:2:3:4:5:6` is taken for an address. -/
theorem not_acceptsExactly_digits :
    ¬ AcceptsExactly [49, 58, 50, 58, 51, 58, 52, 58, 53, 58, 54] := by
  intro h
  have hmatch : matchAll (fieldFormat 5) [49, 58, 50, 58, 51, 58, 52, 58, 53, 58, 54] =
      some (Address.values ⟨fun i => UInt8.ofNat (6 - i)⟩) := by decide
  have hgroups := (h.1 _).mp (makeAddress_ok_iff.mpr (fields_of_matchAll hmatch).2)
  exact absurd hgroups.length_eq (by decide)

end Minapp.Bluetooth
