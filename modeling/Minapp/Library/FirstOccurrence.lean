import Mathlib.Data.List.Infix

/-! The first occurrence of a pattern in a list, reported by the position just after it. -/

namespace FirstOccurrence

variable {α : Type*} [DecidableEq α]

/-- Length of the shortest prefix of `xs` that ends with an occurrence of `pat`. -/
def firstEnd (pat : List α) : List α → Option ℕ
  | [] => if pat = [] then some 0 else none
  | x :: xs =>
    if pat.isPrefixOf (x :: xs) then some pat.length else (firstEnd pat xs).map (· + 1)

/-- The occurrence found lies inside the list, and is preceded by a prefix. -/
theorem firstEnd_bounds {pat : List α} :
    ∀ {xs : List α} {n : ℕ}, firstEnd pat xs = some n → pat.length ≤ n ∧ n ≤ xs.length := by
  intro xs
  induction xs with
  | nil =>
      intro n h
      by_cases hp : pat = []
      · simp_all [firstEnd]
      · simp [firstEnd, hp] at h
  | cons x xs ih =>
      intro n h
      rw [firstEnd] at h
      by_cases hp : pat.isPrefixOf (x :: xs)
      · rw [if_pos hp] at h
        obtain rfl := Option.some.inj h
        exact ⟨le_rfl, (List.isPrefixOf_iff_prefix.mp hp).length_le⟩
      · rw [if_neg hp] at h
        obtain ⟨m, hm, rfl⟩ := Option.map_eq_some_iff.mp h
        have hb := ih hm
        simp only [List.length_cons]
        omega

/-- An occurrence found in a list is the first one of every extension of the list. -/
theorem firstEnd_append {pat : List α} :
    ∀ {xs : List α} {n : ℕ} (ys : List α), firstEnd pat xs = some n →
      firstEnd pat (xs ++ ys) = some n := by
  intro xs
  induction xs with
  | nil =>
      intro n ys h
      by_cases hp : pat = []
      · subst hp
        cases ys <;> simp_all [firstEnd]
      · simp [firstEnd, hp] at h
  | cons x xs ih =>
      intro n ys h
      rw [firstEnd] at h
      by_cases hp : pat.isPrefixOf (x :: xs)
      · rw [if_pos hp] at h
        have hq : pat.isPrefixOf (x :: xs ++ ys) :=
          List.isPrefixOf_iff_prefix.mpr
            ((List.isPrefixOf_iff_prefix.mp hp).trans (List.prefix_append _ _))
        rw [List.cons_append] at hq ⊢
        rw [firstEnd, if_pos hq, ← h]
      · rw [if_neg hp] at h
        obtain ⟨m, hm, rfl⟩ := Option.map_eq_some_iff.mp h
        have hlen := (firstEnd_bounds hm)
        have hq : ¬ pat.isPrefixOf (x :: xs ++ ys) := by
          intro hq
          apply hp
          have hpre := List.isPrefixOf_iff_prefix.mp hq
          apply List.isPrefixOf_iff_prefix.mpr
          apply List.prefix_of_prefix_length_le hpre (List.prefix_append _ _)
          simp only [List.length_cons]
          omega
        rw [List.cons_append] at hq ⊢
        rw [firstEnd, if_neg hq, ih ys hm]
        rfl

end FirstOccurrence
