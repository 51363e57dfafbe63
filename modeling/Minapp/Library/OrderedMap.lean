import Minapp.Library.OrderedSet
import Mathlib.Logic.Function.Basic

/-! Finite maps, as lists of entries in the order of their keys. -/

namespace OrderedMap

variable {κ υ : Type*} [LinearOrder κ]

abbrev Sorted (xs : List (κ × υ)) : Prop := OrderedSet.Sorted Prod.fst xs

/-- The value of a key. -/
def lookup (xs : List (κ × υ)) (k : κ) : Option υ := (OrderedSet.find Prod.fst k xs).map Prod.snd

/-- Gives the entry of a key another value. -/
def assign (k : κ) (v : υ) (xs : List (κ × υ)) : List (κ × υ) :=
  xs.map fun x => if x.1 = k then (k, v) else x

/-- Removes the entry of a key. -/
def erase (k : κ) (xs : List (κ × υ)) : List (κ × υ) := xs.filter fun x => x.1 ≠ k

variable {xs : List (κ × υ)} {k : κ} {v : υ}

theorem lookup_nil : lookup ([] : List (κ × υ)) k = none := rfl

theorem lookup_cons (x : κ × υ) :
    lookup (x :: xs) k = if x.1 = k then some x.2 else lookup xs k := by
  rw [lookup, OrderedSet.find, List.find?_cons]
  by_cases h : x.1 = k
  · simp [h]
  · simp [h, lookup, OrderedSet.find]

theorem lookup_eq_none : lookup xs k = none ↔ ∀ x ∈ xs, x.1 ≠ k := by
  simp [lookup, OrderedSet.find]

/-- In a sorted list the entries are those that lookup finds. -/
theorem mem_iff_lookup (hs : Sorted xs) : (k, v) ∈ xs ↔ lookup xs k = some v := by
  induction xs with
  | nil => simp [lookup_nil]
  | cons x xs ih =>
      obtain ⟨hx, hxs⟩ := List.pairwise_cons.mp hs
      rw [lookup_cons, List.mem_cons, ih hxs]
      by_cases h : x.1 = k
      · subst h
        have hnone : lookup xs x.1 = none := lookup_eq_none.mpr fun y hy => ne_of_gt (hx y hy)
        simp [hnone, Prod.ext_iff, eq_comm]
      · have hne : (k, v) ≠ x := fun heq => h (congrArg Prod.fst heq).symm
        simp [h, hne]

theorem Sorted.assign (hs : Sorted xs) : Sorted (assign k v xs) := by
  refine List.pairwise_map.mpr (hs.imp ?_)
  intro x y hxy
  split <;> split <;> simp_all

theorem Sorted.erase (hs : Sorted xs) : Sorted (erase k xs) := List.Pairwise.filter _ hs

/-- Inserting an entry with a new key maps that key. -/
theorem lookup_insert [DecidableEq κ] (hnew : lookup xs k = none) :
    lookup (OrderedSet.insert Prod.fst (k, v) xs) = Function.update (lookup xs) k (some v) := by
  funext k'
  induction xs with
  | nil =>
      rw [OrderedSet.insert, lookup_cons, Function.update_apply]
      simp [eq_comm, lookup_nil]
  | cons x xs ih =>
      rw [lookup_cons] at hnew
      split at hnew
      · exact absurd hnew (by simp)
      · rename_i hx
        have ih := ih hnew
        rw [Function.update_apply] at ih ⊢
        rw [OrderedSet.insert]
        split
        · rw [lookup_cons]
          simp [eq_comm]
        · rw [if_pos (lt_of_le_of_ne (not_lt.mp ‹_›) hx), lookup_cons, lookup_cons, ih]
          by_cases hk : k' = k
          · subst hk
            simp [hx]
          · simp [hk]

/-- Assigning to the entry of a key maps that key, if it has one. -/
theorem lookup_assign_apply (k' : κ) : lookup (assign k v xs) k' =
    if k' = k then (lookup xs k).map fun _ => v else lookup xs k' := by
  induction xs with
  | nil => simp [assign, lookup_nil]
  | cons x xs ih =>
      rw [assign] at ih ⊢
      rw [List.map_cons, lookup_cons, lookup_cons, lookup_cons, ih]
      by_cases hx : x.1 = k
      · by_cases hk : k' = k
        · simp [hx, hk]
        · simp [hx, hk, Ne.symm hk]
      · by_cases hk : k' = k
        · subst hk
          simp [hx]
        · simp [hx, hk]

theorem lookup_assign [DecidableEq κ] (hold : lookup xs k ≠ none) :
    lookup (assign k v xs) = Function.update (lookup xs) k (some v) := by
  funext k'
  obtain ⟨w, hw⟩ := Option.ne_none_iff_exists'.mp hold
  rw [lookup_assign_apply, Function.update_apply, hw]
  by_cases hk : k' = k <;> simp [hk]

/-- Assigning the value that a key has changes nothing. -/
theorem assign_eq_self (hs : Sorted xs) (h : lookup xs k = some v) : assign k v xs = xs := by
  refine (List.map_congr_left fun x hx => ?_).trans (List.map_id xs)
  have hlookup := (mem_iff_lookup hs).mp hx
  by_cases hk : x.1 = k
  · rw [hk, h] at hlookup
    rw [if_pos hk, Option.some.inj hlookup, ← hk]
    rfl
  · rw [if_neg hk]
    rfl

theorem lookup_erase [DecidableEq κ] : lookup (erase k xs) = Function.update (lookup xs) k none := by
  funext k'
  rw [Function.update_apply]
  induction xs with
  | nil => simp [erase, lookup_nil]
  | cons x xs ih =>
      rw [erase] at ih ⊢
      by_cases hx : x.1 = k
      · rw [List.filter_cons_of_neg (by simp [hx]), ih, lookup_cons]
        by_cases hk : k' = k
        · simp [hk]
        · rw [if_neg hk, if_neg hk, if_neg (hx ▸ Ne.symm hk)]
      · rw [List.filter_cons_of_pos (by simp [hx]), lookup_cons, lookup_cons, ih]
        by_cases hk : k' = k
        · subst hk
          simp [hx]
        · simp [hk]

end OrderedMap
