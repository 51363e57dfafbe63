import Mathlib.Order.Lattice
import Mathlib.Data.List.Basic

/-! Sets whose elements carry a key, as lists in the order of their keys. -/

namespace OrderedSet

variable {α κ : Type*} [LinearOrder κ] (key : α → κ)

/-- In the order of the keys, without two elements of one key. -/
def Sorted (xs : List α) : Prop := xs.Pairwise (key · < key ·)

/-- Inserts an element, unless there is one with its key. -/
def insert (x : α) : List α → List α
  | [] => [x]
  | y :: ys =>
    if key x < key y then x :: y :: ys
    else if key y < key x then y :: insert x ys
    else y :: ys

/-- The element with a key. -/
def find (k : κ) (xs : List α) : Option α := xs.find? fun x => key x = k

/-- The first element whose key is not less. -/
def lowerBound (k : κ) (xs : List α) : Option α := xs.find? fun x => k ≤ key x

/-- The first element with a greater key. -/
def upperBound (k : κ) (xs : List α) : Option α := xs.find? fun x => k < key x

variable {key} {x y : α} {xs : List α} {k : κ}

theorem mem_of_mem_insert (h : y ∈ insert key x xs) : y = x ∨ y ∈ xs := by
  induction xs with
  | nil => exact .inl (List.mem_singleton.mp h)
  | cons z zs ih =>
      rw [insert] at h
      split at h
      · exact List.mem_cons.mp h
      · split at h
        · rcases List.mem_cons.mp h with rfl | h
          · exact .inr (by simp)
          · exact (ih h).imp_right (List.mem_cons_of_mem z)
        · exact .inr h

/-- With a new key the element is added, and nothing else. -/
theorem mem_insert (hnew : ∀ z ∈ xs, key z ≠ key x) : y ∈ insert key x xs ↔ y = x ∨ y ∈ xs := by
  refine ⟨mem_of_mem_insert, ?_⟩
  induction xs with
  | nil => simp [insert]
  | cons z zs ih =>
      have hz := hnew z (by simp)
      have ih := ih fun w hw => hnew w (List.mem_cons_of_mem z hw)
      intro h
      rw [insert]
      split
      · exact List.mem_cons.mpr h
      · rw [if_pos (lt_of_le_of_ne (not_lt.mp ‹_›) hz)]
        rw [List.mem_cons] at h ⊢
        rcases h with h | h | h
        · exact .inr (ih (.inl h))
        · exact .inl h
        · exact .inr (ih (.inr h))

theorem Sorted.insert (h : Sorted key xs) : Sorted key (insert key x xs) := by
  induction xs with
  | nil => exact List.pairwise_singleton ..
  | cons z zs ih =>
      obtain ⟨hz, hzs⟩ := List.pairwise_cons.mp h
      rw [OrderedSet.insert]
      split
      · rename_i hlt
        refine List.pairwise_cons.mpr ⟨?_, h⟩
        intro w hw
        rcases List.mem_cons.mp hw with rfl | hw
        · exact hlt
        · exact lt_trans hlt (hz w hw)
      · split
        · rename_i hgt
          refine List.pairwise_cons.mpr ⟨?_, ih hzs⟩
          intro w hw
          rcases mem_of_mem_insert hw with rfl | hw
          · exact hgt
          · exact hz w hw
        · exact h

theorem Sorted.erase [DecidableEq α] (h : Sorted key xs) : Sorted key (xs.erase x) :=
  List.Pairwise.sublist List.erase_sublist h

theorem find_eq_some (h : find key k xs = some x) : x ∈ xs ∧ key x = k :=
  ⟨List.mem_of_find?_eq_some h, by simpa using List.find?_some h⟩

theorem find_eq_none (h : find key k xs = none) (hx : x ∈ xs) : key x ≠ k := by
  simpa using List.find?_eq_none.mp h x hx

/-- The first element of a kind is the least of its kind. -/
theorem find?_eq_some {p : α → Bool} (hs : Sorted key xs) (h : xs.find? p = some x) :
    x ∈ xs ∧ p x = true ∧ ∀ y ∈ xs, p y = true → key x ≤ key y := by
  induction xs with
  | nil => simp at h
  | cons z zs ih =>
      obtain ⟨hz, hzs⟩ := List.pairwise_cons.mp hs
      rw [List.find?_cons] at h
      split at h
      · obtain rfl := Option.some.inj h
        refine ⟨by simp, ‹_›, ?_⟩
        intro y hy _
        rcases List.mem_cons.mp hy with rfl | hy
        · exact le_refl _
        · exact le_of_lt (hz y hy)
      · rename_i hno
        obtain ⟨hmem, hpx, hleast⟩ := ih hzs h
        refine ⟨List.mem_cons_of_mem z hmem, hpx, ?_⟩
        intro y hy hpy
        rcases List.mem_cons.mp hy with rfl | hy
        · rw [hno] at hpy
          exact absurd hpy (by simp)
        · exact hleast y hy hpy

/-- The upper bound is the least of the elements with a greater key. -/
theorem upperBound_eq_some (hs : Sorted key xs) (h : upperBound key k xs = some x) :
    x ∈ xs ∧ k < key x ∧ ∀ y ∈ xs, k < key y → key x ≤ key y := by
  simpa using find?_eq_some hs h

theorem upperBound_eq_none (h : upperBound key k xs = none) (hx : x ∈ xs) : key x ≤ k := by
  simpa using List.find?_eq_none.mp h x hx

/-- A sorted part of a sorted list that leaves out nothing below its elements is a prefix. -/
theorem Sorted.isPrefix {ys : List α} (hx : Sorted key xs) (hy : Sorted key ys) (hsub : xs ⊆ ys)
    (hclosed : ∀ y ∈ ys, ∀ x ∈ xs, key y ≤ key x → y ∈ xs) : xs <+: ys := by
  induction xs generalizing ys with
  | nil => exact List.nil_prefix
  | cons x xs ih =>
      obtain ⟨hxlt, hxs⟩ := List.pairwise_cons.mp hx
      cases ys with
      | nil => exact absurd (hsub (List.mem_cons_self)) (by simp)
      | cons y ys =>
          obtain ⟨hylt, hys⟩ := List.pairwise_cons.mp hy
          have hyx : key y ≤ key x := by
            rcases List.mem_cons.mp (hsub List.mem_cons_self) with rfl | hmem
            · exact le_refl _
            · exact le_of_lt (hylt x hmem)
          have heq : y = x := by
            rcases List.mem_cons.mp (hclosed y List.mem_cons_self x List.mem_cons_self hyx)
              with heq | hmem
            · exact heq
            · exact absurd (hxlt y hmem) (not_lt.mpr hyx)
          subst heq
          refine List.cons_prefix_cons.mpr ⟨rfl, ih hxs hys ?_ ?_⟩
          · intro z hz
            rcases List.mem_cons.mp (hsub (List.mem_cons_of_mem y hz)) with rfl | hmem
            · exact absurd (hxlt z hz) (lt_irrefl _)
            · exact hmem
          · intro z hz w hw hle
            rcases List.mem_cons.mp (hclosed z (List.mem_cons_of_mem y hz) w
              (List.mem_cons_of_mem y hw) hle) with rfl | hmem
            · exact absurd (hylt z hz) (lt_irrefl _)
            · exact hmem

end OrderedSet
