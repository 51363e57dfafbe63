import Mathlib.Data.List.Basic
import Mathlib.Logic.Function.Basic

/-! Memory as blocks of cells: spans of a block are read, and blocks are allocated and
copied to. -/

/-- The cells of each allocated block. -/
abbrev Memory (ι κ : Type*) := ι → Option (List κ)

/-- The `size` cells of a block from an offset on; no block is the null pointer. -/
structure Span (ι : Type*) where
  block : Option ι := none
  offset : ℕ := 0
  size : ℕ := 0
  deriving DecidableEq, Repr

/-- The first cells of a span, at most `n`. -/
def Span.limit {ι : Type*} (r : Span ι) (n : ℕ) : Span ι := { r with size := min r.size n }

namespace Memory

variable {ι κ : Type*} (m : Memory ι κ)

/-- The cells of a span, all inside one block. An empty span can be anywhere. -/
def read (r : Span ι) : Option (List κ) :=
  if r.size = 0 then some []
  else
    (r.block.bind m).bind fun cells =>
      if r.offset + r.size ≤ cells.length then some ((cells.drop r.offset).take r.size) else none

variable [DecidableEq ι]

/-- The block has new cells. -/
def store (i : ι) (cells : List κ) : Memory ι κ := Function.update m i (some cells)

/-- Copies the cells of a span to the beginning of a block that has room for them. -/
def copy (i : ι) (src : Span ι) : Option (Memory ι κ) :=
  (m.read src).bind fun cells => (m i).bind fun old =>
    if cells.length ≤ old.length then some (m.store i (cells ++ old.drop cells.length)) else none

variable {m} {i j : ι} {r : Span ι} {cells : List κ}

@[simp] theorem store_self (i : ι) (cells : List κ) : m.store i cells i = some cells :=
  Function.update_self ..

theorem store_of_ne (h : j ≠ i) (cells : List κ) : m.store i cells j = m j :=
  Function.update_of_ne h ..

@[simp] theorem store_store (i : ι) (cells cells' : List κ) :
    (m.store i cells).store i cells' = m.store i cells' :=
  Function.update_idem ..

omit [DecidableEq ι] in
/-- Reading only depends on the block that is read. -/
theorem read_congr {m' : Memory ι κ} (h : ∀ i, r.block = some i → m' i = m i) :
    m'.read r = m.read r := by
  rw [read, read]
  cases hb : r.block with
  | none => rfl
  | some i => rw [Option.bind_some, Option.bind_some, h i hb]

theorem read_store_of_ne (h : r.block ≠ some i) (cells : List κ) :
    (m.store i cells).read r = m.read r := by
  refine read_congr fun j hj => store_of_ne ?_ cells
  rintro rfl
  exact h hj

omit [DecidableEq ι] in
theorem read_eq_some (h : m.read r = some cells) :
    cells.length = r.size ∧ (r.size = 0 ∨ ∃ i block, r.block = some i ∧ m i = some block ∧
      r.offset + r.size ≤ block.length ∧ cells = (block.drop r.offset).take r.size) := by
  rw [read] at h
  split at h
  · rename_i hz
    obtain rfl := Option.some.inj h
    exact ⟨hz.symm, .inl hz⟩
  · obtain ⟨block, hblock, h⟩ := Option.bind_eq_some_iff.mp h
    obtain ⟨i, hi, hm⟩ := Option.bind_eq_some_iff.mp hblock
    split at h
    · rename_i hle
      obtain rfl := Option.some.inj h
      refine ⟨?_, .inr ⟨i, block, hi, hm, hle, rfl⟩⟩
      simp only [List.length_take, List.length_drop]
      omega
    · exact absurd h (by simp)

omit [DecidableEq ι] in
/-- A limited span has the first of the cells. -/
theorem read_limit (h : m.read r = some cells) (n : ℕ) :
    m.read (r.limit n) = some (cells.take n) := by
  obtain ⟨hlen, hz | ⟨i, block, hi, hm, hle, rfl⟩⟩ := read_eq_some h
  · have hnil : cells = [] := List.eq_nil_of_length_eq_zero (hlen.trans hz)
    rw [read, Span.limit, if_pos (by simp only; omega), hnil, List.take_nil]
  · rw [read, Span.limit]
    split
    · rename_i hz
      have hz : min r.size n = 0 := hz
      rw [List.take_take, Nat.min_comm, hz, List.take_zero]
    · simp only [hi, hm, Option.bind_some]
      rw [if_pos (by omega), List.take_take, Nat.min_comm]

omit [DecidableEq ι] in
theorem read_whole (h : m i = some cells) : m.read ⟨some i, 0, cells.length⟩ = some cells := by
  rw [read]
  split
  · rename_i hz
    exact congrArg some (List.eq_nil_of_length_eq_zero hz).symm
  · simp only [Option.bind_some, h, Nat.zero_add, Nat.le_refl, if_true, List.drop_zero,
      List.take_length]

/-- What a block begins with. -/
theorem read_store_begin {n : ℕ} (h : n ≤ cells.length) :
    (m.store i cells).read ⟨some i, 0, n⟩ = some (cells.take n) := by
  have hlimit := read_limit (read_whole (store_self (m := m) i cells)) n
  rwa [Span.limit, Nat.min_eq_right h] at hlimit

/-- A block as long as the cells copied to it has those cells. -/
theorem copy_eq {old : List κ} (h : m.read r = some cells) (hi : m i = some old)
    (hlen : old.length = cells.length) : m.copy i r = some (m.store i cells) := by
  rw [copy, h, Option.bind_some, hi, Option.bind_some, if_pos (Nat.le_of_eq hlen.symm),
    List.drop_of_length_le (Nat.le_of_eq hlen), List.append_nil]

end Memory
