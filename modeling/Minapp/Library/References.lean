import Mathlib.Algebra.BigOperators.Group.Finset.Piecewise
import Mathlib.Algebra.Order.BigOperators.Group.Finset
import Mathlib.Data.Fintype.Basic

/-! References counted over a finite family of owners, each of which has a list of them, and
over a finite set of variables, each of which has at most one. -/

section Owners

variable {α κ ρ : Type*} [Fintype α] [BEq ρ]

/-- How many references to `p` the owners have together. -/
def references (f : α → List ρ) (p : ρ) : ℕ := ∑ a, (f a).count p

theorem count_le_references (f : α → List ρ) (a : α) (p : ρ) : (f a).count p ≤ references f p :=
  Finset.single_le_sum (f := fun a => (f a).count p) (fun _ _ => Nat.zero_le _)
    (Finset.mem_univ a)

theorem references_pos [LawfulBEq ρ] {f : α → List ρ} {a : α} {p : ρ} (h : p ∈ f a) :
    0 < references f p :=
  Nat.lt_of_lt_of_le (List.count_pos_iff.mpr h) (count_le_references f a p)

/-- One owner changes: what it has lost is gone, and what it has got is added. -/
theorem references_update [DecidableEq α] (f : α → κ) (g : κ → List ρ) (a : α) (k : κ) (p : ρ) :
    references (fun b => g (Function.update f a k b)) p + (g (f a)).count p =
      references (fun b => g (f b)) p + (g k).count p := by
  have hrest : ∑ b ∈ Finset.univ.erase a, (g (Function.update f a k b)).count p =
      ∑ b ∈ Finset.univ.erase a, (g (f b)).count p :=
    Finset.sum_congr rfl fun b hb => by rw [Function.update_of_ne (Finset.ne_of_mem_erase hb)]
  rw [references, references, ← Finset.add_sum_erase _ _ (Finset.mem_univ a),
    ← Finset.add_sum_erase _ (fun b => (g (f b)).count p) (Finset.mem_univ a), hrest,
    Function.update_self]
  omega

end Owners

section Variables

variable {V A : Type*} [DecidableEq A]

/-- One for the object a handle designates, and zero for any other. -/
def designates (h : Option A) (a : A) : ℕ := if h = some a then 1 else 0

/-- How many of the variables designate an object. -/
def designations (vars : Finset V) (p : V → Option A) (a : A) : ℕ :=
  (vars.filter fun v => p v = some a).card

@[simp] theorem designates_none (a : A) : designates none a = 0 := if_neg (by simp)

@[simp] theorem designates_self (a : A) : designates (some a) a = 1 := if_pos rfl

theorem designates_of_ne {h : Option A} {a : A} (hne : h ≠ some a) : designates h a = 0 :=
  if_neg hne

variable {vars : Finset V} {p : V → Option A} {x : V}

theorem designations_pos {a : A} (hx : x ∈ vars) (hp : p x = some a) :
    0 < designations vars p a :=
  Finset.card_pos.mpr ⟨x, Finset.mem_filter.mpr ⟨hx, hp⟩⟩

variable [DecidableEq V]

theorem designations_erase (hx : x ∈ vars) (a : A) :
    designations (vars.erase x) p a + designates (p x) a = designations vars p a := by
  rw [designations, designations, Finset.card_filter, Finset.card_filter, designates,
    Finset.sum_erase_add _ _ hx]

theorem designations_update_of_notMem (hx : x ∉ vars) (h : Option A) (a : A) :
    designations vars (Function.update p x h) a = designations vars p a := by
  refine congrArg Finset.card (Finset.filter_congr fun v hv => ?_)
  have hne : v ≠ x := by
    rintro rfl
    exact hx hv
  rw [Function.update_of_ne hne]

/-- A variable begins its life. -/
theorem designations_insert (hx : x ∉ vars) (h : Option A) (a : A) :
    designations (insert x vars) (Function.update p x h) a =
      designations vars p a + designates h a := by
  have herase := designations_erase (p := Function.update p x h) (Finset.mem_insert_self x vars) a
  rw [Finset.erase_insert hx, Function.update_self, designations_update_of_notMem hx] at herase
  exact herase.symm

/-- A variable is assigned: what it designated loses it, and what it designates gets it. -/
theorem designations_update (hx : x ∈ vars) (h : Option A) (a : A) :
    designations vars (Function.update p x h) a + designates (p x) a =
      designations vars p a + designates h a := by
  have hbefore := designations_erase (p := p) hx a
  have hafter := designations_erase (p := Function.update p x h) hx a
  rw [Function.update_self, designations_update_of_notMem (Finset.notMem_erase x vars)] at hafter
  omega

end Variables
