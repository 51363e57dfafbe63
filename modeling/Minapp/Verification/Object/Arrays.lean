import Minapp.Model.ArrayHolder

/-! # Arrays in a holder

A length is used twice: to construct and destroy the elements, and to ask for the bytes they
are in. The first is an integer, the second is computed modulo `2 ^ 64`. -/

namespace Minapp

theorem le_alignUp (n : ℕ) {align : ℕ} (h : 0 < align) : n ≤ alignUp n align := by
  have hdiv := Nat.div_add_mod (n + (align - 1)) align
  have hmod := Nat.mod_lt (n + (align - 1)) h
  rw [alignUp, Nat.mul_comm]
  omega

theorem alignUp_le (n align : ℕ) : alignUp n align ≤ n + (align - 1) :=
  Nat.div_mul_le_self ..

namespace LengthArg

theorem toSize_lt (n : LengthArg) : n.toSize < 2 ^ 64 := by
  cases n with
  | size n => exact n.toNat_lt
  | ptrdiff n =>
      have := Int.emod_lt_of_pos n.toInt (show (0 : ℤ) < 2 ^ 64 by decide)
      simp only [toSize]
      omega

/-- A length that is positive once it is signed is the one that was given. -/
theorem value_eq (n : LengthArg) (h : 0 ≤ toPtrdiff n.toSize) :
    n.value = n.toSize ∧ toPtrdiff n.toSize = n.toSize ∧ n.toSize < 2 ^ 63 := by
  have hlt := n.toSize_lt
  rw [toPtrdiff] at h
  split at h
  · rename_i hsmall
    refine ⟨?_, if_pos hsmall, hsmall⟩
    cases n with
    | size n => rfl
    | ptrdiff n =>
        have hle := n.toInt_lt
        have hge := n.le_toInt
        simp only [toSize, value] at hsmall ⊢
        omega
  · omega

theorem value_eq_zero (n : LengthArg) : n.value = 0 ↔ n.toSize = 0 := by
  cases n with
  | size n => simp [value, toSize]
  | ptrdiff n =>
      have hle := n.toInt_lt
      have hge := n.le_toInt
      simp only [toSize, value]
      omega

end LengthArg

namespace ElementType

variable (T : ElementType)

/-! ## The bytes of a holder -/

/-- What a holder of one element takes, with the padding behind the element. -/
theorem le_holderSize : T.header + T.size ≤ holderSize T.size T.align :=
  le_alignUp _ (Nat.lt_of_lt_of_le (by decide) (Nat.le_max_left 8 T.align))

theorem holderSize_lt : holderSize T.size T.align < T.header + T.size + 2 ^ 64 := by
  have hle := alignUp_le (headerSize T.align + T.size) (max 8 T.align)
  have hfits := T.fits
  have hsize := T.le_holderSize
  have halign := T.align_le
  simp only [holderSize, header] at *
  omega

/-- The bytes that are asked for, when all products and sums fit. -/
def room (n : ℕ) : ℕ := holderSize T.size T.align + (n - 1) * T.size

theorem le_room {n : ℕ} (h : 0 < n) : T.header + n * T.size ≤ T.room n := by
  obtain ⟨k, rfl⟩ : ∃ k, n = k + 1 := ⟨n - 1, by omega⟩
  have := T.le_holderSize
  rw [room, Nat.add_sub_cancel, Nat.add_mul, Nat.one_mul]
  omega

theorem room_lt {n : ℕ} (h : 0 < n) : T.room n < T.header + n * T.size + 2 ^ 64 := by
  obtain ⟨k, rfl⟩ : ∃ k, n = k + 1 := ⟨n - 1, by omega⟩
  have := T.holderSize_lt
  rw [room, Nat.add_sub_cancel, Nat.add_mul, Nat.one_mul]
  omega

theorem request_eq {n : ℕ} (h : 0 < n) (hlt : n < 2 ^ 63) : T.request n = wrap (T.room n) := by
  have hn : (((n : ℤ) - 1) % 2 ^ 64).toNat = n - 1 := by omega
  rw [request, hn, wrap, wrap, wrap, room, Nat.add_mod_mod]

/-- Enough bytes are asked for as long as their number does not wrap. -/
theorem le_request_iff {n : ℕ} (h : 0 < n) (hlt : n < 2 ^ 63) :
    T.header + n * T.size ≤ T.request n ↔ T.room n < 2 ^ 64 := by
  have hle := T.le_room h
  have hroom := T.room_lt h
  rw [request_eq T h hlt, wrap]
  constructor
  · intro henough
    by_contra hwrap
    have hdiv := Nat.div_add_mod (T.room n) (2 ^ 64)
    have hpos : 1 ≤ T.room n / 2 ^ 64 := by omega
    omega
  · intro hfits
    rwa [Nat.mod_eq_of_lt hfits]

/-! ## The elements in the block -/

/-- Every region is in a block of so many bytes. -/
def Inside (bytes : ℕ) (regions : List Region) : Prop :=
  ∀ r ∈ regions, r.offset + r.length ≤ bytes

/-- The elements of an array of `n`. -/
def elements (n : ℕ) : List Region := (List.range n).map T.element

theorem constructed_eq {n : ℕ} (h : 0 < n) : T.constructed n = T.elements n := by
  obtain ⟨k, rfl⟩ : ∃ k, n = k + 1 := ⟨n - 1, by omega⟩
  have hk : (((k + 1 : ℕ) : ℤ) - 1).toNat = k := by omega
  rw [constructed, elements, hk, List.range_succ_eq_map, List.map_cons, List.map_map]
  rfl

/-- What is destroyed is what was constructed. -/
theorem destroyed_perm {h : ArrayHolder} {n : ℕ} (hn : h.n = n) (hpos : 0 < n) :
    (T.destroyed h).Perm (T.elements n) := by
  rw [← T.constructed_eq hpos, destroyed, hn, constructed]
  exact List.perm_append_comm

/-- The elements end where the last one does. -/
theorem inside_elements {n bytes : ℕ} (h : T.header + n * T.size ≤ bytes) :
    Inside bytes (T.elements n) := by
  intro r hr
  obtain ⟨i, hi, rfl⟩ := List.mem_map.mp hr
  have hle : (i + 1) * T.size ≤ n * T.size :=
    Nat.mul_le_mul_right _ (List.mem_range.mp hi)
  rw [Nat.add_mul, Nat.one_mul] at hle
  simp only [element]
  omega

/-- The members of a `vec` describe an array of `n` elements. -/
structure Describes (p : Option ArrayHolder) (n : ℕ) : Prop where
  size_eq : vecSize p = n
  data_eq : T.vecData p = if n = 0 then none else some T.header
  begin_eq : T.vecBegin p = T.vecData p
  end_eq : T.vecEnd p = (T.vecData p).map (· + n * T.size)
  at_eq : ∀ i, T.vecAt p i = if i < n then .ok (T.element i) else .error .outOfRange

theorem describes_none : T.Describes none 0 := by
  refine ⟨rfl, rfl, rfl, rfl, ?_⟩
  intro i
  rw [if_neg (Nat.not_lt_zero i), vecAt]
  exact if_pos (Nat.zero_le i)

theorem describes_some {h : ArrayHolder} {n : ℕ} (hn : h.n = n) (hpos : 0 < n)
    (hlt : n < 2 ^ 63) : T.Describes (some h) n := by
  have hsize : vecSize (some h) = n := by
    rw [vecSize, hn]
    omega
  refine ⟨hsize, (if_neg (by omega)).symm, rfl, ?_, ?_⟩
  · rw [vecEnd, Option.map_some, hn]
    rfl
  · intro i
    rw [vecAt, hsize]
    by_cases hi : i < n
    · rw [if_neg (by omega), if_pos hi]
    · rw [if_pos (by omega), if_neg hi]

/-- A call with length `n` and what it has come to: it has failed and left its target, or the
vector is empty, or the block has room for the header and the elements. Then all accesses are
inside the block, and unless the constructor of an element has thrown, the target describes
the elements constructed. -/
inductive Sound (before : Option ArrayHolder) (n : ℤ) (r : ArrayResult) : Prop where
  | refused (outcome : r.outcome = .error .badArrayNewLength ∨ r.outcome = .error .badAlloc)
      (target : r.target = before)
  | empty (zero : n = 0) (outcome : r.outcome = .ok ()) (requested : r.requested = none)
      (target : T.Describes r.target 0)
  | allocated (bytes : ℕ) (requested : r.requested = some bytes)
      (enough : T.header + n * T.size ≤ bytes)
      (touched : Inside bytes r.touched)
      (settled : (r.outcome = .error .thrown ∧ r.target = before) ∨
        (r.outcome = .ok () ∧ T.Describes r.target n.toNat ∧ T.elements n.toNat ⊆ r.touched ∧
          ∀ h ∈ r.target, Inside bytes (T.destroyed h)))

variable {operatorNew : ℕ → Bool} {throws : Option ℕ} {before : Option ArrayHolder}

variable (throws before) in
theorem emplace_refused {n : ℤ} (h : n < 1 ∨ operatorNew (T.request n) = false) :
    ((T.emplace operatorNew throws n before).outcome = .error .badArrayNewLength ∨
      (T.emplace operatorNew throws n before).outcome = .error .badAlloc) ∧
    (T.emplace operatorNew throws n before).target = before := by
  rw [emplace]
  split
  · exact ⟨.inl rfl, rfl⟩
  · rename_i hpos
    have hnew := h.resolve_left hpos
    simp [hnew]

variable (throws before) in
/-- The call that was not refused. -/
theorem emplace_allocated {n : ℕ} (h : 0 < n) (hnew : operatorNew (T.request n) = true) :
    (T.emplace operatorNew throws n before).requested = some (T.request n) ∧
    (((T.emplace operatorNew throws n before).outcome = .error .thrown ∧
        (T.emplace operatorNew throws n before).target = before ∧
        (T.emplace operatorNew throws n before).touched ⊆ T.elements n) ∨
      ((T.emplace operatorNew throws n before).outcome = .ok () ∧
        (T.emplace operatorNew throws n before).target = some ⟨n, T.request n⟩ ∧
        (T.emplace operatorNew throws n before).touched = T.elements n)) := by
  rw [emplace, if_neg (by omega)]
  simp only [hnew, if_true]
  split
  · refine ⟨rfl, .inl ⟨rfl, rfl, ?_⟩⟩
    simp only [T.constructed_eq h]
    exact List.take_subset _ _
  · exact ⟨rfl, .inr ⟨rfl, rfl, T.constructed_eq h⟩⟩

/-- The call does what it should as long as the number of bytes does not wrap. -/
theorem emplace_sound {n : ℤ} (hlt : n < 2 ^ 63)
    (h : n < 1 ∨ operatorNew (T.request n) = false ∨ T.room n.toNat < 2 ^ 64) :
    T.Sound before n (T.emplace operatorNew throws n before) := by
  by_cases hrefused : n < 1 ∨ operatorNew (T.request n) = false
  · obtain ⟨houtcome, htarget⟩ := T.emplace_refused throws before hrefused
    exact .refused houtcome htarget
  · obtain ⟨k, rfl⟩ : ∃ k : ℕ, n = k := ⟨n.toNat, by omega⟩
    have hpos : 0 < k := by omega
    have hnew : operatorNew (T.request k) = true := by
      simpa using fun hnew => hrefused (.inr hnew)
    have hroom : T.room k < 2 ^ 64 := by
      rcases h with h | h | h
      · omega
      · exact absurd (.inr h) hrefused
      · exact h
    have hbytes : T.header + k * T.size ≤ T.request k :=
      (T.le_request_iff hpos (by omega)).mpr hroom
    have hinside := T.inside_elements hbytes
    obtain ⟨hrequested, hcase⟩ := T.emplace_allocated throws before hpos hnew
    refine .allocated _ hrequested (by exact_mod_cast hbytes) ?_ ?_
    · rcases hcase with ⟨-, -, htouched⟩ | ⟨-, -, htouched⟩
      · exact fun r hr => hinside r (htouched hr)
      · rwa [htouched]
    · rcases hcase with ⟨houtcome, htarget, -⟩ | ⟨houtcome, htarget, htouched⟩
      · exact .inl ⟨houtcome, htarget⟩
      · rw [Int.toNat_natCast]
        refine .inr ⟨houtcome, ?_, htouched ▸ List.Subset.refl _, ?_⟩
        · rw [htarget]
          exact T.describes_some rfl hpos (by omega)
        · intro h hh
          obtain rfl := Option.some.inj (htarget.symm.trans hh)
          intro r hr
          exact hinside r ((T.destroyed_perm rfl hpos).subset hr)

/-- The elements that were constructed have room for as many to be copied to them. -/
theorem Sound.copied {n : ℕ} {r : ArrayResult} (h : T.Sound before n r) (hpos : 0 < n)
    (hok : r.outcome = .ok ()) :
    T.Sound before n { r with touched := r.touched ++ [⟨T.header, wrap (n * T.size)⟩] } := by
  cases h with
  | refused outcome target => simp [hok] at outcome
  | empty zero outcome requested target => omega
  | allocated bytes requested enough touched settled =>
      refine .allocated bytes requested enough ?_ ?_
      · intro region hregion
        rcases List.mem_append.mp hregion with hregion | hregion
        · exact touched region hregion
        · obtain rfl := List.mem_singleton.mp hregion
          have : wrap (n * T.size) ≤ n * T.size := Nat.mod_le _ _
          have : T.header + n * T.size ≤ bytes := by exact_mod_cast enough
          simp only
          omega
      · rcases settled with ⟨houtcome, -⟩ | ⟨houtcome, htarget, hsubset, hdestroyed⟩
        · simp [hok] at houtcome
        · exact .inr ⟨houtcome, htarget, List.subset_append_of_subset_left _ hsubset, hdestroyed⟩

/-- A call that was not refused has got enough bytes. -/
theorem Sound.fits {n : ℕ} {r : ArrayResult} (h : T.Sound before n r) (hpos : 0 < n)
    (hlt : n < 2 ^ 63) (hrequested : r.requested = some (T.request n))
    (houtcome : r.outcome = .error .thrown ∨ r.outcome = .ok ()) : T.room n < 2 ^ 64 := by
  cases h with
  | refused outcome target =>
      rcases houtcome with houtcome | houtcome <;> simp [houtcome] at outcome
  | empty zero outcome requested target => omega
  | allocated bytes requested enough touched settled =>
      obtain rfl := Option.some.inj (requested.symm.trans hrequested)
      exact (T.le_request_iff hpos hlt).mp (by exact_mod_cast enough)

end ElementType

/-! ## The calls -/

namespace ArrayCall

variable {T : ElementType} {operatorNew : ℕ → Bool} {throws : Option ℕ}
  {target : Option ArrayHolder} {n : LengthArg}

variable (T operatorNew throws target) in
/-- What a call asks for and comes to is as `emplace` does, if the length is positive. -/
theorem perform_as_emplace (c : ArrayCall) (h : 0 < toPtrdiff n.toSize) :
    (c.perform T operatorNew throws n target).requested =
        (T.emplace operatorNew throws n.toSize (c.before target)).requested ∧
      (c.perform T operatorNew throws n target).outcome =
        (T.emplace operatorNew throws n.toSize (c.before target)).outcome := by
  obtain ⟨-, hn, hlt⟩ := n.value_eq (Int.le_of_lt h)
  have hzero : n.toSize ≠ 0 := by omega
  cases c with
  | vec => simp only [perform, ElementType.vec, if_pos hzero, hn, before, and_self]
  | vecEmplace =>
      rw [perform, ElementType.vecEmplace, hn, if_pos (by omega)]
      exact ⟨rfl, rfl⟩
  | emplace => simp only [perform, hn, before, and_self]
  | persist =>
      rw [perform, ElementType.persist, hn, before]
      generalize T.emplace operatorNew throws n.toSize none = r
      cases hr : r.outcome with
      | error e => exact ⟨rfl, hr⟩
      | ok u => exact ⟨rfl, by simp⟩

variable (T operatorNew throws target) in
/-- A length that is accepted is paid for with the bytes that are asked for. -/
theorem perform_allocated (c : ArrayCall) (h : 0 < toPtrdiff n.toSize)
    (hnew : operatorNew (T.request n.toSize) = true) :
    (c.perform T operatorNew throws n target).requested = some (T.request n.toSize) ∧
      ((c.perform T operatorNew throws n target).outcome = .error .thrown ∨
        (c.perform T operatorNew throws n target).outcome = .ok ()) := by
  obtain ⟨-, hn, -⟩ := n.value_eq (Int.le_of_lt h)
  obtain ⟨hrequested, houtcome⟩ := c.perform_as_emplace T operatorNew throws target h
  obtain ⟨hbytes, hcase⟩ := T.emplace_allocated throws (c.before target) (by omega) hnew
  rw [houtcome, hrequested]
  exact ⟨hbytes, hcase.imp (·.1) (·.1)⟩

theorem perform_sound (c : ArrayCall) (h : 0 < toPtrdiff n.toSize)
    (hsound : T.Sound (c.before target) n.toSize
      (T.emplace operatorNew throws n.toSize (c.before target))) :
    T.Sound (c.before target) n.toSize (c.perform T operatorNew throws n target) := by
  obtain ⟨-, hn, hlt⟩ := n.value_eq (Int.le_of_lt h)
  have hzero : n.toSize ≠ 0 := by omega
  cases c with
  | vec => rwa [perform, ElementType.vec, if_pos hzero, hn]
  | vecEmplace => rwa [perform, ElementType.vecEmplace, hn, if_pos (by omega)]
  | emplace => rwa [perform, hn]
  | persist =>
      rw [perform, ElementType.persist, hn]
      rw [before] at hsound ⊢
      generalize T.emplace operatorNew throws n.toSize none = r at hsound ⊢
      cases hr : r.outcome with
      | error e => simpa [hr] using hsound
      | ok u => simpa [hr] using hsound.copied T (by omega) hr

/-- Lengths that are not positive are refused, or make an empty vector. -/
theorem perform_of_nonpos (c : ArrayCall) (h : toPtrdiff n.toSize < 1) :
    T.Sound (c.before target) n.value (c.perform T operatorNew throws n target) := by
  have hrefused : ∀ before, T.Sound before n.value
      (T.emplace operatorNew throws (toPtrdiff n.toSize) before) := by
    intro before
    rw [ElementType.emplace, if_pos h]
    exact .refused (.inl rfl) rfl
  have hempty : n.toSize = 0 → T.Sound (c.before target) n.value
      { outcome := .ok (), target := none } := by
    intro hzero
    exact .empty (n.value_eq_zero.mpr hzero) rfl rfl T.describes_none
  cases c with
  | vec =>
      rw [perform, ElementType.vec]
      split
      · exact hrefused _
      · rename_i hzero
        exact hempty (not_not.mp hzero)
  | vecEmplace =>
      rw [perform, ElementType.vecEmplace]
      split
      · exact hrefused _
      · rename_i hzero
        refine hempty ?_
        have := n.toSize_lt
        rw [toPtrdiff] at hzero
        split at hzero <;> omega
  | emplace => exact hrefused _
  | persist =>
      have := hrefused none
      rw [ElementType.emplace, if_pos h] at this
      rw [perform, ElementType.persist, ElementType.emplace, if_pos h]
      exact this

/-- A call asks for less than it constructs exactly if the length is accepted, the number of
bytes wraps, and so many are to be had. -/
theorem sound_iff (T : ElementType) (operatorNew : ℕ → Bool) (throws : Option ℕ) (c : ArrayCall)
    (n : LengthArg) (target : Option ArrayHolder) :
    T.Sound (c.before target) n.value (c.perform T operatorNew throws n target) ↔
      toPtrdiff n.toSize < 1 ∨ operatorNew (wrap (T.room n.toSize)) = false ∨
        T.room n.toSize < 2 ^ 64 := by
  by_cases hpos : toPtrdiff n.toSize < 1
  · exact ⟨fun _ => .inl hpos, fun _ => c.perform_of_nonpos hpos⟩
  · obtain ⟨hvalue, hn, hlt⟩ := n.value_eq (by omega)
    have hpos' : 0 < toPtrdiff n.toSize := by omega
    have hrequest := T.request_eq (show 0 < n.toSize by omega) hlt
    rw [hvalue, ← hrequest]
    constructor
    · intro hsound
      by_cases hnew : operatorNew (T.request n.toSize) = true
      · obtain ⟨hrequested, houtcome⟩ := c.perform_allocated T operatorNew throws target hpos' hnew
        exact .inr (.inr (hsound.fits T (by omega) hlt hrequested houtcome))
      · exact .inr (.inl (by simpa using hnew))
    · intro h
      refine c.perform_sound hpos' (T.emplace_sound (by exact_mod_cast hlt) ?_)
      rw [Int.toNat_natCast]
      exact h.imp (fun h => by omega) id

/-- Two words. -/
def pairType : ElementType where
  size := 16
  align := 8
  size_pos := by decide
  align_pos := by decide
  align_le := by decide
  fits := by decide

/-- The bytes of `2 ^ 60 + 1` elements of two words wrap to those of one. -/
theorem vec_unsound :
    ¬ pairType.Sound none 1152921504606846977
      (vec.perform pairType (fun bytes => decide (bytes ≤ 40)) none
        (.size 1152921504606846977) none) := by
  intro h
  let operatorNew : ℕ → Bool := fun bytes => decide (bytes ≤ 40)
  have hpos : 0 < toPtrdiff (LengthArg.size 1152921504606846977).toSize := by decide
  have hnew : operatorNew (pairType.request (LengthArg.size 1152921504606846977).toSize) = true :=
    by decide
  obtain ⟨hrequested, houtcome⟩ :=
    perform_allocated pairType operatorNew none none vec hpos hnew
  have hfits : pairType.room 1152921504606846977 < 2 ^ 64 :=
    h.fits pairType (by decide) (by decide) hrequested houtcome
  revert hfits
  decide

end ArrayCall

end Minapp
