import Minapp.Model.Object
import Minapp.Library.References
import Mathlib.Algebra.Ring.Int.Defs
import Mathlib.Data.List.Count

/-! # Reference counts

Every operation on `object` variables is made of a few steps: a handle is copied, a handle
is dropped, a variable begins or is assigned. Each changes the counts and the number of
handles together, up to the handles that are on the way from one variable to another. -/

namespace Minapp

namespace ObjectState

variable {A V τ : Type*} [DecidableEq A]

/-- The number of variables that designate a holder, and of its handles released and not
adopted again. -/
def number (s : ObjectState A V τ) (a : A) : ℕ := designations s.vars s.p a + s.released.count a

/-- A holder is alive as long as there are handles to it, and counts them. -/
def Counts (holder : Option (Holder τ)) (n : ℤ) : Prop :=
  match holder with
  | none => n = 0
  | some holder => 0 < n ∧ holder.refcount = n

/-- The counts are exact, if `d a` handles to `a` are neither in a variable nor released; a
negative `d a` is of handles in two places. -/
def Exact (s : ObjectState A V τ) (d : A → ℤ) : Prop := ∀ a, Counts (s.holders a) (s.number a + d a)

/-- The variables and the released handles are the same. -/
structure SameHandles (s t : ObjectState A V τ) : Prop where
  vars : t.vars = s.vars
  p : t.p = s.p
  released : t.released = s.released

variable {s t : ObjectState A V τ} {d d' : A → ℤ} {x y : V} {g : Option A} {a : A}

theorem Exact.congr (h : s.Exact d) (heq : ∀ a, d a = d' a) : s.Exact d' := by
  intro a
  rw [← heq a]
  exact h a

/-! ## The steps -/

theorem number_pos (hy : y ∈ s.vars) (hp : s.p y = some a) : 0 < s.number a :=
  Nat.add_pos_left (designations_pos hy hp) _

theorem Exact.hand (h : s.Exact d) (g : Option A) :
    Exact { s with released := g.toList ++ s.released } fun a => d a - designates g a := by
  intro a
  have hnumber : number { s with released := g.toList ++ s.released } a =
      s.number a + designates g a := by
    cases g with
    | none => rfl
    | some b =>
        simp only [number, Option.toList_some, List.singleton_append, List.count_cons, designates,
          Option.some.injEq, beq_iff_eq]
        omega
  have := h a
  rw [show (s.number a + d a : ℤ) =
    number { s with released := g.toList ++ s.released } a + (d a - designates g a) by
      omega] at this
  exact this

theorem Exact.take (h : s.Exact d) (hg : ∀ a ∈ g, a ∈ s.released) :
    Exact { s with released := g.elim s.released s.released.erase } fun a =>
      d a + designates g a := by
  intro a
  have hnumber : number { s with released := g.elim s.released s.released.erase } a +
      designates g a = s.number a := by
    cases g with
    | none => rfl
    | some b =>
        simp only [number, Option.elim_some, List.count_erase, designates, Option.some.injEq,
          beq_iff_eq]
        by_cases hb : b = a
        · subst hb
          have := List.count_pos_iff.mpr (hg b rfl)
          simp only [if_true]
          omega
        · simp [hb]
  have := h a
  rw [show (s.number a + d a : ℤ) =
    number { s with released := g.elim s.released s.released.erase } a +
      (d a + designates g a) by omega] at this
  exact this

/-- A count changes by as much as the number of handles on the way. -/
theorem Exact.setHolder (h : s.Exact d) {holder : Option (Holder τ)}
    (hcounts : Counts holder (s.number a + d' a)) (hsame : ∀ b, b ≠ a → d' b = d b) :
    (s.setHolder a holder).Exact d' := by
  intro b
  by_cases hab : b = a
  · subst hab
    rw [show (s.setHolder b holder).holders b = holder from Function.update_self ..]
    exact hcounts
  · rw [show (s.setHolder a holder).holders b = s.holders b from Function.update_of_ne hab ..,
      hsame b hab]
    exact h b

theorem designates_of_ne_self {b : A} (hab : b ≠ a) : designates (some a) b = 0 :=
  designates_of_ne fun h => hab (Option.some.inj h).symm

theorem Exact.create (h : s.Exact d) (ha : s.holders a = none) (type : τ) :
    (s.create a type).Exact fun b => d b + designates (some a) b := by
  have hzero := h a
  rw [ha] at hzero
  have hzero : (s.number a + d a : ℤ) = 0 := hzero
  refine h.setHolder ?_ fun b hab => by simp [designates_of_ne_self hab]
  simp only [Counts, designates_self]
  constructor <;> omega

/-- A holder with handles on the way is alive. -/
theorem Exact.exists_holder (h : s.Exact d) (hpos : 0 < s.number a + d a) :
    ∃ holder, s.holders a = some holder ∧ holder.refcount = s.number a + d a := by
  have hcounts := h a
  cases ha : s.holders a with
  | none =>
      rw [ha] at hcounts
      exact absurd hcounts (by simp only [Counts]; omega)
  | some holder =>
      rw [ha] at hcounts
      exact ⟨holder, rfl, hcounts.2⟩

/-- A handle to a holder alive is copied. -/
theorem Exact.copyHandle (h : s.Exact d) (hg : ∀ a, g = some a → 0 < s.number a + d a) :
    ∃ t, s.copyHandle g = some t ∧ (t.Exact fun a => d a + designates g a) ∧ SameHandles s t := by
  cases g with
  | none => exact ⟨s, rfl, h.congr (by simp), rfl, rfl, rfl⟩
  | some a =>
      have hpos := hg a rfl
      obtain ⟨holder, ha, hcount⟩ := h.exists_holder hpos
      refine ⟨s.setHolder a (some { holder with refcount := 1 + holder.refcount }), ?_,
        h.setHolder ?_ fun b hab => by simp [designates_of_ne_self hab], rfl, rfl, rfl⟩
      · rw [ObjectState.copyHandle, addref, ha]
        rfl
      · simp only [Counts, designates_self]
        constructor <;> omega

/-- A handle on the way is dropped, and its holder deleted if there is no other. -/
theorem Exact.destruct (h : s.Exact d) (hg : ∀ a, g = some a → 0 < d a) :
    ∃ t, s.destruct g = some t ∧ (t.Exact fun a => d a - designates g a) ∧ SameHandles s t := by
  cases g with
  | none => exact ⟨s, rfl, h.congr (by simp), rfl, rfl, rfl⟩
  | some a =>
      have hpos := hg a rfl
      obtain ⟨holder, ha, hcount⟩ := h.exists_holder (a := a) (by omega)
      have hdestruct : s.destruct (some a) = some
          (if -1 + holder.refcount = 0 then
            (s.setHolder a (some { holder with refcount := -1 + holder.refcount })).delete a
          else s.setHolder a (some { holder with refcount := -1 + holder.refcount })) := by
        rw [ObjectState.destruct, drop, addref, ha]
        rfl
      rw [hdestruct]
      split
      · -- the last handle
        refine ⟨_, rfl, ?_, rfl, rfl, rfl⟩
        rw [delete, ObjectState.setHolder, ObjectState.setHolder, Function.update_idem]
        refine h.setHolder ?_ fun b hab => by simp [designates_of_ne_self hab]
        simp only [Counts, designates_self]
        omega
      · refine ⟨_, rfl, h.setHolder ?_ fun b hab => by simp [designates_of_ne_self hab],
          rfl, rfl, rfl⟩
        simp only [Counts, designates_self]
        constructor <;> omega

/-- A holder designated by a variable is alive, as long as no handle is in two places. -/
theorem Exact.copyVariable (h : s.Exact d) (hd : ∀ a, 0 ≤ d a) (hy : y ∈ s.vars) :
    ∃ t, s.copyHandle (s.p y) = some t ∧ (t.Exact fun a => d a + designates (s.p y) a) ∧
      SameHandles s t := by
  apply h.copyHandle
  intro a ha
  have hnumber := number_pos hy ha
  have := hd a
  omega

/-- What a variable has designated is dropped once it is assigned or destroyed. -/
theorem Exact.destructOld (h : s.Exact fun a => designates g a) :
    ∃ t, s.destruct g = some t ∧ t.Exact 0 := by
  obtain ⟨t, ht, hdropped, -⟩ := h.destruct (g := g) (by
    rintro a rfl
    simp)
  exact ⟨t, ht, hdropped.congr fun a => Int.sub_self _⟩

/-- A holder is deleted with the only handle to it. -/
theorem destruct_create {type : τ} (ha : s.holders a = none) :
    (s.create a type).destruct (some a) = some s := by
  have hcreated : (s.create a type).holders a = some { type } := Function.update_self ..
  have hrestored : Function.update s.holders a none = s.holders := by
    rw [← ha]
    exact Function.update_eq_self a s.holders
  rw [ObjectState.destruct, drop, addref, hcreated]
  simp [create, delete, ObjectState.setHolder, hrestored]

/-- An outcome with exact counts, in which what throws has changed nothing. -/
def Sound (s : ObjectState A V τ) (o : Outcome A V τ) : Prop :=
  ∃ r t, o = some (r, t) ∧ t.Exact 0 ∧ ∀ e, r = .error e → t = s

theorem sound_of_exact {o : Option (ObjectState A V τ)} (h : ∃ t, o = some t ∧ t.Exact 0) :
    s.Sound (o.map (.ok (), ·)) := by
  obtain ⟨t, rfl, ht⟩ := h
  exact ⟨_, t, rfl, ht, by simp⟩

theorem sound_error (h : s.Exact 0) (e : ObjectError) : s.Sound (some (.error e, s)) :=
  ⟨_, s, rfl, h, fun _ _ => rfl⟩

variable [DecidableEq V]

theorem Exact.construct (h : s.Exact d) (hx : x ∉ s.vars) (g : Option A) :
    (s.construct x g).Exact fun a => d a - designates g a := by
  intro a
  have hnumber : (s.construct x g).number a = s.number a + designates g a := by
    have := designations_insert (p := s.p) hx g a
    simp only [number, ObjectState.construct]
    omega
  have := h a
  rw [show (s.number a + d a : ℤ) = (s.construct x g).number a + (d a - designates g a) by
    omega] at this
  exact this

theorem Exact.assign (h : s.Exact d) (hx : x ∈ s.vars) (g : Option A) :
    (s.assign x g).Exact fun a => d a + designates (s.p x) a - designates g a := by
  intro a
  have hnumber : (s.assign x g).number a + designates (s.p x) a =
      s.number a + designates g a := by
    have := designations_update (p := s.p) hx g a
    simp only [number, ObjectState.assign]
    omega
  have := h a
  rw [show (s.number a + d a : ℤ) =
    (s.assign x g).number a + (d a + designates (s.p x) a - designates g a) by omega] at this
  exact this

theorem Exact.erase (h : s.Exact d) (hx : x ∈ s.vars) :
    Exact { s with vars := s.vars.erase x } fun a => d a + designates (s.p x) a := by
  intro a
  have hnumber : number { s with vars := s.vars.erase x } a + designates (s.p x) a =
      s.number a := by
    have := designations_erase (p := s.p) hx a
    simp only [number]
    omega
  have := h a
  rw [show (s.number a + d a : ℤ) =
    number { s with vars := s.vars.erase x } a + (d a + designates (s.p x) a) by omega] at this
  exact this

/-! ## The operations -/

theorem Exact.copyAssign (h : s.Exact 0) (hx : x ∈ s.vars) (hy : y ∈ s.vars) :
    ∃ t, s.copyAssign x y = some t ∧ t.Exact 0 := by
  by_cases hne : s.p x ≠ s.p y
  · obtain ⟨t, ht, hcopied, hsame⟩ := h.copyVariable (fun _ => Int.le_refl 0) hy
    have hassigned := hcopied.assign (by rw [hsame.vars]; exact hx) (s.p y)
    rw [hsame.p] at hassigned
    have hold : (t.assign x (s.p y)).Exact fun a => designates (s.p x) a :=
      hassigned.congr fun a => by simp only [Pi.zero_apply]; omega
    obtain ⟨u, hu, hexact⟩ := hold.destructOld
    refine ⟨u, ?_, hexact⟩
    rw [ObjectState.copyAssign, if_pos hne, ht]
    exact hu
  · exact ⟨s, if_neg hne, h⟩

theorem Exact.moveAssign (h : s.Exact 0) (hx : x ∈ s.vars) (hy : y ∈ s.vars) :
    ∃ t, s.moveAssign x y = some t ∧ t.Exact 0 := by
  by_cases hne : s.p x ≠ s.p y
  · have hxy : x ≠ y := fun h => hne (congrArg s.p h)
    have hassigned := (h.assign hy none).assign hx (s.p y)
    rw [show (s.assign y none).p x = s.p x from Function.update_of_ne hxy ..] at hassigned
    have hold : ((s.assign y none).assign x (s.p y)).Exact fun a => designates (s.p x) a :=
      hassigned.congr fun a => by simp only [Pi.zero_apply, designates_none]; omega
    obtain ⟨t, ht, hexact⟩ := hold.destructOld
    refine ⟨t, ?_, hexact⟩
    rw [ObjectState.moveAssign, if_pos hne]
    exact ht
  · exact ⟨s, if_neg hne, h⟩

theorem Exact.swap (h : s.Exact 0) (hx : x ∈ s.vars) (hy : y ∈ s.vars) : (s.swap x y).Exact 0 := by
  have hassigned := (h.assign hx (s.p y)).assign hy (s.p x)
  have hp : (s.assign x (s.p y)).p y = s.p y := by
    rw [ObjectState.assign]
    rcases eq_or_ne y x with rfl | hne
    · exact Function.update_self ..
    · exact Function.update_of_ne hne ..
  rw [hp] at hassigned
  exact hassigned.congr fun a => by simp only [Pi.zero_apply]; omega

theorem Exact.copy (h : s.Exact 0) (hx : x ∉ s.vars) (hy : y ∈ s.vars) :
    ∃ t, s.copy x y = some t ∧ t.Exact 0 := by
  obtain ⟨t, ht, hcopied, hsame⟩ := h.copyVariable (fun _ => Int.le_refl 0) hy
  have hconstructed := hcopied.construct (by rw [hsame.vars]; exact hx) (s.p y)
  refine ⟨t.construct x (s.p y), ?_, hconstructed.congr fun a => ?_⟩
  · rw [ObjectState.copy, ht]
    rfl
  · simp only [Pi.zero_apply]
    omega

theorem Exact.move (h : s.Exact 0) (hx : x ∉ s.vars) (hy : y ∈ s.vars) : (s.move x y).Exact 0 := by
  have hne : y ≠ x := by
    rintro rfl
    exact hx hy
  have hassigned := (h.construct hx (s.p y)).assign (Finset.mem_insert_of_mem hy) none
  rw [show (s.construct x (s.p y)).p y = s.p y from Function.update_of_ne hne ..] at hassigned
  exact hassigned.congr fun a => by simp only [Pi.zero_apply, designates_none]; omega

theorem Exact.constructNull (h : s.Exact 0) (hx : x ∉ s.vars) : (s.construct x none).Exact 0 :=
  (h.construct hx none).congr fun a => by simp

theorem Exact.adopt (h : s.Exact 0) (hx : x ∉ s.vars) (hg : ∀ a ∈ g, a ∈ s.released) :
    (s.adopt x g).Exact 0 :=
  ((h.take hg).construct hx g).congr fun a => by simp

theorem Exact.release (h : s.Exact 0) (hx : x ∈ s.vars) : (s.release x).Exact 0 :=
  ((h.hand (s.p x)).assign hx none).congr fun a => by simp

omit [DecidableEq V] in
theorem Exact.refRelease (h : s.Exact 0) (hx : x ∈ s.vars) :
    ∃ t, s.refRelease x = some t ∧ t.Exact 0 := by
  obtain ⟨t, ht, hcopied, -⟩ := h.copyVariable (fun _ => Int.le_refl 0) hx
  refine ⟨{ t with released := (s.p x).toList ++ t.released }, ?_,
    (hcopied.hand (s.p x)).congr fun a => by simp⟩
  rw [ObjectState.refRelease, ht]
  rfl

theorem Exact.destroy (h : s.Exact 0) (hx : x ∈ s.vars) : ∃ t, s.destroy x = some t ∧ t.Exact 0 :=
  ((h.erase hx).congr fun a => by simp).destructOld

theorem Exact.clear (h : s.Exact 0) (hx : x ∈ s.vars) :
    ∃ t, (s.assign x none).destruct (s.p x) = some t ∧ t.Exact 0 :=
  ((h.assign hx none).congr fun a => by simp).destructOld

theorem sound_emplace (h : s.Exact 0) (hx : x ∈ s.vars) {type : τ} {created : Option A}
    (hfresh : ∀ a ∈ created, s.holders a = none) : s.Sound (s.emplace x type created) := by
  cases created with
  | none => exact sound_error h _
  | some a =>
      have hassigned := (h.create (hfresh a rfl) type).assign (x := x) hx (some a)
      refine sound_of_exact (Exact.destructOld (hassigned.congr fun b => ?_))
      change (0 : ℤ) + designates (some a) b + designates (s.p x) b - designates (some a) b = _
      omega

theorem sound_constructFrom (h : s.Exact 0) (hx : x ∉ s.vars) {type : τ} {created : Option A}
    (hfresh : ∀ a ∈ created, s.holders a = none) : s.Sound (s.constructFrom x type created) := by
  cases created with
  | none => exact sound_error h _
  | some a =>
      have hconstructed := (h.create (hfresh a rfl) type).construct (x := x) hx (some a)
      exact ⟨_, _, rfl, hconstructed.congr fun b => by simp, by simp⟩

theorem sound_vecOf (h : s.Exact 0) (hx : x ∉ s.vars) {type : τ} {created : Option A}
    {copied : Bool} (hfresh : ∀ a ∈ created, s.holders a = none) :
    s.Sound (s.vecOf x type created copied) := by
  cases created with
  | none => exact sound_error h _
  | some a =>
      cases copied with
      | true =>
          have hsound : s.Sound (s.constructFrom x type (some a)) :=
            sound_constructFrom h hx hfresh
          exact hsound
      | false =>
          rw [vecOf, destruct_create (hfresh a rfl)]
          exact sound_error h _

theorem sound_vecEmplace (h : s.Exact 0) (hx : x ∈ s.vars) {type : τ} {n : ℤ}
    {created : Option A} (hfresh : ∀ a ∈ created, s.holders a = none) :
    s.Sound (s.vecEmplace x type n created) := by
  rw [vecEmplace]
  split
  · apply sound_emplace h hx
    intro a ha
    split at ha
    · exact absurd ha (by simp)
    · exact hfresh a ha
  · exact sound_of_exact (h.clear hx)

/-- A constructor takes the handle of another variable into a new one. -/
theorem exact_take (h : s.Exact 0) (hx : x ∉ s.vars) (hy : y ∈ s.vars)
    {take : ObjectState A V τ → Option (ObjectState A V τ)}
    (htake : ∀ t : ObjectState A V τ, t.Exact 0 → x ∈ t.vars → y ∈ t.vars →
      ∃ u, take t = some u ∧ u.Exact 0) :
    ∃ u, take (s.construct x none) = some u ∧ u.Exact 0 :=
  htake _ (h.constructNull hx) (Finset.mem_insert_self x _) (Finset.mem_insert_of_mem hy)

theorem sound_convert [DecidableEq τ] (h : s.Exact 0) (hx : x ∉ s.vars) (hy : y ∈ s.vars)
    {nullable : Bool} {error : ObjectError} {type : τ}
    {take : ObjectState A V τ → Option (ObjectState A V τ)}
    (htake : ∀ t : ObjectState A V τ, t.Exact 0 → x ∈ t.vars → y ∈ t.vars →
      ∃ u, take t = some u ∧ u.Exact 0) :
    s.Sound (s.convert nullable error type x y take) := by
  -- the type can be read, as the holder is alive
  have htype : ∃ t, s.type (s.p y) = some t := by
    cases hp : s.p y with
    | none => exact ⟨none, rfl⟩
    | some a =>
        have hnumber := number_pos hy hp
        obtain ⟨holder, ha, -⟩ := h.exists_holder (a := a)
          (by simp only [Pi.zero_apply]; omega)
        exact ⟨some holder.type, by rw [ObjectState.type, ha]; rfl⟩
  obtain ⟨t, ht⟩ := htype
  rw [convert, ht, Option.bind_some]
  split
  · exact sound_of_exact (exact_take h hx hy htake)
  · exact sound_error h _

theorem exact_swap (t : ObjectState A V τ) (h : t.Exact 0) (hx : x ∈ t.vars) (hy : y ∈ t.vars) :
    ∃ u, some (t.swap x y) = some u ∧ u.Exact 0 :=
  ⟨_, rfl, h.swap hx hy⟩

/-- Every operation the language allows is defined, keeps the counts exact, and changes
nothing if it throws. -/
theorem sound_perform [DecidableEq τ] (h : s.Exact 0) (op : ObjectOp A V τ)
    (hop : op.Allowed s) : s.Sound (op.perform s) := by
  cases op with
  | default x => exact ⟨_, _, rfl, h.constructNull hop, by simp⟩
  | adopt x g => exact ⟨_, _, rfl, h.adopt hop.1 hop.2, by simp⟩
  | copy x y => exact sound_of_exact (h.copy hop.1 hop.2)
  | move x y => exact ⟨_, _, rfl, h.move hop.1 hop.2, by simp⟩
  | copyAssign x y => exact sound_of_exact (h.copyAssign hop.1 hop.2)
  | moveAssign x y => exact sound_of_exact (h.moveAssign hop.1 hop.2)
  | swap x y => exact ⟨_, _, rfl, h.swap hop.1 hop.2, by simp⟩
  | release x => exact ⟨_, _, rfl, h.release hop, by simp⟩
  | emplace x type created => exact sound_emplace h hop.1 hop.2
  | constructFrom x type created => exact sound_constructFrom h hop.1 hop.2
  | destroy x => exact sound_of_exact (h.destroy hop)
  | ptrCopy type x y | refCopy type x y | vecCopy type x y | fnCopy type x y =>
      exact sound_convert h hop.1 hop.2 fun _ h hx hy => h.copyAssign hx hy
  | ptrMove type x y | refMove type x y | vecMove type x y =>
      exact sound_convert h hop.1 hop.2 exact_swap
  | fnMove type x y => exact sound_convert h hop.1 hop.2 fun _ h hx hy => h.moveAssign hx hy
  | refOfPtrCopy x y =>
      rw [ObjectOp.perform, refOfPtrCopy]
      split
      · exact sound_error h _
      · exact sound_of_exact (exact_take h hop.1 hop.2 fun _ h hx hy => h.copyAssign hx hy)
  | refOfPtrMove x y =>
      rw [ObjectOp.perform, refOfPtrMove]
      split
      · exact sound_error h _
      · exact sound_of_exact (exact_take h hop.1 hop.2 exact_swap)
  | refRelease x => exact sound_of_exact (h.refRelease hop)
  | vecOf x type created copied => exact sound_vecOf h hop.1 hop.2
  | vecEmplace x type n created => exact sound_vecEmplace h hop.1 hop.2

theorem exact_of_reachable [DecidableEq τ] (hs : (objectSystem A V τ).Reachable s) :
    s.Exact 0 := by
  refine hs.invariant (I := fun s => s.Exact 0) ?_ ?_
  · rintro s ⟨hholders, hvars, hreleased⟩ a
    rw [hholders, Counts, number, hvars, hreleased]
    simp [designations]
  · rintro s op t h ⟨hop, r, hr⟩
    obtain ⟨r', t', hperform, ht', -⟩ := sound_perform h op hop
    obtain ⟨-, rfl⟩ := Prod.mk.inj (Option.some.inj (hr.symm.trans hperform))
    exact ht'

omit [DecidableEq V] in
/-- A holder is deleted exactly where no handle is left. -/
theorem Exact.deleted_iff (h : s.Exact 0) (a : A) : s.holders a = none ↔ s.number a = 0 := by
  have hcounts := h a
  cases ha : s.holders a with
  | none =>
      rw [ha] at hcounts
      have hzero : (s.number a : ℤ) + 0 = 0 := hcounts
      exact iff_of_true rfl (by omega)
  | some holder =>
      rw [ha] at hcounts
      have hpos : 0 < (s.number a : ℤ) + 0 := hcounts.1
      exact iff_of_false (by simp) (by omega)

end ObjectState

open ObjectState

variable {A V τ : Type*} [DecidableEq A] [DecidableEq V] [DecidableEq τ]

/-- After every sequence of operations, the count of every holder alive is the number of
variables that designate it and of its handles released and not adopted again, and a holder
is alive exactly while that number is not zero. Every operation the language allows then is
defined: it does not touch a deleted holder; it deletes a holder exactly if it leaves no
handle to it; and it changes nothing if it throws. -/
theorem object_counts_exact (s : ObjectState A V τ) (hs : (objectSystem A V τ).Reachable s) :
    (∀ a holder, s.holders a = some holder → holder.refcount = s.number a) ∧
    (∀ a, s.holders a = none ↔ s.number a = 0) ∧
    ∀ op : ObjectOp A V τ, op.Allowed s → ∃ r t, op.perform s = some (r, t) ∧
      (∀ a, s.holders a ≠ none → (t.holders a = none ↔ t.number a = 0)) ∧
      (∀ e, r = .error e → t = s) := by
  have h := exact_of_reachable hs
  refine ⟨fun a holder ha => ?_, h.deleted_iff, fun op hop => ?_⟩
  · have hcounts := h a
    rw [ha] at hcounts
    have hcount : holder.refcount = s.number a + 0 := hcounts.2
    omega
  · obtain ⟨r, t, hperform, ht, hthrows⟩ := sound_perform h op hop
    exact ⟨r, t, hperform, fun a _ => ht.deleted_iff a, hthrows⟩

/-- An object is made, copied, and its copy released as a handle. -/
theorem object_counts_exact_copied : ∃ s : ObjectState (Fin 2) (Fin 2) Bool,
    s.p 0 = some 0 ∧ s.p 1 = none ∧ s.released = [0] ∧
      ∀ holder, s.holders 0 = some holder → holder.refcount = 2 := by
  have h₀ : (objectSystem (Fin 2) (Fin 2) Bool).Reachable
      ⟨fun _ => none, ∅, fun _ => none, []⟩ := .init ⟨rfl, rfl, rfl⟩
  have h₁ := h₀.step (e := ObjectOp.constructFrom 0 true (some 0)) ⟨by decide, _, rfl⟩
  have h₂ := h₁.step (e := ObjectOp.copy 1 0) ⟨by decide, _, rfl⟩
  have h₃ := h₂.step (e := ObjectOp.release 1) ⟨by decide, _, rfl⟩
  have hcount := fun holder hholder =>
    ((object_counts_exact _ h₃).1 0 holder hholder).trans (show _ = (2 : ℤ) by decide)
  exact ⟨_, by decide, by decide, by decide, hcount⟩

end Minapp
