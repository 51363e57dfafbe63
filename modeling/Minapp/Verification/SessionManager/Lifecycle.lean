import Minapp.Verification.SessionManager.Steps

/-! # The lifecycle of a session object

A session is created by one activation, comes to be owned at the end of `make_shared`, and
once it is not owned any more it never is again. -/

namespace Minapp

variable {T H : Type*}

/-- The sessions, as far as their creation and their owners are concerned. -/
structure Lifecycle (s : ManagerState T H) : Prop where
  fresh : ∀ n, s.issued ≤ n → s.objects n = {}
  born : ∀ n, (s.objects n).Owned → (s.objects n).born = true
  created : ∀ n, (s.objects n).born = true → (s.objects n).creator ≠ none

/-- An activation, as far as the sessions it creates and shares are concerned. -/
structure Shares (a : T) (s : ManagerState T H) (k : ManagerPlace H) : Prop where
  newborn : ∀ n, k.newborn = some n →
    (s.objects n).creator = some a ∧ (s.objects n).born = false ∧ n < s.issued
  assigning : ∀ n, k.assigning = some n →
    (s.objects n).creator = some a ∧ a ∈ (s.objects n).pins
  pinned : ∀ n, k.pinned = some n → a ∈ (s.objects n).pins

section ObjectStep

variable {a b : T} {s s' : ManagerState T H} {k k' k₂ : ManagerPlace H} {e : ManagerEvent H} {n : ℕ}
  {o : SessionObject T H}

theorem owned_of_mem_pins (h : a ∈ o.pins) : o.Owned := .inr (List.ne_nil_of_mem h)

theorem Shares.owned (hk : Shares a s k) (h : k.pinned = some n ∨ k.assigning = some n) :
    (s.objects n).Owned := by
  rcases h with h | h
  · exact owned_of_mem_pins (hk.pinned n h)
  · exact owned_of_mem_pins (hk.assigning n h).2

/-- A session comes to be owned at the end of `make_shared` only. -/
theorem ObjectStep.owned (hk : Shares a s k) (h : ObjectStep a s k n o) (ho : o.Owned) :
    (s.objects n).Owned ∨ ∃ handler, k = .makeShared n handler := by
  cases h with
  | counted refs pins _ howned =>
      rcases howned ho with h | h
      · exact .inl h
      · exact .inl (hk.owned (.inl h))
  | handled h => exact .inl ho
  | fetched h => simp [SessionObject.Owned] at ho
  | shared h hkn => exact .inr ⟨h, hkn⟩

theorem ObjectStep.born (hs : Lifecycle s) (h : ObjectStep a s k n o)
    (hb : (s.objects n).born = true) : o.born = true := by
  cases h with
  | counted refs pins => exact hb
  | handled h => exact hb
  | fetched h _ hissued =>
      rw [hs.fresh n (Nat.le_of_eq hissued.symm)] at hb
      exact absurd hb (by simp)
  | shared h => rfl

/-- A session that nobody has created is not touched. -/
theorem ObjectStep.fresh (hs : Lifecycle s) (hk : Shares a s k) (h : ObjectStep a s k n o)
    (hn : s.issued ≤ n) : o = {} ∨ ∃ h, k = .fetchId h ∧ n = s.issued := by
  have hempty := hs.fresh n hn
  have hunowned : ¬ (s.objects n).Owned := by simp [hempty, SessionObject.Owned]
  cases h with
  | counted refs pins _ howned =>
      left
      have hno : ¬ (0 < refs ∨ pins ≠ []) := fun h =>
        (howned h).elim hunowned fun h => hunowned (hk.owned (.inl h))
      have hrefs : refs = 0 := Nat.eq_zero_of_not_pos fun h => hno (.inl h)
      have hpins : pins = [] := by
        by_contra h
        exact hno (.inr h)
      rw [hempty, hrefs, hpins]
  | handled h hcase =>
      rcases hcase with hcase | hcase
      · exact absurd (.inl hcase) hunowned
      · exact absurd (hk.owned (.inr (by rw [hcase]; rfl))) hunowned
  | fetched h hkn hissued => exact .inr ⟨h, hkn, hissued⟩
  | shared h hkn =>
      have hlt := (hk.newborn n (by rw [hkn]; rfl)).2.2
      omega

/-- What a step keeps of the invariant for each session. -/
theorem ObjectStep.lifecycle (hs : Lifecycle s) (hk : Shares a s k) (h : ObjectStep a s k n o) :
    (o.Owned → o.born = true) ∧ (o.born = true → o.creator ≠ none) := by
  constructor
  · intro ho
    rcases h.owned hk ho with hb | ⟨handler, rfl⟩
    · exact h.born hs (hs.born n hb)
    · cases h with
      | shared h => rfl
      | handled h => exact hs.born n ho
      | fetched h => simp [SessionObject.Owned] at ho
      | counted refs pins _ howned => exact hs.born n ((howned ho).resolve_right (by
          simp [ManagerPlace.pinned]))
  · cases h with
    | counted refs pins => exact hs.created n
    | handled h => exact hs.created n
    | fetched h => simp
    | shared h hkn =>
        have hcreator := (hk.newborn n (by rw [hkn]; rfl)).1
        simp [hcreator]

/-- A step of another activation leaves a session in creation to its creator, -/
theorem ObjectStep.creator (hs : Lifecycle s) (hk : Shares a s k) (h : ObjectStep a s k n o)
    (hne : b ≠ a) (hcreator : (s.objects n).creator = some b) :
    o.creator = some b ∧ o.born = (s.objects n).born := by
  cases h with
  | counted refs pins => exact ⟨hcreator, rfl⟩
  | handled h => exact ⟨hcreator, rfl⟩
  | fetched h _ hissued =>
      rw [hs.fresh n (Nat.le_of_eq hissued.symm)] at hcreator
      exact absurd hcreator (by simp)
  | shared h hkn =>
      have hown := (hk.newborn n (by rw [hkn]; rfl)).1
      rw [hown] at hcreator
      exact absurd (Option.some.inj hcreator).symm hne

/-- and a `session_ptr` to its holder. -/
theorem ObjectStep.pins (hs : Lifecycle s) (hk : Shares a s k) (h : ObjectStep a s k n o)
    (hne : b ≠ a) (hb : b ∈ (s.objects n).pins) : b ∈ o.pins := by
  have hborn := hs.born n (owned_of_mem_pins hb)
  cases h with
  | counted refs pins _ _ hpins => exact hpins b hne hb
  | handled h => exact hb
  | fetched h _ hissued =>
      rw [hs.fresh n (Nat.le_of_eq hissued.symm)] at hborn
      exact absurd hborn (by simp)
  | shared h hkn =>
      have hno := (hk.newborn n (by rw [hkn]; rfl)).2.1
      rw [hno] at hborn
      exact absurd hborn (by simp)

end ObjectStep

namespace ManagerState

variable [DecidableEq T] {a b : T} {s s' : ManagerState T H} {k k' k₂ : ManagerPlace H}
  {e : ManagerEvent H} {n : ℕ}

theorem issued_localStep (hstep : LocalStep a s k e s' k') :
    s.issued ≤ s'.issued ∧ s'.issued ≤ s.issued + 1 ∧
      ∀ h, k = .fetchId h → s'.issued = s.issued + 1 := by
  cases hstep with
  | elsewhere | fetchId => exact ⟨Nat.le_succ _, Nat.le_refl _, fun _ _ => rfl⟩
  | _ => exact ⟨Nat.le_refl _, Nat.le_succ _, by simp⟩

theorem lifecycle_localStep (hs : Lifecycle s) (hk : Shares a s k)
    (hstep : LocalStep a s k e s' k') : Lifecycle s' := by
  have hobject := objectStep_localStep hstep
  refine ⟨fun n hn => ?_, fun n => ((hobject n).lifecycle hs hk).1,
    fun n => ((hobject n).lifecycle hs hk).2⟩
  obtain ⟨hle, -, hnext⟩ := issued_localStep hstep
  rcases (hobject n).fresh hs hk (Nat.le_trans hle hn) with h | ⟨h, hkn, hissued⟩
  · exact h
  · have := hnext h hkn
    omega

theorem newborn_localStep (hk : Shares a s k) (hstep : LocalStep a s k e s' k') (n : ℕ)
    (hn : k'.newborn = some n) : (s'.objects n).creator = some a ∧
      (s'.objects n).born = false ∧ n < s'.issued := by
  cases hstep with
  | fetchId =>
      obtain rfl := Option.some.inj hn
      simp
  | insertLock | insert | insertUnlock => exact hk.newborn n hn
  | drop | release => exact absurd hn (by simp)
  | @destroy m ret => exact absurd hn (by simp)
  | _ => exact absurd hn (by simp [ManagerPlace.newborn])

theorem assigning_localStep (hk : Shares a s k) (hstep : LocalStep a s k e s' k') (n : ℕ)
    (hn : k'.assigning = some n) :
    (s'.objects n).creator = some a ∧ a ∈ (s'.objects n).pins := by
  cases hstep with
  | makeShared =>
      obtain rfl := Option.some.inj hn
      simp [(hk.newborn _ rfl).1]
  | drop | release => exact absurd hn (by simp)
  | @destroy m ret => exact absurd hn (by simp)
  | _ => exact absurd hn (by simp [ManagerPlace.assigning])

theorem pinned_localStep (hk : Shares a s k) (hstep : LocalStep a s k e s' k') (n : ℕ)
    (hn : k'.pinned = some n) : a ∈ (s'.objects n).pins := by
  cases hstep with
  | assignHandler =>
      obtain rfl := Option.some.inj hn
      simpa using (hk.assigning _ rfl).2
  | connect | keep =>
      obtain rfl := Option.some.inj hn
      simpa [addRef] using hk.pinned _ rfl
  | getShared | eachShared =>
      obtain rfl := Option.some.inj hn
      simp [pin]
  | eachUnlock | goOn | stop | callbackThrows => exact hk.pinned n hn
  | @getUnlock query result =>
      cases result with
      | none => exact absurd hn (by simp [ManagerPlace.pinned])
      | some m => exact hk.pinned n hn
  | drop | release => exact absurd hn (by simp)
  | @destroy m ret => exact absurd hn (by simp)
  | _ => exact absurd hn (by simp [ManagerPlace.pinned])

theorem shares_other (hs : Lifecycle s) (hk : Shares a s k) (hb : Shares b s k₂) (hne : b ≠ a)
    (hstep : LocalStep a s k e s' k') : Shares b s' k₂ := by
  have hobject := objectStep_localStep hstep
  refine ⟨fun n hn => ?_, fun n hn => ?_, fun n hn => ?_⟩
  · obtain ⟨hcreator, hborn, hlt⟩ := hb.newborn n hn
    obtain ⟨hcreator', hborn'⟩ := (hobject n).creator hs hk hne hcreator
    exact ⟨hcreator', hborn'.trans hborn, Nat.lt_of_lt_of_le hlt (issued_localStep hstep).1⟩
  · obtain ⟨hcreator, hpin⟩ := hb.assigning n hn
    exact ⟨((hobject n).creator hs hk hne hcreator).1, (hobject n).pins hs hk hne hpin⟩
  · exact (hobject n).pins hs hk hne (hb.pinned n hn)

end ManagerState

/-- The lifecycle of the sessions in every run. -/
theorem lifecycle [DecidableEq T] {C : SessionManager T H → T × ManagerEvent H → Prop}
    {c : SessionManager T H} (hc : ((managerSystem T H).restrict C).Reachable c) :
    Lifecycle c.shared ∧ ∀ a, Shares a c.shared (c.pc a) := by
  apply hc.interleave_invariant
  · rintro c rfl
    refine ⟨⟨fun _ _ => rfl, ?_, ?_⟩, fun a => ⟨?_, ?_, ?_⟩⟩ <;>
      simp [SessionManager.initial, SessionObject.Owned, ManagerPlace.newborn,
        ManagerPlace.assigning, ManagerPlace.pinned]
  · intro c a e s k _ hs hl _ hact
    have hstep := ManagerState.localStep_of_act hact
    exact ⟨ManagerState.lifecycle_localStep hs (hl a) hstep,
      ⟨ManagerState.newborn_localStep (hl a) hstep, ManagerState.assigning_localStep (hl a) hstep,
        ManagerState.pinned_localStep (hl a) hstep⟩,
      fun b hne => ManagerState.shares_other hs (hl a) (hl b) hne hstep⟩

end Minapp
