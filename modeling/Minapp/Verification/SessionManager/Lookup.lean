import Minapp.Verification.SessionManager.Lifecycle
import Mathlib.Data.Fintype.Basic

/-! # Lookup and iteration

As long as the entries they come across are owned, `get` and `foreach` return what they
should and leave the guard unlocked. An entry without an owner, of a session in creation or
in destruction, makes `shared_from_this` throw, and `foreach` leaves the guard locked. -/

namespace Minapp

variable {T H : Type*}

namespace ManagerPlace

/-- A place inside a section that the guard protects. -/
def holdsGuard : ManagerPlace H → Bool
  | .insert _ _ | .insertUnlock _ _ | .erase _ _ | .eraseUnlock _ _ | .getFind _ | .getShared _ _
  | .getUnlock _ _ | .getUnwind | .eachSeek _ _ | .eachShared _ _ | .eachUnlock _ _
  | .eachEnd _ => true
  | _ => false

/-- The session that a place is about to insert, or has inserted but not made owned. -/
def outside : ManagerPlace H → Option ℕ
  | .insertLock n _ | .insert n _ => some n
  | _ => none

def inside : ManagerPlace H → Option ℕ
  | .insertUnlock n _ | .makeShared n _ => some n
  | _ => none

/-- The session that a place is about to erase. -/
def dying : ManagerPlace H → Option ℕ
  | .eraseLock n _ | .erase n _ => some n
  | _ => none

end ManagerPlace

/-- What a call should have ended in: `get` returns null if none of the sessions owned
throughout has the id, and a session with it otherwise; `foreach` calls `f` in strictly
increasing order of the ids, counts the calls that return true, and has called it with every
session owned throughout, up to the one where `f` stops it; neither throws of itself. -/
def LookupOutcome.Right (s : ManagerState T H) : LookupOutcome → Prop
  | .got query none => ∀ m ∈ query.started, (s.objects m).Owned → sessionId m ≠ query.id
  | .got query (some n) => sessionId n = query.id
  | .visited visit =>
    OrderedSet.Sorted sessionId visit.calls ∧ visit.count = visit.calls.length ∧
      ∀ m ∈ visit.started, (s.objects m).Owned → m ∈ visit.calls
  | .stopped visit =>
    OrderedSet.Sorted sessionId visit.calls ∧ visit.count + 1 = visit.calls.length ∧
      ∀ m ∈ visit.started, (s.objects m).Owned →
        m ∈ visit.calls ∨ ∀ n ∈ visit.calls, sessionId n < sessionId m
  | .callbackThrew => True
  | .badWeakPtr => False

/-- Every lookup ends right, with the guard unlocked, and the sessions it returns, or calls
`f` with, are owned. -/
structure Tolerant (c : SessionManager T H) : Prop where
  guard : ∀ a, c.shared.guard = some a → (c.pc a).holdsGuard = true
  outcome : ∀ a outcome, c.pc a = .done outcome → outcome.Right c.shared
  unwind : ∀ a, c.pc a ≠ .getUnwind
  found : ∀ a n, (c.pc a).pinned = some n → (c.shared.objects n).Owned

/-- The entry that a lookup comes across is owned. -/
def FoundOwned (c : SessionManager T H) (e : T × ManagerEvent H) : Prop :=
  ∀ n ∈ (c.pc e.1).looksUp, (c.shared.objects n).Owned

instance (c : SessionManager T H) (e : T × ManagerEvent H) : Decidable (FoundOwned c e) :=
  inferInstanceAs (Decidable (∀ n ∈ (c.pc e.1).looksUp, (c.shared.objects n).Owned))

/-- No id has been drawn twice. -/
def IdsDistinct (c : SessionManager T H) : Prop := c.shared.issued < ulongSize

instance (c : SessionManager T H) : Decidable (IdsDistinct c) :=
  inferInstanceAs (Decidable (c.shared.issued < ulongSize))

/-- The set of sessions. -/
structure SetInv (s : ManagerState T H) : Prop where
  sorted : OrderedSet.Sorted sessionId s.sessions
  bound : ∀ n ∈ s.sessions, n < s.issued
  small : s.issued ≤ ulongSize
  owned : ∀ n, (s.objects n).Owned → n ∈ s.sessions

/-- A call of `foreach` that has visited the sessions below a bound. -/
structure VisitRight (s : ManagerState T H) (visit : Visit) (bound : ℕ) : Prop where
  sorted : OrderedSet.Sorted sessionId visit.calls
  below : ∀ m ∈ visit.calls, sessionId m < bound
  count : visit.count = visit.calls.length
  covered : ∀ m ∈ visit.started, (s.objects m).Owned → m ∈ visit.calls ∨ bound ≤ sessionId m

/-- The least id that an iterator after this one can have. -/
def lowest (after : Option ℕ) : ℕ := after.elim 0 (· + 1)

def ReleaseReturn.Right (s : ManagerState T H) : ReleaseReturn → Prop
  | .next visit id => VisitRight s visit (id + 1)
  | .stopped visit => (LookupOutcome.stopped visit).Right s
  | .idle | .callbackThrew => True

def ManagerPlace.Right (s : ManagerState T H) : ManagerPlace H → Prop
  | .getShared query n => sessionId n = query.id
  | .getUnlock query result => (LookupOutcome.got query result).Right s
  | .getUnwind => False
  | .eachLock visit after | .eachSeek visit after => VisitRight s visit (lowest after)
  | .eachShared visit n | .eachUnlock visit n | .eachCall visit n =>
    VisitRight s visit (sessionId n)
  | .eachEnd visit => (LookupOutcome.visited visit).Right s
  | .release _ ret | .eraseLock _ ret | .erase _ ret | .eraseUnlock _ ret | .destroy _ ret =>
    ret.Right s
  | .done outcome => outcome.Right s
  | _ => True

/-! The sessions that were owned when a call began. -/

def LookupOutcome.started : LookupOutcome → List ℕ
  | .got query _ => query.started
  | .visited visit | .stopped visit => visit.started
  | .callbackThrew | .badWeakPtr => []

def ReleaseReturn.started : ReleaseReturn → List ℕ
  | .next visit _ | .stopped visit => visit.started
  | .idle | .callbackThrew => []

def ManagerPlace.started : ManagerPlace H → List ℕ
  | .getLock query | .getFind query | .getShared query _ | .getUnlock query _ => query.started
  | .eachLock visit _ | .eachSeek visit _ | .eachShared visit _ | .eachUnlock visit _
  | .eachCall visit _ | .eachEnd visit => visit.started
  | .release _ ret | .eraseLock _ ret | .erase _ ret | .eraseUnlock _ ret | .destroy _ ret =>
    ret.started
  | .done outcome => outcome.started
  | _ => []

/-- An activation, as far as the set, the guard and its lookups are concerned. -/
structure LooksUp (a : T) (s : ManagerState T H) (k : ManagerPlace H) : Prop where
  guard : s.guard = some a ↔ k.holdsGuard = true
  outside : ∀ n, k.outside = some n → n ∉ s.sessions
  inside : ∀ n, k.inside = some n → n ∈ s.sessions
  dying : ∀ n, k.dying = some n → (s.objects n).born = true ∧ ¬ (s.objects n).Owned
  started : ∀ m ∈ k.started, (s.objects m).born = true
  right : k.Right s

/-- What every step leaves: a session that has been owned, and is not any more, never is. -/
structure Ages (s s' : ManagerState T H) : Prop where
  born : ∀ n, (s.objects n).born = true → (s'.objects n).born = true
  owned : ∀ n, (s.objects n).born = true → (s'.objects n).Owned → (s.objects n).Owned

section Ages

variable {s s' : ManagerState T H}

theorem VisitRight.age (h : Ages s s') {visit : Visit} {bound : ℕ}
    (hv : VisitRight s visit bound) (hborn : ∀ m ∈ visit.started, (s.objects m).born = true) :
    VisitRight s' visit bound :=
  ⟨hv.sorted, hv.below, hv.count, fun m hm ho => hv.covered m hm (h.owned m (hborn m hm) ho)⟩

theorem LookupOutcome.Right.age (h : Ages s s') {outcome : LookupOutcome}
    (ho : outcome.Right s) (hborn : ∀ m ∈ outcome.started, (s.objects m).born = true) :
    outcome.Right s' := by
  cases outcome with
  | got query result =>
      cases result with
      | none => exact fun m hm hm' => ho m hm (h.owned m (hborn m hm) hm')
      | some n => exact ho
  | visited visit =>
      obtain ⟨hsorted, hcount, hall⟩ := ho
      exact ⟨hsorted, hcount, fun m hm hm' => hall m hm (h.owned m (hborn m hm) hm')⟩
  | stopped visit =>
      obtain ⟨hsorted, hcount, hall⟩ := ho
      exact ⟨hsorted, hcount, fun m hm hm' => hall m hm (h.owned m (hborn m hm) hm')⟩
  | callbackThrew | badWeakPtr => exact ho

theorem ReleaseReturn.Right.age (h : Ages s s') {ret : ReleaseReturn}
    (hr : ret.Right s) (hborn : ∀ m ∈ ret.started, (s.objects m).born = true) : ret.Right s' := by
  cases ret with
  | next visit id => exact VisitRight.age h hr hborn
  | stopped visit =>
      have hstopped : (LookupOutcome.stopped visit).Right s := hr
      exact hstopped.age h hborn
  | idle | callbackThrew => trivial

theorem ManagerPlace.Right.age (h : Ages s s') {k : ManagerPlace H}
    (hk : k.Right s) (hborn : ∀ m ∈ k.started, (s.objects m).born = true) : k.Right s' := by
  cases k with
  | getShared query n | getUnwind => exact hk
  | getUnlock query result => exact LookupOutcome.Right.age h hk hborn
  | eachLock visit after | eachSeek visit after | eachShared visit n | eachUnlock visit n
  | eachCall visit n => exact VisitRight.age h hk hborn
  | eachEnd visit =>
      have hvisited : (LookupOutcome.visited visit).Right s := hk
      exact hvisited.age h hborn
  | release n ret | eraseLock n ret | erase n ret | eraseUnlock n ret | destroy n ret =>
      exact ReleaseReturn.Right.age h hk hborn
  | done outcome => exact LookupOutcome.Right.age h hk hborn
  | _ => trivial

end Ages

/-! ## The set -/

section SetInv

variable {s : ManagerState T H} {m n : ℕ}

theorem SetInv.lt_size (hs : SetInv s) (h : n < s.issued) : sessionId n = n :=
  Nat.mod_eq_of_lt (Nat.lt_of_lt_of_le h hs.small)

/-- The ids of sessions are distinct. -/
theorem SetInv.eq_of_id (hs : SetInv s) (hm : m < s.issued) (hn : n < s.issued)
    (h : sessionId m = sessionId n) : m = n := by
  rwa [hs.lt_size hm, hs.lt_size hn] at h

theorem SetInv.mem_insert (hs : SetInv s) (hn : n < s.issued) (hnew : n ∉ s.sessions) :
    m ∈ OrderedSet.insert sessionId n s.sessions ↔ m = n ∨ m ∈ s.sessions := by
  refine OrderedSet.mem_insert fun z hz hid => hnew ?_
  rwa [← hs.eq_of_id (hs.bound z hz) hn hid]

/-- The iterator is at the first session it has not passed. -/
theorem SetInv.seek_eq_some (hs : SetInv s) {after : Option ℕ} (h : s.seek after = some n) :
    n ∈ s.sessions ∧ lowest after ≤ sessionId n ∧
      ∀ m ∈ s.sessions, lowest after ≤ sessionId m → sessionId n ≤ sessionId m := by
  cases after with
  | none =>
      have hsorted := hs.sorted
      unfold ManagerState.seek at h
      cases hl : s.sessions with
      | nil => simp [hl] at h
      | cons y ys =>
          rw [hl] at h hsorted
          obtain rfl := Option.some.inj h
          refine ⟨by simp, Nat.zero_le _, fun m hm _ => ?_⟩
          rcases List.mem_cons.mp hm with rfl | hm
          · exact Nat.le_refl _
          · exact Nat.le_of_lt ((List.pairwise_cons.mp hsorted).1 m hm)
  | some id => exact OrderedSet.upperBound_eq_some hs.sorted h

/-- The iterator is at the end when it has passed all sessions. -/
theorem seek_eq_none {after : Option ℕ} (h : s.seek after = none) (hm : m ∈ s.sessions) :
    ¬ lowest after ≤ sessionId m := by
  cases after with
  | none =>
      rw [List.head?_eq_none_iff.mp h] at hm
      exact absurd hm (by simp)
  | some id => exact Nat.not_lt.mpr (OrderedSet.upperBound_eq_none h hm)

/-- After a call with the next session the call of `foreach` has visited that, too. -/
theorem SetInv.calls (hs : SetInv s) {visit : Visit} (hv : VisitRight s visit (sessionId n))
    (hn : (s.objects n).Owned) : OrderedSet.Sorted sessionId (visit.calls ++ [n]) ∧
      (∀ m ∈ visit.calls ++ [n], sessionId m < sessionId n + 1) ∧
      ∀ m ∈ visit.started, (s.objects m).Owned →
        m ∈ visit.calls ++ [n] ∨ sessionId n + 1 ≤ sessionId m := by
  refine ⟨?_, ?_, ?_⟩
  · refine List.pairwise_append.mpr ⟨hv.sorted, List.pairwise_singleton .., ?_⟩
    intro m hm m' hm'
    rw [List.mem_singleton.mp hm']
    exact hv.below m hm
  · intro m hm
    rcases List.mem_append.mp hm with hm | hm
    · have := hv.below m hm
      omega
    · rw [List.mem_singleton.mp hm]
      exact Nat.lt_succ_self _
  · intro m hm ho
    rcases hv.covered m hm ho with hm | hle
    · exact .inl (List.mem_append_left _ hm)
    · rcases Nat.eq_or_lt_of_le hle with heq | hlt
      · have hmn := hs.eq_of_id (hs.bound n (hs.owned n hn)) (hs.bound m (hs.owned m ho)) heq
        exact .inl (by simp [hmn])
      · exact .inr hlt

end SetInv

theorem newborn_of_outside {k : ManagerPlace H} {n : ℕ} (h : k.outside = some n) :
    k.newborn = some n := by
  unfold ManagerPlace.outside at h
  split at h <;> first | exact h | exact absurd h (by simp)

theorem newborn_of_inside {k : ManagerPlace H} {n : ℕ} (h : k.inside = some n) :
    k.newborn = some n := by
  unfold ManagerPlace.inside at h
  split at h <;> first | exact h | exact absurd h (by simp)

namespace ManagerState

section Release

variable {s : ManagerState T H} {ret : ReleaseReturn} {m n : ℕ}

theorem holdsGuard_afterRelease : (s.afterRelease n ret).holdsGuard = false := by
  refine afterRelease_cases (P := fun k => k.holdsGuard = false) (fun _ => ?_) fun _ => rfl
  cases ret <;> rfl

theorem outside_afterRelease : (s.afterRelease n ret).outside = none := by
  refine afterRelease_cases (P := fun k => k.outside = none) (fun _ => ?_) fun _ => rfl
  cases ret <;> rfl

theorem inside_afterRelease : (s.afterRelease n ret).inside = none := by
  refine afterRelease_cases (P := fun k => k.inside = none) (fun _ => ?_) fun _ => rfl
  cases ret <;> rfl

theorem dying_afterRelease : (s.afterRelease n ret).dying = some m →
    m = n ∧ ¬ (s.objects n).Owned := by
  refine afterRelease_cases (P := fun k => k.dying = some m → _) (fun _ h => ?_) fun hno h => ?_
  · cases ret <;> exact absurd h (by simp [ReleaseReturn.place, ManagerPlace.dying])
  · exact ⟨(Option.some.inj h).symm, hno⟩

theorem started_afterRelease : (s.afterRelease n ret).started = ret.started := by
  refine afterRelease_cases (P := fun k => k.started = ret.started) (fun _ => ?_) fun _ => rfl
  cases ret <;> rfl

theorem right_afterRelease {s' : ManagerState T H} (h : ret.Right s') :
    (s.afterRelease n ret).Right s' := by
  refine afterRelease_cases (P := fun k => k.Right s') (fun _ => ?_) fun _ => h
  cases ret <;> exact h

end Release

variable [DecidableEq T] {a b : T} {s s' : ManagerState T H} {k k' k₂ : ManagerPlace H}
  {e : ManagerEvent H} {n : ℕ}

theorem ages_localStep (hs : Lifecycle s) (hk : Shares a s k) (hstep : LocalStep a s k e s' k') :
    Ages s s' := by
  have hobject := objectStep_localStep hstep
  refine ⟨fun n => (hobject n).born hs, fun n hborn ho => ?_⟩
  rcases (hobject n).owned hk ho with h | ⟨handler, rfl⟩
  · exact h
  · rw [(hk.newborn n rfl).2.1] at hborn
    exact absurd hborn (by simp)

/-- A step locks the guard, unlocks it, or leaves it, unless `foreach` throws. -/
theorem guard_localStep (hfound : ∀ n, k.looksUp = some n → (s.objects n).Owned)
    (hstep : LocalStep a s k e s' k') :
    s'.guard = s.guard ∧ k'.holdsGuard = k.holdsGuard ∨
    s.guard = none ∧ s'.guard = some a ∧ k'.holdsGuard = true ∨
    k.holdsGuard = true ∧ s'.guard = none ∧ k'.holdsGuard = false := by
  cases hstep with
  | insertLock hg | eraseLock hg | getLock hg | eachLock hg => exact .inr (.inl ⟨hg, rfl, rfl⟩)
  | insertUnlock | eraseUnlock | getUnlock | getUnwind | eachUnlock | eachEnd =>
      exact .inr (.inr ⟨rfl, rfl, rfl⟩)
  | eachThrows hno => exact absurd (hfound _ rfl) hno
  | drop | release => exact .inl ⟨rfl, holdsGuard_afterRelease⟩
  | @destroy m ret => cases ret <;> exact .inl ⟨rfl, rfl⟩
  | @gotSession query m => exact .inl ⟨rfl, rfl⟩
  | _ => exact .inl ⟨rfl, rfl⟩

/-- Only a place in between inserts or erases a session. -/
theorem sessions_localStep (hstep : LocalStep a s k e s' k') : s'.sessions = s.sessions ∨
    (∃ n handler, k = .insert n handler ∧ k' = .insertUnlock n handler ∧
      s'.sessions = OrderedSet.insert sessionId n s.sessions) ∨
    ∃ n, k.dying = some n ∧ k'.inside = none ∧ s'.sessions = s.sessions.erase n := by
  cases hstep with
  | insert => exact .inr (.inl ⟨_, _, rfl, rfl, rfl⟩)
  | erase => exact .inr (.inr ⟨_, rfl, rfl, rfl⟩)
  | _ => exact .inl rfl

/-- A session stays in the set until the activation that destroys it erases it. -/
theorem mem_sessions_localStep (hs : SetInv s) (hk : Shares a s k) (hl : LooksUp a s k)
    (hstep : LocalStep a s k e s' k') (hn : n ∈ s.sessions) (hdying : k.dying ≠ some n) :
    n ∈ s'.sessions := by
  rcases sessions_localStep hstep with h | ⟨m, handler, rfl, -, h⟩ | ⟨m, hm, -, h⟩
  · rwa [h]
  · rw [h, hs.mem_insert (hk.newborn m rfl).2.2 (hl.outside m rfl)]
    exact .inr hn
  · rw [h]
    exact (List.mem_erase_of_ne fun heq => hdying (by rw [hm, heq])).mpr hn

/-- A session does not come into the set by another activation than its creator. -/
theorem not_mem_sessions_localStep (hs : SetInv s) (hk : Shares a s k) (hl : LooksUp a s k)
    (hstep : LocalStep a s k e s' k') (hn : n ∉ s.sessions) (hnew : k.newborn ≠ some n) :
    n ∉ s'.sessions := by
  rcases sessions_localStep hstep with h | ⟨m, handler, rfl, -, h⟩ | ⟨m, hm, -, h⟩
  · rwa [h]
  · rw [h, hs.mem_insert (hk.newborn m rfl).2.2 (hl.outside m rfl)]
    rintro (rfl | hmem)
    · exact hnew rfl
    · exact hn hmem
  · rw [h]
    exact fun hmem => hn (List.mem_of_mem_erase hmem)

theorem setInv_localStep (hc : Lifecycle s) (hs : SetInv s) (hk : Shares a s k)
    (hl : LooksUp a s k) (hids : s.issued < ulongSize) (hstep : LocalStep a s k e s' k') :
    SetInv s' := by
  obtain ⟨hle, hnext, -⟩ := issued_localStep hstep
  refine ⟨?_, fun n hn => ?_, by omega, fun n ho => ?_⟩
  · rcases sessions_localStep hstep with h | ⟨m, handler, -, -, h⟩ | ⟨m, -, -, h⟩
    · rw [h]
      exact hs.sorted
    · rw [h]
      exact hs.sorted.insert
    · rw [h]
      exact hs.sorted.erase
  · refine Nat.lt_of_lt_of_le ?_ hle
    by_contra hge
    by_cases hnew : k.newborn = some n
    · exact hge (hk.newborn n hnew).2.2
    · exact not_mem_sessions_localStep hs hk hl hstep (fun hmem => hge (hs.bound n hmem)) hnew hn
  · have hmem : n ∈ s.sessions := by
      rcases (objectStep_localStep hstep n).owned hk ho with h | ⟨handler, rfl⟩
      · exact hs.owned n h
      · exact hl.inside n rfl
    apply mem_sessions_localStep hs hk hl hstep hmem
    intro hdying
    obtain ⟨hborn, hno⟩ := hl.dying n hdying
    exact hno ((ages_localStep hc hk hstep).owned n hborn ho)

/-! ## The activation that makes a step -/

theorem outside_localStep (hs : SetInv s) (hl : LooksUp a s k) (hstep : LocalStep a s k e s' k')
    (n : ℕ) (hn : k'.outside = some n) : n ∉ s'.sessions := by
  cases hstep with
  | fetchId =>
      obtain rfl := Option.some.inj hn
      exact fun hmem => Nat.lt_irrefl _ (hs.bound _ hmem)
  | insertLock => exact hl.outside n hn
  | drop | release => exact absurd hn (by simp [outside_afterRelease])
  | @destroy m ret =>
      cases ret <;> exact absurd hn (by simp [ReleaseReturn.place, ManagerPlace.outside])
  | _ => exact absurd hn (by simp [ManagerPlace.outside])

theorem inside_localStep (hs : SetInv s) (hk : Shares a s k) (hl : LooksUp a s k)
    (hstep : LocalStep a s k e s' k') (n : ℕ) (hn : k'.inside = some n) : n ∈ s'.sessions := by
  cases hstep with
  | @insert m handler =>
      obtain rfl := Option.some.inj hn
      exact (hs.mem_insert (hk.newborn _ rfl).2.2 (hl.outside _ rfl)).mpr (.inl rfl)
  | insertUnlock => exact hl.inside n hn
  | drop | release => exact absurd hn (by simp [inside_afterRelease])
  | @destroy m ret =>
      cases ret <;> exact absurd hn (by simp [ReleaseReturn.place, ManagerPlace.inside])
  | _ => exact absurd hn (by simp [ManagerPlace.inside])

theorem dying_localStep (hc : Lifecycle s) (hk : Shares a s k) (hl : LooksUp a s k)
    (hstep : LocalStep a s k e s' k') (n : ℕ) (hn : k'.dying = some n) :
    (s'.objects n).born = true ∧ ¬ (s'.objects n).Owned := by
  have hages := ages_localStep hc hk hstep
  cases hstep with
  | drop hrefs =>
      obtain ⟨rfl, hno⟩ := dying_afterRelease hn
      exact ⟨hages.born _ (hc.born _ (.inl hrefs)), hno⟩
  | release =>
      obtain ⟨rfl, hno⟩ := dying_afterRelease hn
      exact ⟨hages.born _ (hc.born _ (hk.owned (.inl rfl))), hno⟩
  | eraseLock => exact hl.dying n hn
  | @destroy m ret =>
      cases ret <;> exact absurd hn (by simp [ReleaseReturn.place, ManagerPlace.dying])
  | _ => exact absurd hn (by simp [ManagerPlace.dying])

theorem started_localStep (hc : Lifecycle s) (hl : LooksUp a s k)
    (hstep : LocalStep a s k e s' k') (m : ℕ) (hm : m ∈ k'.started) :
    (s.objects m).born = true := by
  have howned : ∀ m ∈ s.ownedSessions, (s.objects m).born = true := by
    intro m hm
    exact hc.born m (by simpa using (List.mem_filter.mp hm).2)
  cases hstep with
  | get | foreach => exact howned m hm
  | drop => exact absurd hm (by simp [started_afterRelease, ReleaseReturn.started])
  | release => exact hl.started m (by rwa [started_afterRelease] at hm)
  | @destroy n ret => cases ret <;> exact hl.started m hm
  | connect => exact absurd hm (by simp [ManagerPlace.started, ReleaseReturn.started])
  | getThrows | getUnwind | eachThrows | callbackThrows =>
      exact absurd hm (by simp [ManagerPlace.started, LookupOutcome.started, ReleaseReturn.started])
  | getLock | getFound | getAbsent | getShared | getUnlock | eachLock | eachNext | eachLast
  | eachShared | eachUnlock | eachEnd | keep | goOn | stop | eraseLock | erase | eraseUnlock =>
      exact hl.started m hm
  | _ => exact absurd hm (by simp [ManagerPlace.started])

/-- What a lookup has come to is right in the state before the step, too. -/
theorem right_localStep (hs : SetInv s) (hk : Shares a s k)
    (hl : LooksUp a s k) (hfound : ∀ n, k.looksUp = some n → (s.objects n).Owned)
    (hstep : LocalStep a s k e s' k') : k'.Right s := by
  have hright := hl.right
  cases hstep with
  | foreach => exact ⟨.nil, by simp, rfl, fun _ _ _ => .inr (Nat.zero_le _)⟩
  | drop => exact right_afterRelease trivial
  | release => exact right_afterRelease hright
  | @destroy m ret => cases ret <;> exact hright
  | eraseLock | erase | eraseUnlock | getShared | getUnlock | eachLock | eachShared | eachUnlock
  | eachEnd | keep => exact hright
  | getFound h => exact (OrderedSet.find_eq_some h).2
  | getAbsent h => exact fun m _ ho => OrderedSet.find_eq_none h (hs.owned m ho)
  | getThrows hno | eachThrows hno => exact absurd (hfound _ rfl) hno
  | getUnwind => exact hright
  | eachNext h =>
      obtain ⟨-, hle, hleast⟩ := hs.seek_eq_some h
      refine ⟨hright.sorted, fun m hm => Nat.lt_of_lt_of_le (hright.below m hm) hle, hright.count,
        fun m hm ho => ?_⟩
      exact (hright.covered m hm ho).imp_right (hleast m (hs.owned m ho))
  | eachLast h =>
      refine ⟨hright.sorted, hright.count, fun m hm ho => ?_⟩
      exact (hright.covered m hm ho).resolve_right (seek_eq_none h (hs.owned m ho))
  | goOn =>
      obtain ⟨hsorted, hbelow, hcovered⟩ := hs.calls hright (hk.owned (.inl rfl))
      exact ⟨hsorted, hbelow, by simp [hright.count], hcovered⟩
  | stop =>
      obtain ⟨hsorted, hbelow, hcovered⟩ := hs.calls hright (hk.owned (.inl rfl))
      refine ⟨hsorted, by simp [hright.count], fun m hm ho => ?_⟩
      exact (hcovered m hm ho).imp_right fun hle n hn => Nat.lt_of_lt_of_le (hbelow n hn) hle
  | callbackThrows => trivial
  | _ => trivial

theorem looksUp_localStep (hc : Lifecycle s) (hs : SetInv s) (hk : Shares a s k)
    (hl : LooksUp a s k) (hfound : ∀ n, k.looksUp = some n → (s.objects n).Owned)
    (hstep : LocalStep a s k e s' k') : LooksUp a s' k' := by
  have hages := ages_localStep hc hk hstep
  have hstarted := started_localStep hc hl hstep
  refine ⟨?_, outside_localStep hs hl hstep, inside_localStep hs hk hl hstep,
    dying_localStep hc hk hl hstep, fun m hm => hages.born m (hstarted m hm),
    (right_localStep hs hk hl hfound hstep).age hages hstarted⟩
  · rcases guard_localStep hfound hstep with ⟨hg, hh⟩ | ⟨-, hg, hh⟩ | ⟨-, hg, hh⟩
    · rw [hg, hh]
      exact hl.guard
    · rw [hg, hh]
      exact iff_of_true rfl rfl
    · rw [hg, hh]
      exact iff_of_false (by simp) (by simp)

/-! ## The other activations -/

/-- What a step of another activation leaves. -/
theorem looksUp_other (hc : Lifecycle s) (hs : SetInv s) (hk : Shares a s k) (hl : LooksUp a s k)
    (hb : Shares b s k₂) (hlb : LooksUp b s k₂) (hne : b ≠ a)
    (hfound : ∀ n, k.looksUp = some n → (s.objects n).Owned)
    (hstep : LocalStep a s k e s' k') : LooksUp b s' k₂ := by
  have hages := ages_localStep hc hk hstep
  -- a session in creation has one creator
  have hcreator : ∀ n, k₂.newborn = some n → k.newborn ≠ some n := by
    intro n hn hn'
    have hown := (hk.newborn n hn').1
    rw [(hb.newborn n hn).1] at hown
    exact hne (Option.some.inj hown)
  refine ⟨?_, fun n hn => ?_, fun n hn => ?_, fun n hn => ?_,
    fun m hm => hages.born m (hlb.started m hm), hlb.right.age hages hlb.started⟩
  · have hsome : some a ≠ some b := fun h => hne (Option.some.inj h).symm
    rcases guard_localStep hfound hstep with ⟨hg, -⟩ | ⟨hfree, hg, -⟩ | ⟨hholds, hg, -⟩
    · rw [hg]
      exact hlb.guard
    · rw [hg, ← hlb.guard, hfree]
      exact iff_of_false hsome (by simp)
    · rw [hg, ← hlb.guard, hl.guard.mpr hholds]
      exact iff_of_false (by simp) hsome
  · exact not_mem_sessions_localStep hs hk hl hstep (hlb.outside n hn)
      (hcreator n (newborn_of_outside hn))
  · apply mem_sessions_localStep hs hk hl hstep (hlb.inside n hn)
    intro hdying
    have hborn := (hl.dying n hdying).1
    rw [(hb.newborn n (newborn_of_inside hn)).2.1] at hborn
    exact absurd hborn (by simp)
  · obtain ⟨hborn, hno⟩ := hlb.dying n hn
    exact ⟨hages.born n hborn, fun ho => hno (hages.owned n hborn ho)⟩

end ManagerState

/-- The runs in which lookups come across owned sessions only, and no id is drawn twice. -/
def ownedSystem (T H : Type*) [DecidableEq T] :
    TransitionSystem (SessionManager T H) (T × ManagerEvent H) :=
  (managerSystem T H).restrict fun c e => FoundOwned c e ∧ IdsDistinct c

theorem looksUp [DecidableEq T] {c : SessionManager T H} (hc : (ownedSystem T H).Reachable c) :
    SetInv c.shared ∧ ∀ a, LooksUp a c.shared (c.pc a) := by
  apply hc.interleave_invariant
  · rintro c rfl
    refine ⟨⟨.nil, by simp [SessionManager.initial], by simp [SessionManager.initial, ulongSize],
      by simp [SessionManager.initial, SessionObject.Owned]⟩,
      fun a => ⟨?_, ?_, ?_, ?_, ?_, trivial⟩⟩ <;>
      simp [SessionManager.initial, ManagerPlace.holdsGuard, ManagerPlace.outside,
        ManagerPlace.inside, ManagerPlace.dying, ManagerPlace.started]
  · intro c a e s k hreach hs hl hC hact
    obtain ⟨hfound, hids⟩ := hC
    obtain ⟨hc, hk⟩ := lifecycle hreach
    have hstep := ManagerState.localStep_of_act hact
    exact ⟨ManagerState.setInv_localStep hc hs (hk a) (hl a) hids hstep,
      ManagerState.looksUp_localStep hc hs (hk a) (hl a) hfound hstep, fun b hne =>
        ManagerState.looksUp_other hc hs (hk a) (hl a) (hk b) (hl b) hne hfound hstep⟩

/-- In every run in which the lookups come across owned sessions only, every lookup ends
right and leaves the guard unlocked; the first that comes across a session without an owner
does not. -/
theorem lookups_tolerant [DecidableEq T] (c d : SessionManager T H) (e : T × ManagerEvent H)
    (hc : (ownedSystem T H).Reachable c) (hd : (managerSystem T H).Step c e d)
    (hids : IdsDistinct c) : Tolerant c ∧ (Tolerant d ↔ FoundOwned c e) := by
  have htolerant : ∀ c : SessionManager T H, (ownedSystem T H).Reachable c → Tolerant c := by
    intro c hc
    obtain ⟨-, hk⟩ := lifecycle hc
    obtain ⟨-, hl⟩ := looksUp hc
    refine ⟨fun a => (hl a).guard.mp, fun a outcome ha => ?_, fun a ha => ?_,
      fun a n hn => (hk a).owned (.inl hn)⟩
    · have hright := (hl a).right
      rwa [ha] at hright
    · have hright := (hl a).right
      rwa [ha] at hright
  refine ⟨htolerant c hc, fun hd' => ?_, fun hfound => htolerant d (hc.step ⟨⟨hfound, hids⟩, hd⟩)⟩
  obtain ⟨a, e⟩ := e
  obtain ⟨s', k', hact, rfl⟩ := Config.step_eq_some hd
  have hstep := ManagerState.localStep_of_act hact
  have hpc : (c.move a s' k').pc a = k' := Config.move_pc_self ..
  intro n hn
  change (c.pc a).looksUp = some n at hn
  change ManagerState.LocalStep a c.shared (c.pc a) e s' k' at hstep
  generalize c.pc a = k at hn hstep
  cases hstep with
  | getShared ho | eachShared ho =>
      obtain rfl := Option.some.inj hn
      exact ho
  | getThrows => exact absurd hpc (hd'.unwind a)
  | eachThrows => exact (hd'.outcome a _ hpc).elim
  | _ => exact absurd hn (by simp [ManagerPlace.looksUp])

/-- Activation `a` creates a session. -/
def creation (a : T) : List (T × ManagerEvent Unit) :=
  [(a, .create none), (a, .run), (a, .run), (a, .run), (a, .run), (a, .run), (a, .run), (a, .run),
    (a, .run)]

theorem lookups_tolerant_visit : ∃ c d : SessionManager (Fin 2) Unit,
    (managerSystem (Fin 2) Unit).Step c (0, .run) d ∧
      d.pc 0 = .done (.visited ⟨[1], [1], 1⟩) ∧ Tolerant d := by
  obtain ⟨c, hc, hp⟩ := SessionManager.exists_reachable_of_exec
    (fun (c : SessionManager (Fin 2) Unit) e => FoundOwned c e ∧ IdsDistinct c)
    (creation 1 ++ [(0, .foreach), (0, .run), (0, .run), (0, .run), (0, .run), (0, .answer .true),
      (0, .run), (0, .run), (0, .run)])
    (fun c => decide (c.pc 0 = .eachEnd ⟨[1], [1], 1⟩ ∧ IdsDistinct c)) (by decide +kernel)
  obtain ⟨hk, hids⟩ := of_decide_eq_true hp
  have hd := SessionManager.step_of_access hk rfl
  refine ⟨c, _, hd, Config.move_pc_self .., (lookups_tolerant c _ _ hc hd hids).2.mpr ?_⟩
  intro n hn
  rw [hk] at hn
  exact absurd hn (by simp [ManagerPlace.looksUp])

/-- `foreach` comes across a session that is in the set and not owned by `make_shared` yet; it
throws and leaves the guard locked. -/
theorem not_lookups_tolerant : ¬ ∀ c : SessionManager (Fin 2) Unit,
    (managerSystem (Fin 2) Unit).Reachable c → Tolerant c := by
  intro h
  obtain ⟨c, hc, hp⟩ := SessionManager.exists_reachable_of_exec (fun _ _ => True)
    ((creation (1 : Fin 2)).take 5 ++ [(0, .foreach), (0, .run), (0, .run), (0, .run)])
    (fun c => decide (c.pc 0 = .done .badWeakPtr ∧ c.shared.guard = some 0)) (by decide +kernel)
  obtain ⟨hk, hguard⟩ := of_decide_eq_true hp
  have hholds := (h c hc.of_restrict).guard 0 hguard
  rw [hk] at hholds
  exact absurd hholds (by simp [ManagerPlace.holdsGuard])

end Minapp
