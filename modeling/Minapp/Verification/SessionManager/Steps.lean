import Minapp.Model.SessionManager

/-! Everything a step of a manager activation can be. -/

namespace Minapp

namespace ManagerState

variable {T H : Type*}

@[simp] theorem objects_setObject_self (s : ManagerState T H) (n : ℕ) (o : SessionObject T H) :
    (s.setObject n o).objects n = o := Function.update_self ..

theorem objects_setObject_of_ne (s : ManagerState T H) {m n : ℕ} (h : m ≠ n)
    (o : SessionObject T H) : (s.setObject n o).objects m = s.objects m :=
  Function.update_of_ne h ..

theorem lock_eq_some {a : T} {s s' : ManagerState T H} {k k' : ManagerPlace H}
    (h : s.lock a k = some (s', k')) :
    s.guard = none ∧ s' = { s with guard := some a } ∧ k' = k := by
  unfold lock at h
  split at h
  · obtain ⟨rfl, rfl⟩ := Prod.mk.inj (Option.some.inj h)
    exact ⟨‹_›, rfl, rfl⟩
  · exact absurd h (by simp)

variable [DecidableEq T]

/-- The transitions of an activation, with the state and the place each leads to. -/
inductive LocalStep (a : T) (s : ManagerState T H) :
    ManagerPlace H → ManagerEvent H → ManagerState T H → ManagerPlace H → Prop where
  | create {h} : LocalStep a s .idle (.create h) s (.fetchId (.wrap h))
  | elsewhere : LocalStep a s .idle .elsewhere { s with issued := s.issued + 1 } .idle
  | get {id} : LocalStep a s .idle (.get id) s (.getLock ⟨s.ownedSessions, id⟩)
  | foreach : LocalStep a s .idle .foreach s (.eachLock { started := s.ownedSessions } none)
  | copy {n} : 0 < (s.objects n).refs → LocalStep a s .idle (.copy n) (s.addRef n) .idle
  | drop {n} : 0 < (s.objects n).refs →
      LocalStep a s .idle (.drop n) (s.dropRef n) ((s.dropRef n).afterRelease n .idle)
  | handler {n h} : 0 < (s.objects n).refs → LocalStep a s .idle (.handler n h)
      (s.setObject n { s.objects n with handler := some (.wrap h) }) .idle
  | fetchId {h} : LocalStep a s (.fetchId h) .run
      { s.setObject s.issued { creator := some a } with issued := s.issued + 1 }
      (.insertLock s.issued h)
  | insertLock {n h} : s.guard = none →
      LocalStep a s (.insertLock n h) .run { s with guard := some a } (.insert n h)
  | insert {n h} : LocalStep a s (.insert n h) .run
      { s with sessions := OrderedSet.insert sessionId n s.sessions } (.insertUnlock n h)
  | insertUnlock {n h} :
      LocalStep a s (.insertUnlock n h) .run { s with guard := none } (.makeShared n h)
  | makeShared {n h} : LocalStep a s (.makeShared n h) .run
      (s.setObject n { s.objects n with pins := [a], born := true }) (.assignHandler n h)
  | assignHandler {n h} : LocalStep a s (.assignHandler n h) .run
      (s.setObject n { s.objects n with handler := some h }) (.connect n)
  | connect {n} : LocalStep a s (.connect n) .run (s.addRef n) (.release n .idle)
  | release {n ret} :
      LocalStep a s (.release n ret) .run (s.unpin a n) ((s.unpin a n).afterRelease n ret)
  | eraseLock {n ret} : s.guard = none →
      LocalStep a s (.eraseLock n ret) .run { s with guard := some a } (.erase n ret)
  | erase {n ret} : LocalStep a s (.erase n ret) .run
      { s with sessions := s.sessions.erase n } (.eraseUnlock n ret)
  | eraseUnlock {n ret} :
      LocalStep a s (.eraseUnlock n ret) .run { s with guard := none } (.destroy n ret)
  | destroy {n ret} : LocalStep a s (.destroy n ret) .run s ret.place
  | getLock {query} : s.guard = none →
      LocalStep a s (.getLock query) .run { s with guard := some a } (.getFind query)
  | getFound {query n} : OrderedSet.find sessionId query.id s.sessions = some n →
      LocalStep a s (.getFind query) .run s (.getShared query n)
  | getAbsent {query} : OrderedSet.find sessionId query.id s.sessions = none →
      LocalStep a s (.getFind query) .run s (.getUnlock query none)
  | getShared {query n} : (s.objects n).Owned →
      LocalStep a s (.getShared query n) .run (s.pin a n) (.getUnlock query (some n))
  | getThrows {query n} : ¬ (s.objects n).Owned →
      LocalStep a s (.getShared query n) .run s .getUnwind
  | getUnlock {query result} : LocalStep a s (.getUnlock query result) .run
      { s with guard := none } (.done (.got query result))
  | getUnwind : LocalStep a s .getUnwind .run { s with guard := none } (.done .badWeakPtr)
  | eachLock {visit after} : s.guard = none →
      LocalStep a s (.eachLock visit after) .run { s with guard := some a } (.eachSeek visit after)
  | eachNext {visit after n} : s.seek after = some n →
      LocalStep a s (.eachSeek visit after) .run s (.eachShared visit n)
  | eachLast {visit after} : s.seek after = none →
      LocalStep a s (.eachSeek visit after) .run s (.eachEnd visit)
  | eachShared {visit n} : (s.objects n).Owned →
      LocalStep a s (.eachShared visit n) .run (s.pin a n) (.eachUnlock visit n)
  | eachThrows {visit n} : ¬ (s.objects n).Owned →
      LocalStep a s (.eachShared visit n) .run s (.done .badWeakPtr)
  | eachUnlock {visit n} :
      LocalStep a s (.eachUnlock visit n) .run { s with guard := none } (.eachCall visit n)
  | eachEnd {visit} :
      LocalStep a s (.eachEnd visit) .run { s with guard := none } (.done (.visited visit))
  | gotSession {query n} : LocalStep a s (.done (.got query (some n))) .run
      ((s.unpin a n).addRef n) .idle
  | doneElse {outcome} : (∀ query n, outcome ≠ .got query (some n)) →
      LocalStep a s (.done outcome) .run s .idle
  | keep {visit n} :
      LocalStep a s (.eachCall visit n) .keep (s.addRef n) (.eachCall visit n)
  | goOn {visit n} : LocalStep a s (.eachCall visit n) (.answer .true) s
      (.release n (.next { visit with
        calls := visit.calls ++ [n], count := visit.count + 1 } (sessionId n)))
  | stop {visit n} : LocalStep a s (.eachCall visit n) (.answer .false) s
      (.release n (.stopped { visit with calls := visit.calls ++ [n] }))
  | callbackThrows {visit n} : LocalStep a s (.eachCall visit n) (.answer .throws) s
      (.release n .callbackThrew)

variable {a : T} {s s' : ManagerState T H} {k k' : ManagerPlace H} {e : ManagerEvent H}

theorem localStep_of_access (h : s.access a k = some (s', k')) : LocalStep a s k .run s' k' := by
  cases k with
  | insertLock n handler =>
      obtain ⟨hg, rfl, rfl⟩ := lock_eq_some h
      exact .insertLock hg
  | eraseLock n ret =>
      obtain ⟨hg, rfl, rfl⟩ := lock_eq_some h
      exact .eraseLock hg
  | getLock query =>
      obtain ⟨hg, rfl, rfl⟩ := lock_eq_some h
      exact .getLock hg
  | eachLock visit after =>
      obtain ⟨hg, rfl, rfl⟩ := lock_eq_some h
      exact .eachLock hg
  | getFind query =>
      simp only [access] at h
      split at h <;> obtain ⟨rfl, rfl⟩ := Prod.mk.inj (Option.some.inj h)
      · exact .getFound ‹_›
      · exact .getAbsent ‹_›
  | getShared query n =>
      simp only [access, sharedFromThis] at h
      by_cases ho : (s.objects n).Owned
      · rw [if_pos ho] at h
        obtain ⟨rfl, rfl⟩ := Prod.mk.inj (Option.some.inj h)
        exact .getShared ho
      · rw [if_neg ho] at h
        obtain ⟨rfl, rfl⟩ := Prod.mk.inj (Option.some.inj h)
        exact .getThrows ho
  | eachSeek visit after =>
      simp only [access] at h
      split at h <;> obtain ⟨rfl, rfl⟩ := Prod.mk.inj (Option.some.inj h)
      · exact .eachNext ‹_›
      · exact .eachLast ‹_›
  | eachShared visit n =>
      simp only [access, sharedFromThis] at h
      by_cases ho : (s.objects n).Owned
      · rw [if_pos ho] at h
        obtain ⟨rfl, rfl⟩ := Prod.mk.inj (Option.some.inj h)
        exact .eachShared ho
      · rw [if_neg ho] at h
        obtain ⟨rfl, rfl⟩ := Prod.mk.inj (Option.some.inj h)
        exact .eachThrows ho
  | done outcome =>
      cases outcome with
      | got query result =>
          cases result <;> obtain ⟨rfl, rfl⟩ := Prod.mk.inj (Option.some.inj h)
          · exact .doneElse (by simp)
          · exact .gotSession
      | _ =>
          obtain ⟨rfl, rfl⟩ := Prod.mk.inj (Option.some.inj h)
          exact .doneElse (by simp)
  | idle | eachCall visit n => exact absurd h (by simp [access])
  | _ =>
      obtain ⟨rfl, rfl⟩ := Prod.mk.inj (Option.some.inj h)
      constructor

theorem localStep_of_act (h : s.act a k e = some (s', k')) : LocalStep a s k e s' k' := by
  cases e with
  | create handler | elsewhere | get id | foreach =>
      cases k <;> simp only [act, Bool.false_eq_true, if_false, if_true, reduceCtorEq] at h
      obtain ⟨rfl, rfl⟩ := Prod.mk.inj (Option.some.inj h)
      constructor
  | copy n | drop n | handler n handler =>
      cases k <;> simp only [act, Bool.false_eq_true, false_and, if_false, reduceCtorEq] at h
      split at h
      · rename_i hc
        obtain ⟨rfl, rfl⟩ := Prod.mk.inj (Option.some.inj h)
        constructor
        exact hc.2
      · exact absurd h (by simp)
  | run => exact localStep_of_access h
  | keep =>
      cases k <;> simp only [act, reduceCtorEq] at h
      obtain ⟨rfl, rfl⟩ := Prod.mk.inj (Option.some.inj h)
      exact .keep
  | answer result =>
      cases k <;> simp only [act, reduceCtorEq] at h
      cases result <;> obtain ⟨rfl, rfl⟩ := Prod.mk.inj (Option.some.inj h) <;> constructor

end ManagerState

namespace ManagerPlace

variable {H : Type*}

/-- The session that a place is about to make owned. -/
def newborn : ManagerPlace H → Option ℕ
  | .insertLock n _ | .insert n _ | .insertUnlock n _ | .makeShared n _ => some n
  | _ => none

/-- The session whose handler a place is about to assign. -/
def assigning : ManagerPlace H → Option ℕ
  | .assignHandler n _ => some n
  | _ => none

/-- The session that a place has a `session_ptr` of its own to, which it passes on or drops. -/
def pinned : ManagerPlace H → Option ℕ
  | .connect n | .release n _ | .getUnlock _ (some n) | .done (.got _ (some n))
  | .eachUnlock _ n | .eachCall _ n => some n
  | _ => none

/-- The entry that `get` or `foreach` is about to share. -/
def looksUp : ManagerPlace H → Option ℕ
  | .getShared _ n | .eachShared _ n => some n
  | _ => none

end ManagerPlace

/-! A place that a release goes on at has nothing to do with a session any more. -/

section ReleaseReturn

variable {T H : Type*} (s : ManagerState T H) (n : ℕ) (ret : ReleaseReturn)

@[simp] theorem ReleaseReturn.newborn_place : (ret.place : ManagerPlace H).newborn = none := by
  cases ret <;> rfl

@[simp] theorem ReleaseReturn.assigning_place : (ret.place : ManagerPlace H).assigning = none := by
  cases ret <;> rfl

@[simp] theorem ReleaseReturn.pinned_place : (ret.place : ManagerPlace H).pinned = none := by
  cases ret <;> rfl

variable {s n ret}

/-- A released session is left to its other owners, or destroyed. -/
theorem ManagerState.afterRelease_cases {P : ManagerPlace H → Prop}
    (hret : (s.objects n).Owned → P ret.place)
    (herase : ¬ (s.objects n).Owned → P (.eraseLock n ret)) : P (s.afterRelease n ret) := by
  rw [afterRelease]
  split
  · exact hret ‹_›
  · exact herase ‹_›

@[simp] theorem ManagerState.newborn_afterRelease : (s.afterRelease n ret).newborn = none :=
  afterRelease_cases (P := fun k => k.newborn = none) (fun _ => ret.newborn_place) fun _ => rfl

@[simp] theorem ManagerState.assigning_afterRelease : (s.afterRelease n ret).assigning = none :=
  afterRelease_cases (P := fun k => k.assigning = none) (fun _ => ret.assigning_place) fun _ => rfl

@[simp] theorem ManagerState.pinned_afterRelease : (s.afterRelease n ret).pinned = none :=
  afterRelease_cases (P := fun k => k.pinned = none) (fun _ => ret.pinned_place) fun _ => rfl

end ReleaseReturn

/-- What a step can do to the session `n`. -/
inductive ObjectStep {T H : Type*} (a : T) (s : ManagerState T H) (k : ManagerPlace H) (n : ℕ) :
    SessionObject T H → Prop where
  | counted (refs : ℕ) (pins : List T) :
      (0 < refs → 0 < (s.objects n).refs ∨ k.pinned = some n) →
      (0 < refs ∨ pins ≠ [] → (s.objects n).Owned ∨ k.pinned = some n) →
      (∀ b, b ≠ a → b ∈ (s.objects n).pins → b ∈ pins) →
      ObjectStep a s k n { s.objects n with refs, pins }
  | handled (h : Handler H) : 0 < (s.objects n).refs ∨ k = .assignHandler n h →
      ObjectStep a s k n { s.objects n with handler := some h }
  | fetched (h : Handler H) : k = .fetchId h → n = s.issued →
      ObjectStep a s k n { creator := some a }
  | shared (h : Handler H) : k = .makeShared n h →
      ObjectStep a s k n { s.objects n with pins := [a], born := true }

namespace ManagerState

variable {T H : Type*} {a : T} {s s' : ManagerState T H} {k k' : ManagerPlace H}
  {e : ManagerEvent H} {m n : ℕ}

theorem objectStep_same : ObjectStep a s k n (s.objects n) :=
  .counted (s.objects n).refs (s.objects n).pins .inl .inl fun _ _ h => h

theorem objectStep_setObject {o : SessionObject T H} (h : ObjectStep a s k m o) :
    ObjectStep a s k n ((s.setObject m o).objects n) := by
  rcases eq_or_ne n m with rfl | hne
  · rw [objects_setObject_self]
    exact h
  · rw [objects_setObject_of_ne s hne]
    exact objectStep_same

theorem objectStep_addRef (h : 0 < (s.objects m).refs ∨ k.pinned = some m) :
    ObjectStep a s k n ((s.addRef m).objects n) :=
  objectStep_setObject (.counted _ _ (fun _ => h) (fun _ => h.imp_left .inl) fun _ _ hb => hb)

theorem objectStep_pin (h : (s.objects m).Owned) : ObjectStep a s k n ((s.pin a m).objects n) :=
  objectStep_setObject (.counted _ _ .inl (fun _ => .inl h) fun _ _ hb => List.mem_cons_of_mem a hb)

variable [DecidableEq T]

theorem objectStep_unpin (h : k.pinned = some m) :
    ObjectStep a s k n ((s.unpin a m).objects n) :=
  objectStep_setObject (.counted _ _ .inl (fun _ => .inr h) fun _ hne hb =>
    (List.mem_erase_of_ne hne).mpr hb)

theorem objectStep_localStep (hstep : LocalStep a s k e s' k') (n : ℕ) :
    ObjectStep a s k n (s'.objects n) := by
  cases hstep with
  | copy h => exact objectStep_addRef (.inl h)
  | drop h =>
      exact objectStep_setObject
        (.counted _ _ (fun _ => .inl h) (fun _ => .inl (.inl h)) fun _ _ hb => hb)
  | handler h => exact objectStep_setObject (.handled _ (.inl h))
  | fetchId => exact objectStep_setObject (.fetched _ rfl rfl)
  | makeShared => exact objectStep_setObject (.shared _ rfl)
  | assignHandler => exact objectStep_setObject (.handled _ (.inr rfl))
  | connect | keep => exact objectStep_addRef (.inr rfl)
  | release => exact objectStep_unpin rfl
  | getShared h | eachShared h => exact objectStep_pin h
  | @gotSession query m =>
      rcases eq_or_ne n m with rfl | hne
      · simp only [unpin, addRef, objects_setObject_self]
        exact .counted _ _ (fun _ => .inr rfl) (fun _ => .inr rfl)
          fun _ hne hb => (List.mem_erase_of_ne hne).mpr hb
      · simp only [unpin, addRef, objects_setObject_of_ne _ hne]
        exact objectStep_same
  | _ => exact objectStep_same

end ManagerState

namespace SessionManager

variable {T H : Type*} [DecidableEq T]

/-- The step of an activation that makes its next access. -/
theorem step_of_access {c : SessionManager T H} {a : T} {s' : ManagerState T H}
    {k k' : ManagerPlace H} (hk : c.pc a = k) (h : c.shared.access a k = some (s', k')) :
    (managerSystem T H).Step c (a, .run) (c.move a s' k') := by
  change Option.map _ (c.shared.access a (c.pc a)) = _
  rw [hk, h]
  rfl

/-- A property of the manager an execution ends in, each step of which meets `C`. -/
theorem exists_reachable_of_exec (C : SessionManager T H → T × ManagerEvent H → Prop)
    [∀ c e, Decidable (C c e)] (es : List (T × ManagerEvent H)) (p : SessionManager T H → Bool)
    (h : (TransitionSystem.exec (TransitionSystem.guardedStep C (Config.step ManagerState.act))
      (initial T H) es).map p = some true) :
    ∃ c, ((managerSystem T H).restrict C).Reachable c ∧ p c = true := by
  obtain ⟨c, hr, hp⟩ := TransitionSystem.exists_run_restrict_of_exec C (· = initial T H) _ _ es p h
  exact ⟨c, ⟨_, es, rfl, hr⟩, hp⟩

end SessionManager

end Minapp
