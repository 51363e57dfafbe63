import Minapp.Verification.SessionManager.Lifecycle
import Mathlib.Data.Fintype.Basic

/-! # Sessions are published before they have a handler

A session is in the set, and owned, before its creator has assigned the handler. Every
other session that can be found, used or destroyed has one. -/

namespace Minapp

variable {T H : Type*}

namespace ManagerPlace

/-- The session that a place uses, or that whoever it hands the session out to can use: it
calls the handler, or closes the session. -/
def uses : ManagerPlace H → Option ℕ
  | .connect n | .release n _ | .eraseLock n _ | .erase n _ | .eraseUnlock n _ | .destroy n _
  | .getUnlock _ (some n) | .done (.got _ (some n)) | .eachUnlock _ n | .eachCall _ n => some n
  | _ => none

end ManagerPlace

/-- Every session that is found, used or destroyed, or that the application or an operation
has a `session_ptr` to, has a handler. -/
structure HandlersAssigned (c : SessionManager T H) : Prop where
  uses : ∀ a n, (c.pc a).uses = some n → (c.shared.objects n).handler ≠ none
  refs : ∀ n, 0 < (c.shared.objects n).refs → (c.shared.objects n).handler ≠ none

/-- A session is not looked up between the end of `make_shared` and the assignment. -/
def FoundAssigned (c : SessionManager T H) (e : T × ManagerEvent H) : Prop :=
  ∀ n ∈ (c.pc e.1).looksUp, ∀ b, (c.pc b).assigning ≠ some n

instance [Fintype T] (c : SessionManager T H) (e : T × ManagerEvent H) :
    Decidable (FoundAssigned c e) :=
  inferInstanceAs (Decidable (∀ n ∈ (c.pc e.1).looksUp, ∀ b, (c.pc b).assigning ≠ some n))

/-- An activation, as far as the handlers of the sessions it creates and uses are concerned. -/
structure Publishes (a : T) (s : ManagerState T H) (k : ManagerPlace H) : Prop where
  unassigned : ∀ n, k.newborn = some n ∨ k.assigning = some n → (s.objects n).handler = none
  creating : ∀ n, (s.objects n).creator = some a → (s.objects n).born = true →
    (s.objects n).handler = none → k.assigning = some n
  uses : ∀ n, k.uses = some n → (s.objects n).handler ≠ none

/-- Whoever has a `session_ptr` has one to a session with a handler. -/
def RefsAssigned (s : ManagerState T H) : Prop :=
  ∀ n, 0 < (s.objects n).refs → (s.objects n).handler ≠ none

theorem uses_of_pinned {k : ManagerPlace H} {n : ℕ} (h : k.pinned = some n) :
    k.uses = some n := by
  unfold ManagerPlace.pinned at h
  split at h <;> first | exact h | exact absurd h (by simp)

section ObjectStep

variable {a b : T} {s : ManagerState T H} {k : ManagerPlace H} {n : ℕ} {o : SessionObject T H}

/-- A step that shares a session shares one with a handler. -/
theorem ObjectStep.refs_handler (hr : RefsAssigned s) (hp : Publishes a s k)
    (h : ObjectStep a s k n o) (hpos : 0 < o.refs) : o.handler ≠ none := by
  cases h with
  | counted refs pins hrefs =>
      rcases hrefs hpos with h | h
      · exact hr n h
      · exact hp.uses n (uses_of_pinned h)
  | handled h => simp
  | fetched h => exact absurd hpos (by simp)
  | shared h => exact hr n hpos

/-- A handler is not taken away. -/
theorem ObjectStep.handler (hs : Lifecycle s) (h : ObjectStep a s k n o)
    (hassigned : (s.objects n).handler ≠ none) : o.handler ≠ none := by
  cases h with
  | counted refs pins => exact hassigned
  | handled h => simp
  | fetched h _ hissued =>
      rw [hs.fresh n (Nat.le_of_eq hissued.symm)] at hassigned
      exact absurd rfl hassigned
  | shared h => exact hassigned

/-- Only its creator gives a session its first handler. -/
theorem ObjectStep.unassigned (hr : RefsAssigned s) (hk : Shares a s k) (h : ObjectStep a s k n o)
    (hne : b ≠ a) (hcreator : (s.objects n).creator = some b)
    (hhandler : (s.objects n).handler = none) : o.handler = none := by
  cases h with
  | counted refs pins => exact hhandler
  | handled h hcase =>
      rcases hcase with hcase | hcase
      · exact absurd hhandler (hr n hcase)
      · have hown := (hk.assigning n (by rw [hcase]; rfl)).1
        rw [hown] at hcreator
        exact absurd (Option.some.inj hcreator).symm hne
  | fetched h => rfl
  | shared h => exact hhandler

/-- A session that is owned after a step, and has no handler then, was so before, or is
owned by this step. -/
theorem ObjectStep.creating (h : ObjectStep a s k n o) (hborn : o.born = true)
    (hhandler : o.handler = none) :
    o.creator = (s.objects n).creator ∧ (s.objects n).handler = none ∧
      ((s.objects n).born = true ∨ ∃ h, k = .makeShared n h) := by
  cases h with
  | counted refs pins => exact ⟨rfl, hhandler, .inl hborn⟩
  | handled h => exact absurd hhandler (by simp)
  | fetched h => exact absurd hborn (by simp)
  | shared h hkn => exact ⟨rfl, hhandler, .inr ⟨h, hkn⟩⟩

end ObjectStep

namespace ManagerState

/-- Where a released session leads, it is used. -/
theorem uses_afterRelease {s : ManagerState T H} {ret : ReleaseReturn} {m n : ℕ} :
    (s.afterRelease n ret).uses = some m → m = n := by
  refine afterRelease_cases (P := fun k => k.uses = some m → m = n) (fun _ h => ?_) fun _ h => ?_
  · cases ret <;> exact absurd h (by simp [ReleaseReturn.place, ManagerPlace.uses])
  · exact (Option.some.inj h).symm

variable [DecidableEq T] {a b : T} {s s' : ManagerState T H} {k k' k₂ : ManagerPlace H}
  {e : ManagerEvent H} {n : ℕ}

theorem unassigned_localStep (hp : Publishes a s k) (hstep : LocalStep a s k e s' k') (n : ℕ)
    (hn : k'.newborn = some n ∨ k'.assigning = some n) : (s'.objects n).handler = none := by
  cases hstep with
  | fetchId =>
      rcases hn with hn | hn
      · obtain rfl := Option.some.inj hn
        simp
      · exact absurd hn (by simp [ManagerPlace.assigning])
  | insertLock | insert | insertUnlock =>
      rcases hn with hn | hn
      · exact hp.unassigned n (.inl hn)
      · exact absurd hn (by simp [ManagerPlace.assigning])
  | makeShared =>
      rcases hn with hn | hn
      · exact absurd hn (by simp [ManagerPlace.newborn])
      · obtain rfl := Option.some.inj hn
        simpa using hp.unassigned _ (.inl rfl)
  | drop | release | destroy => exact absurd hn (by simp)
  | _ => exact absurd hn (by simp [ManagerPlace.newborn, ManagerPlace.assigning])

theorem creating_localStep (hk : Shares a s k) (hp : Publishes a s k)
    (hstep : LocalStep a s k e s' k') (n : ℕ) (hcreator : (s'.objects n).creator = some a)
    (hborn : (s'.objects n).born = true) (hhandler : (s'.objects n).handler = none) :
    k'.assigning = some n := by
  obtain ⟨hsame, hbefore, hborn | ⟨h, rfl⟩⟩ :=
    (objectStep_localStep hstep n).creating hborn hhandler
  · -- the activation was about to assign the handler, and has done so
    have hassigning := hp.creating n (hsame.symm.trans hcreator) hborn hbefore
    cases hstep with
    | assignHandler =>
        obtain rfl := Option.some.inj hassigning
        simp at hhandler
    | _ => exact absurd hassigning (by simp [ManagerPlace.assigning])
  · cases hstep
    rfl

theorem uses_localStep (hr : RefsAssigned s) (hp : Publishes a s k)
    (hfound : ∀ n, k.looksUp = some n → (s.objects n).Owned → (s.objects n).handler ≠ none)
    (hstep : LocalStep a s k e s' k') (n : ℕ) (hn : k'.uses = some n) :
    (s'.objects n).handler ≠ none := by
  cases hstep with
  | drop hrefs =>
      obtain rfl := uses_afterRelease hn
      simpa [dropRef] using hr _ hrefs
  | assignHandler =>
      obtain rfl := Option.some.inj hn
      simp
  | connect | keep =>
      obtain rfl := Option.some.inj hn
      simpa [addRef] using hp.uses _ rfl
  | release =>
      obtain rfl := uses_afterRelease hn
      simpa [unpin] using hp.uses _ rfl
  | getShared ho | eachShared ho =>
      obtain rfl := Option.some.inj hn
      simpa [pin] using hfound _ rfl ho
  | @destroy m ret =>
      cases ret <;> exact absurd hn (by simp [ReleaseReturn.place, ManagerPlace.uses])
  | eraseLock | erase | eraseUnlock | eachUnlock | goOn | stop | callbackThrows =>
      exact hp.uses n hn
  | @getUnlock query result =>
      cases result with
      | none => exact absurd hn (by simp [ManagerPlace.uses])
      | some m => exact hp.uses n hn
  | _ => exact absurd hn (by simp [ManagerPlace.uses])

theorem publishes_other (hs : Lifecycle s) (hr : RefsAssigned s) (hk : Shares a s k)
    (hb : Shares b s k₂) (hp : Publishes b s k₂) (hne : b ≠ a) (hstep : LocalStep a s k e s' k') :
    Publishes b s' k₂ := by
  have hobject := objectStep_localStep hstep
  refine ⟨fun n hn => ?_, fun n hcreator hborn hhandler => ?_, fun n hn => ?_⟩
  · have hcreator : (s.objects n).creator = some b :=
      hn.elim (fun h => (hb.newborn n h).1) fun h => (hb.assigning n h).1
    exact (hobject n).unassigned hr hk hne hcreator (hp.unassigned n hn)
  · obtain ⟨hsame, hbefore, hborn | ⟨h, hkn⟩⟩ := (hobject n).creating hborn hhandler
    · exact hp.creating n (hsame.symm.trans hcreator) hborn hbefore
    · have hown := (hk.newborn n (by rw [hkn]; rfl)).1
      rw [hsame, hown] at hcreator
      exact absurd (Option.some.inj hcreator).symm hne
  · exact (hobject n).handler hs (hp.uses n hn)

end ManagerState

/-- The runs in which no session is looked up between the end of `make_shared` and the
assignment of its handler. -/
def publishedSystem (T H : Type*) [DecidableEq T] :
    TransitionSystem (SessionManager T H) (T × ManagerEvent H) :=
  (managerSystem T H).restrict FoundAssigned

/-- A session that is found has a handler, unless its creator is about to assign it. -/
theorem handler_of_found {c : SessionManager T H} (hs : Lifecycle c.shared)
    (hp : ∀ a, Publishes a c.shared (c.pc a)) {n : ℕ} (howned : (c.shared.objects n).Owned)
    (hno : ∀ b, (c.pc b).assigning ≠ some n) : (c.shared.objects n).handler ≠ none := by
  intro hhandler
  have hborn := hs.born n howned
  obtain ⟨b, hb⟩ := Option.ne_none_iff_exists'.mp (hs.created n hborn)
  exact hno b ((hp b).creating n hb hborn hhandler)

theorem publishes [DecidableEq T] {c : SessionManager T H}
    (hc : (publishedSystem T H).Reachable c) :
    RefsAssigned c.shared ∧ ∀ a, Publishes a c.shared (c.pc a) := by
  apply hc.interleave_invariant
  · rintro c rfl
    refine ⟨?_, fun a => ⟨?_, ?_, ?_⟩⟩ <;>
      simp [RefsAssigned, SessionManager.initial, ManagerPlace.newborn, ManagerPlace.assigning,
        ManagerPlace.uses]
  · intro c a e s k hreach hr hp hfound hact
    obtain ⟨hs, hl⟩ := lifecycle hreach
    have hstep := ManagerState.localStep_of_act hact
    refine ⟨fun n => (ManagerState.objectStep_localStep hstep n).refs_handler hr (hp a),
      ⟨ManagerState.unassigned_localStep (hp a) hstep,
        ManagerState.creating_localStep (hl a) (hp a) hstep,
        ManagerState.uses_localStep hr (hp a) (fun n hn ho => ?_) hstep⟩, fun b hne => ?_⟩
    · exact handler_of_found hs hp ho (hfound n hn)
    · exact ManagerState.publishes_other hs hr (hl a) (hl b) (hp b) hne hstep

/-- In every run in which no lookup falls between the end of `make_shared` and the assignment
of the handler, every session that is handed out, used or destroyed has a handler; the first
lookup that does hands out a session without one. -/
theorem published_with_handler [DecidableEq T] (c d : SessionManager T H) (e : T × ManagerEvent H)
    (hc : (publishedSystem T H).Reachable c) (hd : (managerSystem T H).Step c e d) :
    HandlersAssigned c ∧ (HandlersAssigned d ↔ FoundAssigned c e) := by
  have hassigned : ∀ c : SessionManager T H, (publishedSystem T H).Reachable c →
      HandlersAssigned c := by
    intro c hc
    obtain ⟨hr, hp⟩ := publishes hc
    exact ⟨fun a => (hp a).uses, hr⟩
  refine ⟨hassigned c hc, fun hd' => ?_, fun hfound => hassigned d (hc.step ⟨hfound, hd⟩)⟩
  obtain ⟨-, hl⟩ := lifecycle hc
  obtain ⟨-, hp⟩ := publishes hc
  obtain ⟨a, e⟩ := e
  obtain ⟨s', k', hact, rfl⟩ := Config.step_eq_some hd
  have hstep := ManagerState.localStep_of_act hact
  -- the session is owned by its creator, so it is handed out
  intro n hn b hb
  have hhandler := (hp b).unassigned n (.inr hb)
  have howned := (hl b).owned (.inr hb)
  obtain ⟨hk', hs'⟩ : k'.uses = some n ∧ (s'.objects n).handler = none := by
    change (c.pc a).looksUp = some n at hn
    change ManagerState.LocalStep a c.shared (c.pc a) e s' k' at hstep
    generalize c.pc a = k at hn hstep
    cases hstep with
    | getShared | eachShared =>
        obtain rfl := Option.some.inj hn
        exact ⟨rfl, by simpa [ManagerState.pin] using hhandler⟩
    | getThrows hno | eachThrows hno =>
        obtain rfl := Option.some.inj hn
        exact absurd howned hno
    | _ => exact absurd hn (by simp [ManagerPlace.looksUp])
  exact hd'.uses a n (by rw [Config.move_pc_self]; exact hk') hs'

/-- Activation 1 creates a session, up to the assignment of its handler. -/
def createSession (a : T) : List (T × ManagerEvent Unit) :=
  [(a, .create none), (a, .run), (a, .run), (a, .run), (a, .run), (a, .run)]

theorem published_with_handler_get : ∃ c d : SessionManager (Fin 2) Unit,
    (managerSystem (Fin 2) Unit).Step c (0, .run) d ∧
      d.pc 0 = .getUnlock ⟨[1], 1⟩ (some 1) ∧ (d.shared.objects 1).handler ≠ none := by
  obtain ⟨c, hc, hp⟩ := SessionManager.exists_reachable_of_exec
    (FoundAssigned (T := Fin 2) (H := Unit))
    (createSession (1 : Fin 2) ++ [(1, .run), (0, .get 1), (0, .run), (0, .run)])
    (fun c => decide (c.pc 0 = .getShared ⟨[1], 1⟩ 1 ∧ (c.shared.objects 1).Owned ∧
      ∀ b, (c.pc b).assigning = none)) (by decide +kernel)
  obtain ⟨hk, howned, hno⟩ := of_decide_eq_true hp
  have hget : c.shared.access 0 (.getShared ⟨[1], 1⟩ 1) =
      some (c.shared.pin 0 1, .getUnlock ⟨[1], 1⟩ (some 1)) := by
    simp only [ManagerState.access, ManagerState.sharedFromThis, if_pos howned]
  have hd := SessionManager.step_of_access hk hget
  have hassigned := (published_with_handler c _ _ hc hd).2.mpr fun n _ b hb => by
    rw [hno b] at hb
    exact absurd hb (by simp)
  have hplace : (c.move 0 (c.shared.pin 0 1) (.getUnlock ⟨[1], 1⟩ (some 1))).pc 0 =
      .getUnlock ⟨[1], 1⟩ (some 1) := Config.move_pc_self ..
  exact ⟨c, _, hd, hplace, hassigned.uses 0 1 (by rw [hplace]; rfl)⟩

/-- The session is looked up while its creator has not assigned the handler. -/
theorem not_published_with_handler : ¬ ∀ (c : SessionManager (Fin 2) Unit) (a : Fin 2)
    (query : Query) (n : ℕ), (managerSystem (Fin 2) Unit).Reachable c →
      c.pc a = .done (.got query (some n)) → (c.shared.objects n).handler ≠ none := by
  intro h
  obtain ⟨c, hc, hp⟩ := SessionManager.exists_reachable_of_exec (fun _ _ => True)
    (createSession (1 : Fin 2) ++ [(0, .get 1), (0, .run), (0, .run), (0, .run), (0, .run)])
    (fun c => decide (c.pc 0 = .done (.got ⟨[1], 1⟩ (some 1)) ∧
      (c.shared.objects 1).handler = none)) (by decide +kernel)
  obtain ⟨hk, hhandler⟩ := of_decide_eq_true hp
  exact h c 0 _ 1 hc.of_restrict hk hhandler

end Minapp
