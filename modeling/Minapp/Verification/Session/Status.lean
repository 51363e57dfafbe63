import Minapp.Verification.Session.Steps

/-! # The status of a session

The status only moves forward, except that a connect callback stores `connected`
whatever the status has become since the operation was started. -/

namespace Minapp

variable {T β : Type*}

/-- A step keeps the order of the status diagram; `protocol::none` goes back from reading. -/
def MovesForward (c : Session T β) (e : T × SessionEvent β) (d : Session T β) : Prop :=
  c.shared.status ≤ d.shared.status ∨
    c.pc e.1 = .readNone ∧ c.shared.status = .reading ∧ d.shared.status = .connected

/-- The store of a connect callback finds the session still connecting. -/
def ConnectsInTime (c : Session T β) (e : T × SessionEvent β) : Prop :=
  c.pc e.1 = .storeConnected → c.shared.status = .connecting

instance [DecidableEq β] (c : Session T β) (e : T × SessionEvent β) :
    Decidable (ConnectsInTime c e) := inferInstanceAs (Decidable (_ → _))

/-- Nothing has taken the session out of `connecting` by connecting it. -/
def Status.Unconnected (s : Status) : Prop := s ≠ .connected ∧ s ≠ .reading

/-- What is to come of the creator's call of `connect`. -/
def SessionState.toConnect (s : SessionState T β) : ℕ := s.creating.toNat + s.connects

/-- There is one call of `connect`, at most one operation of it and one store after it. -/
structure ConnectInv (c : Session T β) : Prop where
  once : c.shared.toConnect ≤ 1
  pending : 0 < c.shared.toConnect →
    c.shared.status.Unconnected ∧ ∀ a, c.pc a ≠ .storeConnected
  storing : ∀ a, c.pc a = .storeConnected →
    c.shared.status.Unconnected ∧ ∀ b, c.pc b = .storeConnected → b = a

/-- Moving to another place than the store, without reconnecting, keeps the invariant. -/
theorem ConnectInv.move [DecidableEq T] {c : Session T β} {a : T} {s' : SessionState T β}
    {k' : Place β} (hc : ConnectInv c) (hconnects : s'.toConnect ≤ c.shared.toConnect)
    (hstatus : c.shared.status.Unconnected → s'.status.Unconnected) (hk' : k' ≠ .storeConnected) :
    ConnectInv (c.move a s' k') := by
  have hplace : ∀ b, (c.move a s' k').pc b = .storeConnected → c.pc b = .storeConnected := by
    intro b hb
    rcases eq_or_ne b a with rfl | hne
    · rw [Config.move_pc_self] at hb
      exact absurd hb hk'
    · rwa [Config.move_pc_of_ne c hne] at hb
  refine ⟨Nat.le_trans hconnects hc.once, ?_, ?_⟩
  · intro hpos
    obtain ⟨hs, hp⟩ := hc.pending (Nat.lt_of_lt_of_le hpos hconnects)
    exact ⟨hstatus hs, fun b hb => hp b (hplace b hb)⟩
  · intro b hb
    obtain ⟨hs, hu⟩ := hc.storing b (hplace b hb)
    exact ⟨hstatus hs, fun d hd => hu d (hplace d hd)⟩

/-- What was to come of the call is the store: its activation is the only one to make it. -/
theorem ConnectInv.store [DecidableEq T] {c : Session T β} {a : T} {s' : SessionState T β}
    (hc : ConnectInv c) (hconnects : s'.toConnect < c.shared.toConnect)
    (hstatus : s'.status = c.shared.status) : ConnectInv (c.move a s' .storeConnected) := by
  have honce := hc.once
  obtain ⟨hs, hp⟩ := hc.pending (by omega)
  have hother : ∀ b, (c.move a s' .storeConnected).pc b = .storeConnected → b = a := by
    intro b hb
    by_contra hne
    rw [Config.move_pc_of_ne c hne] at hb
    exact hp b hb
  refine ⟨by simp only [Config.move_shared]; omega, ?_, ?_⟩
  · intro hpos
    simp only [Config.move_shared] at hpos
    omega
  · intro b hb
    rw [Config.move_shared, hstatus]
    exact ⟨hs, fun d hd => (hother d hd).trans (hother b hb).symm⟩

namespace Session

open SessionState

variable {c : Session T β} {a : T} {s' : SessionState T β} {k k' : Place β} {e : SessionEvent β}

theorem target_unconnected (call : CloseCall) : call.target.Unconnected := by
  rw [CloseCall.target]
  split <;> exact ⟨by simp, by simp⟩

theorem connectInv_localStep [DecidableEq T] (hc : ConnectInv c) (hk : c.pc a = k)
    (hstep : LocalStep a c.shared k e s' k') : ConnectInv (c.move a s' k') := by
  cases hstep with
  | startAccepted hcreating =>
      refine hc.store ?_ rfl
      simp [SessionState.toConnect, hcreating]
  | startConnecting hcreating =>
      refine hc.move ?_ id (by simp)
      simp [SessionState.toConnect, hcreating, Nat.add_comm]
  | connected hpos =>
      refine hc.store ?_ rfl
      simp only [SessionState.toConnect]
      omega
  | connectFailed hpos =>
      refine hc.move ?_ id (by simp)
      simp only [SessionState.toConnect]
      omega
  | storeConnected =>
      obtain ⟨-, hu⟩ := hc.storing a hk
      have hnone : ∀ b, (c.move a { c.shared with status := .connected }
          .remoteEndpoint).pc b ≠ .storeConnected := by
        intro b hb
        rcases eq_or_ne b a with rfl | hne
        · rw [Config.move_pc_self] at hb
          exact absurd hb (by simp)
        · rw [Config.move_pc_of_ne c hne] at hb
          exact hne (hu b hb)
      refine ⟨hc.once, ?_, fun b hb => absurd hb (hnone b)⟩
      intro hpos
      exact absurd hk ((hc.pending hpos).2 a)
  | closeExchanged => exact hc.move (Nat.le_refl _) (fun _ => target_unconnected _) (by simp)
  | readExchanged hs => exact hc.move (Nat.le_refl _) (fun h => absurd hs h.1) (by simp)
  | readNone =>
      refine hc.move (Nat.le_refl _) (fun h => ?_) (by simp)
      simp only [if_neg h.2]
      exact h
  | _ => exact hc.move (Nat.le_refl _) id (by simp)

theorem connectInv [DecidableEq T] {C : Session T β → T × SessionEvent β → Prop}
    (hc : ((sessionSystem T β).restrict C).Reachable c) : ConnectInv c := by
  apply hc.invariant
  · rintro c ⟨accepted, rfl⟩
    exact ⟨Nat.le_refl 1, fun _ => ⟨⟨by simp [initial], by simp [initial]⟩, by simp [initial]⟩,
      by simp [initial]⟩
  · rintro c ⟨a, e⟩ d hi ⟨-, hstep⟩
    obtain ⟨s', k', hact, rfl⟩ := Config.step_eq_some hstep
    exact connectInv_localStep hi rfl (localStep_of_act hact)

/-- Every write of the status but the store of a connect callback moves it forward. -/
theorem forward_localStep (hstep : LocalStep a c.shared k e s' k') (hk : k ≠ .storeConnected) :
    c.shared.status ≤ s'.status ∨
      k = .readNone ∧ c.shared.status = .reading ∧ s'.status = .connected := by
  have hrefl : ∀ s : Status, s ≤ s := fun s => Nat.le_refl s.value
  cases hstep with
  | closeExchanged hlt => exact .inl (Nat.le_of_lt hlt)
  | storeConnected => exact absurd rfl hk
  | readExchanged hs =>
      left
      rw [hs]
      exact (show Status.connected ≤ Status.reading by decide)
  | readNone =>
      by_cases hs : c.shared.status = .reading
      · exact .inr ⟨rfl, hs, if_pos hs⟩
      · left
        simp only [if_neg hs]
        exact hrefl _
  | _ => exact .inl (hrefl _)

end Session

/-- The runs in which every connect callback finds the session still connecting. -/
def inTimeSystem (T β : Type*) [DecidableEq T] :
    TransitionSystem (Session T β) (T × SessionEvent β) :=
  (sessionSystem T β).restrict ConnectsInTime

section Forward

variable {c d : Session T β} {e : T × SessionEvent β}

/-- Moving forward, a session that is closing stays so until it is closed. -/
theorem MovesForward.le_of_closing (h : MovesForward c e d)
    (hs : Status.closing ≤ c.shared.status) : c.shared.status ≤ d.shared.status := by
  rcases h with hle | ⟨-, hreading, -⟩
  · exact hle
  · rw [hreading] at hs
    exact absurd hs (by decide)

variable [DecidableEq T]

theorem movesForward_of_inTime (hd : (sessionSystem T β).Step c e d) (hin : ConnectsInTime c e) :
    MovesForward c e d := by
  obtain ⟨a, e⟩ := e
  obtain ⟨s', k', hact, rfl⟩ := Config.step_eq_some hd
  by_cases hk : c.pc a = .storeConnected
  · left
    rw [hin hk]
    exact Nat.zero_le _
  · exact Session.forward_localStep (SessionState.localStep_of_act hact) hk

/-- The store sets `connected`: of a session that was not connected before, it moves only a
connecting one forward. -/
theorem inTime_of_movesForward (hc : ConnectInv c) (hd : (sessionSystem T β).Step c e d)
    (hmoves : MovesForward c e d) : ConnectsInTime c e := by
  obtain ⟨a, e⟩ := e
  obtain ⟨s', k', hact, rfl⟩ := Config.step_eq_some hd
  have hstep := SessionState.localStep_of_act hact
  intro hk
  have hk : c.pc a = .storeConnected := hk
  obtain ⟨hun, -⟩ := hc.storing a hk
  change SessionState.LocalStep a c.shared (c.pc a) e s' k' at hstep
  rw [hk] at hstep
  cases hstep
  rcases hmoves with hle | ⟨hnone, -⟩
  · cases hs : c.shared.status with
    | connecting => rfl
    | connected => exact absurd hs hun.1
    | reading => exact absurd hs hun.2
    | closing | closed =>
        rw [hs] at hle
        exact absurd hle (show ¬ _ ≤ Status.connected by decide)
  · have hnone : c.pc a = .readNone := hnone
    rw [hk] at hnone
    exact absurd hnone (by simp)

end Forward

/-! ## A session after its connect callback -/

section Connected

/-- The connect callback of a session, the only one, has stored `connected`. -/
structure Session.Connected (c : Session T β) : Prop where
  toConnect : c.shared.toConnect = 0
  stored : ∀ a, c.pc a ≠ .storeConnected

/-- The places between the store and the connect upcall. -/
def Place.connecting : Place β → Bool
  | .remoteEndpoint | .connectUpcall => true
  | _ => false

variable {a : T} {s s' : SessionState T β} {k k' : Place β} {e : SessionEvent β}

theorem SessionState.toConnect_eq_zero (hs : s.toConnect = 0) (hstep : LocalStep a s k e s' k') :
    s'.toConnect = 0 ∧ k' ≠ .storeConnected := by
  cases hstep with
  | startAccepted hcreating | startConnecting hcreating =>
      simp [SessionState.toConnect, hcreating] at hs
  | connected hpos | connectFailed hpos =>
      simp only [SessionState.toConnect] at hs
      omega
  | _ => exact ⟨hs, by simp⟩

theorem connecting_localStep (hk : k ≠ .storeConnected)
    (hstep : SessionState.LocalStep a s k e s' k') (hk' : k'.connecting = true) :
    k.connecting = true := by
  cases hstep with
  | storeConnected => exact absurd rfl hk
  | endpointFound => rfl
  | _ => exact absurd hk' Bool.false_ne_true

variable [DecidableEq T] {c d : Session T β}

theorem Session.Connected.step (hc : c.Connected) (hd : (sessionSystem T β).Step c (a, e) d) :
    d.Connected := by
  obtain ⟨s', k', hact, rfl⟩ := Config.step_eq_some hd
  obtain ⟨hzero, hk'⟩ :=
    SessionState.toConnect_eq_zero hc.toConnect (SessionState.localStep_of_act hact)
  exact ⟨hzero, Config.forall_pc_move (P := fun _ (k : Place β) => k ≠ .storeConnected) hk'
    fun b _ => hc.stored b⟩

/-- A session that is about to make its connect upcall has no other connect callback. -/
theorem Session.connected_of_connecting (hc : (sessionSystem T β).Reachable c)
    (hk : (c.pc a).connecting = true) : c.Connected := by
  revert a
  apply hc.invariant_of_reachable (I := fun c => ∀ {a}, (c.pc a).connecting = true → c.Connected)
  · rintro c ⟨accepted, rfl⟩ a hk
    exact absurd hk Bool.false_ne_true
  · rintro c ⟨a, e⟩ d hreach hold hd b hb
    obtain ⟨s', k', hact, rfl⟩ := Config.step_eq_some hd
    have hstep := SessionState.localStep_of_act hact
    rcases eq_or_ne b a with rfl | hne
    · rw [Config.move_pc_self] at hb
      by_cases hstored : c.pc b = .storeConnected
      · have hinv := connectInv (C := fun _ _ => True) hreach.restrict_true
        have hzero : c.shared.toConnect = 0 := by
          by_contra hpos
          exact (hinv.pending (Nat.pos_of_ne_zero hpos)).2 b hstored
        obtain ⟨hzero', hk'⟩ := SessionState.toConnect_eq_zero hzero hstep
        refine ⟨hzero', Config.forall_pc_move (P := fun _ (k : Place β) => k ≠ .storeConnected)
          hk' ?_⟩
        exact fun d hd hstored' => hd ((hinv.storing b hstored).2 d hstored')
      · exact (hold (connecting_localStep hstored hstep hb)).step hd
    · rw [Config.move_pc_of_ne c hne] at hb
      exact (hold hb).step hd

/-- It does not go back from closing. -/
theorem Session.Connected.closing_step (hc : c.Connected)
    (hd : (sessionSystem T β).Step c (a, e) d) (hs : Status.closing ≤ c.shared.status) :
    Status.closing ≤ d.shared.status := by
  have hmoves := movesForward_of_inTime hd fun hk => absurd hk (hc.stored a)
  exact Nat.le_trans hs (hmoves.le_of_closing hs)

end Connected

/-! ## All runs -/

/-- In every run whose connect callbacks find the session connecting, every step moves the
status forward: closing is left for closed only, and closed is not left. The first step of
a run that breaks the condition is one that moves the status backward. -/
theorem status_moves_forward [DecidableEq T] (c d : Session T β) (e : T × SessionEvent β)
    (hc : (inTimeSystem T β).Reachable c) (hd : (sessionSystem T β).Step c e d) :
    (MovesForward c e d ↔ ConnectsInTime c e) ∧
    (ConnectsInTime c e →
      (c.shared.status = .closing → d.shared.status = .closing ∨ d.shared.status = .closed) ∧
      (c.shared.status = .closed → d.shared.status = .closed)) := by
  refine ⟨⟨inTime_of_movesForward (Session.connectInv hc) hd, movesForward_of_inTime hd⟩, ?_⟩
  intro hin
  have hmoves := movesForward_of_inTime hd hin
  constructor
  · intro hs
    have hle := hmoves.le_of_closing (by rw [hs]; exact Nat.le_refl _)
    rw [hs] at hle
    exact closing_or_closed_of_le hle
  · intro hs
    have hle := hmoves.le_of_closing (by rw [hs]; decide)
    rw [hs] at hle
    exact status_closed_of_le hle

theorem status_moves_forward_connected : ∃ c d : Session (Fin 2) ℕ,
    (sessionSystem (Fin 2) ℕ).Step c (0, .run) d ∧ c.shared.status = .connecting ∧
      d.shared.status = .connected ∧ MovesForward c (0, .run) d := by
  obtain ⟨c, hc, hp⟩ := Session.exists_reachable_of_exec (ConnectsInTime (T := Fin 2) (β := ℕ))
    true [(0, .connect)]
    (fun c => decide (c.shared.status = .connecting ∧ c.pc 0 = .storeConnected)) (by decide +kernel)
  obtain ⟨hs, hk⟩ := of_decide_eq_true hp
  have hd := Session.step_of_access hk rfl
  refine ⟨c, _, hd, hs, rfl, ?_⟩
  exact (status_moves_forward c _ _ hc hd).1.mpr fun _ => hs

/-- The session is closed while it is connecting, and its connect callback is queued. -/
def closeThenConnected (a b : T) : List (T × SessionEvent ℕ) :=
  [(a, .connect), (b, .close true), (b, .run), (b, .run), (b, .run), (b, .run),
    (a, .connectDone true)]

theorem not_status_moves_forward : ¬ ∀ (c d : Session (Fin 2) ℕ) (e : Fin 2 × SessionEvent ℕ),
    (sessionSystem (Fin 2) ℕ).Reachable c → (sessionSystem (Fin 2) ℕ).Step c e d →
      MovesForward c e d ∧ (c.shared.status = .closed → d.shared.status = .closed) := by
  intro h
  obtain ⟨c, hc, hp⟩ := Session.exists_reachable_of_exec (fun _ _ => True) false
    (closeThenConnected (0 : Fin 2) 1)
    (fun c => decide (c.shared.status = .closed ∧ c.pc 0 = .storeConnected)) (by decide +kernel)
  obtain ⟨hs, hk⟩ := of_decide_eq_true hp
  have hd := Session.step_of_access hk rfl
  exact absurd ((h c _ _ hc.of_restrict hd).2 hs) (by simp)

end Minapp
