import Minapp.Model.Connect
import Minapp.Verification.Session.Status

/-! # The callback of a connection attempt

What `session::connect(ec, promise)` has reported at each place, through the handler and
through the promise, and when an exception leaves it. -/

namespace Minapp

variable {T β : Type*}

/-- A place inside the callback. -/
def ConnectPlace.calling : ConnectPlace β → Bool
  | .outside _ => false
  | _ => true

/-- The event is the failure of an access. -/
def ConnectEvent.fails : ConnectEvent β → Bool
  | .readThrows | .session .spurious => true
  | _ => false

/-! ## Steps -/

namespace ConnectState

variable {h : ReadHandler} {a : T} {s s' : ConnectState T β} {k k' : ConnectPlace β}
  {e : ConnectEvent β}

/-- The steps of an activation, in terms of those of the session. -/
inductive CallStep (h : ReadHandler) (a : T) (s : ConnectState T β) :
    ConnectPlace β → ConnectEvent β → ConnectState T β → ConnectPlace β → Prop where
  | outside {k e session k'} : SessionState.LocalStep a s.session k e session k' →
      k' ≠ .storeConnected → k' ≠ .connectError →
      CallStep h a s (.outside k) (.session e) { s with session } (.outside k')
  | connected {k e session} : SessionState.LocalStep a s.session k e session .storeConnected →
      CallStep h a s (.outside k) (.session e) { s with session, caller := some a }
        (.connecting .storeConnected)
  | connectFailed {k e session} : SessionState.LocalStep a s.session k e session .connectError →
      CallStep h a s (.outside k) (.session e) { s with session, caller := some a }
        (.failing .connectError)
  | fail {k e session k'} : SessionState.LocalStep a s.session k e session k' → k' ≠ .idle →
      CallStep h a s (.failing k) (.session e)
        { s with session, reported := s.reported ++ k.reports } (.failing k')
  | failed {k e session} : SessionState.LocalStep a s.session k e session .idle →
      CallStep h a s (.failing k) (.session e)
        { s with session, reported := s.reported ++ k.reports } .setException
  | proceed {k e session k' input} : s.receive h k e = some input →
      SessionState.LocalStep a s.session k e session k' → k' ≠ .idle →
      CallStep h a s (.connecting k) (.session e)
        { s with session, input, reported := s.reported ++ k.reports } (.connecting k')
  | proceeded {k e session input} : s.receive h k e = some input →
      SessionState.LocalStep a s.session k e session .idle → k ≠ .remoteEndpoint →
      CallStep h a s (.connecting k) (.session e)
        { s with session, input, reported := s.reported ++ k.reports } .setValue
  | endpointThrows {e : SessionEvent β} :
      s.session.socketOpen = false ∨ ConnectEvent.fails (.session e) = true →
      CallStep h a s (.connecting .remoteEndpoint) (.session e)
        (s.finish s.promise .threw).1 (.outside .idle)
  | readThrows : s.input.call.control.resizes →
      CallStep h a s (.connecting .readProtocol) .readThrows
        (s.finish s.promise .threw).1 (.outside .idle)
  | setException : CallStep h a s .setException (.session .run)
      (s.finish (s.promise.map fun _ => .exception) (.returned false)).1 (.outside .idle)
  | setValue : CallStep h a s .setValue (.session .run)
      (s.finish (s.promise.map fun _ => .value) (.returned true)).1 (.outside .idle)
  | outsideThrows : CallStep h a s (.outside .readProtocol) .readThrows s (.outside .idle)

theorem enter_of_ne {session : SessionState T β} {k : Place β} (hs : k ≠ .storeConnected)
    (he : k ≠ .connectError) : s.enter a session k = ({ s with session }, .outside k) := by
  cases k with
  | storeConnected => exact absurd rfl hs
  | connectError => exact absurd rfl he
  | _ => rfl

theorem fail_of_ne {session : SessionState T β} {k k' : Place β} (hk : k' ≠ .idle) :
    s.fail session k k' =
      ({ s with session, reported := s.reported ++ k.reports }, .failing k') := by
  cases k' with
  | idle => exact absurd rfl hk
  | _ => rfl

theorem proceed_of_ne {session : SessionState T β} {k k' : Place β} (hk : k' ≠ .idle) :
    s.proceed session k k' =
      ({ s with session, reported := s.reported ++ k.reports }, .connecting k') := by
  cases k' with
  | idle => exact absurd rfl hk
  | _ => rfl

theorem proceed_idle {session : SessionState T β} {k : Place β} (hk : k ≠ .remoteEndpoint) :
    s.proceed session k .idle =
      ({ s with session, reported := s.reported ++ k.reports }, .setValue) := by
  cases k with
  | remoteEndpoint => exact absurd rfl hk
  | _ => rfl

/-- `remote_endpoint` throws if the socket is closed, or its peer is gone. -/
theorem endpoint_idle {session session' : SessionState T β} {e : SessionEvent β}
    (h : session.act a .remoteEndpoint e = some (session', .idle)) : session' = session ∧
      (session.socketOpen = false ∨ ConnectEvent.fails (.session e) = true) := by
  cases e with
  | run =>
      obtain ⟨rfl, hk⟩ := Prod.mk.inj (Option.some.inj h)
      cases ho : session.socketOpen with
      | false => exact ⟨rfl, .inl rfl⟩
      | true =>
          rw [ho] at hk
          exact absurd hk (by simp)
  | spurious =>
      obtain ⟨rfl, -⟩ := Prod.mk.inj (Option.some.inj h)
      exact ⟨rfl, .inr rfl⟩
  | _ => exact absurd h (by simp [SessionState.act])

theorem callStep_of_act (hact : s.act h a k e = some (s', k')) : CallStep h a s k e s' k' := by
  cases k with
  | outside k =>
      cases e with
      | session e =>
          obtain ⟨⟨session, k₁⟩, hact, heq⟩ := Option.map_eq_some_iff.mp hact
          have hstep := SessionState.localStep_of_act hact
          by_cases hs : k₁ = .storeConnected
          · subst hs
            obtain ⟨rfl, rfl⟩ := Prod.mk.inj heq
            exact .connected hstep
          · by_cases he : k₁ = .connectError
            · subst he
              obtain ⟨rfl, rfl⟩ := Prod.mk.inj heq
              exact .connectFailed hstep
            · rw [enter_of_ne hs he] at heq
              obtain ⟨rfl, rfl⟩ := Prod.mk.inj heq
              exact .outside hstep hs he
      | readThrows =>
          cases k with
          | readProtocol =>
              obtain ⟨rfl, rfl⟩ := Prod.mk.inj (Option.some.inj hact)
              exact .outsideThrows
          | _ => exact absurd hact (by simp [act])
  | failing k =>
      cases e with
      | session e =>
          obtain ⟨⟨session, k₁⟩, hact, heq⟩ := Option.map_eq_some_iff.mp hact
          have hstep := SessionState.localStep_of_act hact
          by_cases hi : k₁ = .idle
          · subst hi
            obtain ⟨rfl, rfl⟩ := Prod.mk.inj heq
            exact .failed hstep
          · rw [fail_of_ne hi] at heq
            obtain ⟨rfl, rfl⟩ := Prod.mk.inj heq
            exact .fail hstep hi
      | readThrows => exact absurd hact (by simp [act])
  | connecting k =>
      cases e with
      | session e =>
          obtain ⟨input, hinput, hmap⟩ := Option.bind_eq_some_iff.mp hact
          obtain ⟨⟨session, k₁⟩, hsession, heq⟩ := Option.map_eq_some_iff.mp hmap
          have hstep := SessionState.localStep_of_act hsession
          by_cases hi : k₁ = .idle
          · subst hi
            by_cases hr : k = .remoteEndpoint
            · subst hr
              obtain rfl := Option.some.inj hinput
              obtain ⟨rfl, hfails⟩ := endpoint_idle hsession
              obtain ⟨rfl, rfl⟩ := Prod.mk.inj heq
              have hstep : CallStep h a s _ _ _ _ := .endpointThrows hfails
              simpa [finish, Place.reports] using hstep
            · rw [proceed_idle hr] at heq
              obtain ⟨rfl, rfl⟩ := Prod.mk.inj heq
              exact .proceeded hinput hstep hr
          · rw [proceed_of_ne hi] at heq
            obtain ⟨rfl, rfl⟩ := Prod.mk.inj heq
            exact .proceed hinput hstep hi
      | readThrows =>
          cases k with
          | readProtocol =>
              simp only [act] at hact
              split_ifs at hact with hresizes
              obtain ⟨rfl, rfl⟩ := Prod.mk.inj (Option.some.inj hact)
              exact .readThrows hresizes
          | _ => exact absurd hact (by simp [act])
  | setException | setValue =>
      cases e with
      | session e =>
          cases e with
          | run =>
              obtain ⟨rfl, rfl⟩ := Prod.mk.inj (Option.some.inj hact)
              constructor
          | _ => exact absurd hact (by simp [act])
      | readThrows => exact absurd hact (by simp [act])

end ConnectState

/-! ## What an activation inside the callback knows -/

/-- A place inside the `close(true)` of the error branch. -/
def Place.ofConnectError (status : Status) : Place β → Prop
  | .closeLoad .connectError => True
  | .closeExchange .connectError current => current = .closed → status = .closed
  | .closeSocket .connectError | .closeUpcall => status = .closed
  | _ => False

/-- What the other branch has reported before a place. -/
def Place.reportedAt : Place β → List (Upcall β)
  | .storeConnected | .remoteEndpoint | .connectUpcall => []
  | _ => [.connect]

section LocalStep

variable {a : T} {s s' : SessionState T β} {k k' : Place β} {e : SessionEvent β}

/-- The one call of the callback is what the creator's call of `connect` comes to. -/
theorem SessionState.toConnect_localStep (hstep : LocalStep a s k e s' k') :
    (k' = .storeConnected ∨ k' = .connectError) ∧ k = .idle ∧ s'.toConnect + 1 = s.toConnect ∨
      (k' ≠ .storeConnected ∧ k' ≠ .connectError) ∧ s'.toConnect = s.toConnect := by
  cases hstep with
  | startAccepted hcreating =>
      refine .inl ⟨.inl rfl, rfl, ?_⟩
      simp [toConnect, hcreating, Nat.add_comm]
  | startConnecting hcreating =>
      refine .inr ⟨⟨by simp, by simp⟩, ?_⟩
      simp [toConnect, hcreating, Nat.add_comm]
  | connected hpos =>
      refine .inl ⟨.inl rfl, rfl, ?_⟩
      simp only [toConnect]
      omega
  | connectFailed hpos =>
      refine .inl ⟨.inr rfl, rfl, ?_⟩
      simp only [toConnect]
      omega
  | _ => exact .inr ⟨⟨by simp, by simp⟩, rfl⟩

theorem SessionState.toConnect_of_ne_idle (hstep : LocalStep a s k e s' k') (hk : k ≠ .idle) :
    s'.toConnect = s.toConnect := by
  obtain ⟨-, hidle, -⟩ | ⟨-, hsame⟩ := toConnect_localStep hstep
  · exact absurd hidle hk
  · exact hsame

/-- A closed session is only left by the store of a connect callback. -/
theorem SessionState.closed_localStep (hstep : LocalStep a s k e s' k') (hk : k ≠ .storeConnected)
    (hs : s.status = .closed) : s'.status = .closed := by
  rcases Session.forward_localStep (c := ⟨s, fun _ => k⟩) hstep hk with hle | ⟨-, hreading, -⟩
  · apply status_closed_of_le
    rwa [show (Config.mk s fun _ : T => k).shared.status = .closed from hs] at hle
  · exact absurd (hs.symm.trans hreading) (by simp)

/-- The `close(true)` of the error branch goes on, or returns with the session closed. -/
theorem Place.ofConnectError_localStep (hstep : SessionState.LocalStep a s k e s' k')
    (hk : k.ofConnectError s.status) :
    k'.ofConnectError s'.status ∨ k' = .idle ∧ s'.status = .closed := by
  cases hstep with
  | @closeLoad call =>
      cases call with
      | connectError => exact .inl id
      | _ => exact hk.elim
  | @closeRetry call =>
      cases call with
      | connectError => exact .inl id
      | _ => exact hk.elim
  | @closeExchanged call =>
      cases call with
      | connectError => exact .inl rfl
      | _ => exact hk.elim
  | @closeStop call current hstop =>
      cases call with
      | connectError => exact .inr ⟨rfl, hk (status_closed_of_not_lt hstop)⟩
      | _ => exact hk.elim
  | @closeSocket call =>
      cases call with
      | connectError => exact .inl hk
      | _ => exact hk.elim
  | @shutdownReceive call hi =>
      cases call with
      | connectError => exact absurd hi (by simp [CloseCall.immediately])
      | _ => exact hk.elim
  | closeUpcall => exact .inr ⟨rfl, hk⟩
  | _ => exact hk.elim

theorem Place.reports_of_ofConnectError {status : Status} (hk : k.ofConnectError status) :
    k.reports = [] := by
  cases k with
  | connectError | connectUpcall => exact hk.elim
  | _ => rfl

/-- The other branch makes the connect upcall, and reports nothing else. -/
theorem Place.reportedAt_localStep (hstep : SessionState.LocalStep a s k e s' k')
    (hidle : k ≠ .idle) (herror : k ≠ .connectError) (hthrows : k = .remoteEndpoint → k' ≠ .idle) :
    k.reportedAt ++ k.reports = k'.reportedAt := by
  cases hstep with
  | endpointThrows => exact absurd rfl (hthrows rfl)
  | connectError => exact absurd rfl herror
  | write | close | startAccepted | startConnecting | connected | connectFailed | received
  | readFailed | written | writeFailed => exact absurd rfl hidle
  | _ => rfl

end LocalStep

namespace ConnectState

/-- The callback has not ended nor touched the promise. -/
structure Pending (s : ConnectState T β) (reported : List (Upcall β)) : Prop where
  ended : s.ended = none
  promise : ∀ p ∈ s.promise, p = .unset
  reported : s.reported = reported

/-- What an activation knows at a place. -/
def Knows (s : ConnectState T β) : ConnectPlace β → Prop
  | .outside k => k ≠ .storeConnected ∧ k ≠ .connectError
  | .failing k => k = .connectError ∧ s.Pending [] ∨
      k.ofConnectError s.session.status ∧ s.Pending [.error]
  | .setException => s.session.status = .closed ∧ s.Pending [.error]
  | .connecting k => (k ≠ .idle ∧ k ≠ .connectError) ∧ s.Pending k.reportedAt
  | .setValue => s.Pending [.connect]

/-- The outcome is reported: the call has returned, and either the connect upcall is made and
the promise set to the session, or the error upcall is made, the session closed and the
promise set to an exception. -/
def Reported (s : ConnectState T β) : Prop :=
  s.ended = some (.returned true) ∧ s.reported = [.connect] ∧ (∀ p ∈ s.promise, p = .value) ∨
  s.ended = some (.returned false) ∧ s.reported = [.error] ∧ s.session.status = .closed ∧
    ∀ p ∈ s.promise, p = .exception

/-- There is one call of the callback, and it has reported the outcome when it has returned. -/
structure CallOk (s : ConnectState T β) : Prop where
  once : s.session.toConnect ≤ 1
  pending : 0 < s.session.toConnect → s.caller = none ∧ s.Pending []
  ended : ∀ r, s.ended = some r → s.caller = none ∧ (r = .threw ∨ s.Reported)

/-- The activation inside the callback is the caller. -/
structure Calls (a : T) (s : ConnectState T β) (k : ConnectPlace β) : Prop where
  caller : s.caller = some a ↔ k.calling = true
  knows : s.Knows k

variable {h : ReadHandler} {a b : T} {s s' : ConnectState T β} {k k' : ConnectPlace β}
  {e : ConnectEvent β}

/-- Another session state that is closed if the old one was. -/
theorem Knows.session (h : s.Knows k) {session : SessionState T β}
    (hclosed : s.session.status = .closed → session.status = .closed) :
    ({ s with session } : ConnectState T β).Knows k := by
  cases k with
  | outside k => exact h
  | failing k =>
      refine h.imp (fun ⟨hk, hp⟩ => ⟨hk, hp.ended, hp.promise, hp.reported⟩) ?_
      rintro ⟨hk, hp⟩
      refine ⟨?_, hp.ended, hp.promise, hp.reported⟩
      cases k with
      | closeLoad call =>
          cases call with
          | connectError => trivial
          | _ => exact hk.elim
      | closeExchange call current =>
          cases call with
          | connectError => exact fun h => hclosed (hk h)
          | _ => exact hk.elim
      | closeSocket call =>
          cases call with
          | connectError => exact hclosed hk
          | _ => exact hk.elim
      | closeUpcall => exact hclosed hk
      | _ => exact hk.elim
  | setException => exact ⟨hclosed h.1, h.2.ended, h.2.promise, h.2.reported⟩
  | connecting k => exact ⟨h.1, h.2.ended, h.2.promise, h.2.reported⟩
  | setValue => exact ⟨h.ended, h.promise, h.reported⟩

/-- Nobody else is inside the callback. -/
theorem Calls.other (h : Calls b s k) (hcaller : s.caller ≠ some b)
    (hcaller' : s'.caller ≠ some b) : Calls b s' k := by
  have hno : k.calling = false := Bool.eq_false_iff.mpr (mt h.caller.mpr hcaller)
  refine ⟨iff_of_false hcaller' (by simp [hno]), ?_⟩
  cases k with
  | outside k => exact h.knows
  | _ => exact absurd hno (by simp [ConnectPlace.calling])

/-- Inside the callback nobody else is, and nobody else can be. -/
theorem Calls.others (hk : Calls a s k) (hcalling : k.calling = true)
    (hcaller' : s'.caller = some a ∨ s'.caller = none) :
    ∀ b k₂, b ≠ a → Calls b s k₂ → Calls b s' k₂ := by
  intro b k₂ hb h
  have hne : some a ≠ some b := fun h => hb (Option.some.inj h).symm
  apply h.other
  · rw [hk.caller.mpr hcalling]
    exact hne
  · rcases hcaller' with h' | h' <;> rw [h']
    · exact hne
    · simp

theorem CallOk.toConnect (hs : s.CallOk) (hcaller : s.caller = some a) :
    s.session.toConnect = 0 := by
  by_contra hne
  obtain ⟨hnone, -⟩ := hs.pending (Nat.pos_of_ne_zero hne)
  rw [hcaller] at hnone
  exact absurd hnone (by simp)

/-- A step outside the callback. -/
theorem CallOk.outside (hs : s.CallOk) {session : SessionState T β}
    (hsame : session.toConnect = s.session.toConnect)
    (hclosed : s.session.status = .closed → session.status = .closed) :
    ({ s with session } : ConnectState T β).CallOk := by
  refine ⟨hsame.trans_le hs.once, ?_, ?_⟩
  · intro hpos
    obtain ⟨hcaller, hp⟩ := hs.pending (hsame ▸ hpos)
    exact ⟨hcaller, hp.ended, hp.promise, hp.reported⟩
  · intro r hr
    obtain ⟨hcaller, hreported⟩ := hs.ended r hr
    refine ⟨hcaller, hreported.imp id ?_⟩
    exact Or.imp id fun ⟨he, hu, hst, hp⟩ => ⟨he, hu, hclosed hst, hp⟩

/-- The call of the callback, before which nothing is reported. -/
theorem CallOk.enter (hs : s.CallOk) {session : SessionState T β}
    (hless : session.toConnect + 1 = s.session.toConnect) :
    s.caller = none ∧ s.Pending [] ∧
      ({ s with session, caller := some a } : ConnectState T β).CallOk := by
  have honce := hs.once
  obtain ⟨hcaller, hp⟩ := hs.pending (by omega)
  refine ⟨hcaller, hp, by simp only; omega, fun hpos => by simp only at hpos; omega, ?_⟩
  intro r hr
  exact absurd (hp.ended.symm.trans hr) (by simp)

/-- A step inside the callback that does not end it. -/
theorem CallOk.inside (hs : s.CallOk) (hcaller : s.caller = some a) (hended : s'.ended = none)
    (hsession : s'.session.toConnect = s.session.toConnect) : s'.CallOk := by
  have hzero := hs.toConnect hcaller
  refine ⟨by omega, fun hpos => by omega, ?_⟩
  intro r hr
  rw [hended] at hr
  exact absurd hr (by simp)

/-- The end of the callback. -/
theorem CallOk.finish (hs : s.CallOk) (hcaller : s.caller = some a)
    {promise : Option PromiseState} {r : CallEnd}
    (hr : r = .threw ∨ (s.finish promise r : ConnectState T β × ConnectPlace β).1.Reported) :
    (s.finish promise r).1.CallOk := by
  have hzero := hs.toConnect hcaller
  have hsame : (s.finish promise r).1.session.toConnect = 0 := hzero
  refine ⟨by omega, fun hpos => by omega, ?_⟩
  intro r' hr'
  obtain rfl := Option.some.inj hr'
  exact ⟨rfl, hr⟩

theorem calls_finish {promise : Option PromiseState} {r : CallEnd} :
    Calls a (s.finish promise r).1 (.outside .idle) :=
  ⟨iff_of_false (by simp [ConnectState.finish]) (by simp [ConnectPlace.calling]),
    by simp [Knows]⟩

/-- The activation that has entered the callback is in it, and nobody else. -/
theorem calls_enter {session : SessionState T β} (hcaller : s.caller = none)
    (hcalling : k.calling = true)
    (hknows : ({ s with session, caller := some a } : ConnectState T β).Knows k) :
    Calls a { s with session, caller := some a } k ∧
      ∀ b k₂, b ≠ a → Calls b s k₂ → Calls b { s with session, caller := some a } k₂ := by
  refine ⟨⟨iff_of_true rfl hcalling, hknows⟩, fun b k₂ hb h => ?_⟩
  apply h.other (by simp [hcaller])
  exact fun h => hb (Option.some.inj h).symm

/-- A step of the error branch goes on with the `close(true)`, or leaves the session closed. -/
theorem Knows.fail {k k' : Place β} {e : SessionEvent β} {session : SessionState T β}
    (hk : s.Knows (.failing k)) (hstep : SessionState.LocalStep a s.session k e session k') :
    k ≠ .idle ∧ s.ended = none ∧
      ({ s with session, reported := s.reported ++ k.reports } : ConnectState T β).Pending
        [.error] ∧ (k'.ofConnectError session.status ∨ k' = .idle ∧ session.status = .closed) := by
  rcases hk with ⟨rfl, hp⟩ | ⟨hk', hp⟩
  · cases hstep
    refine ⟨by simp, hp.ended, ⟨hp.ended, hp.promise, ?_⟩, .inl trivial⟩
    simp [hp.reported, Place.reports]
  · refine ⟨?_, hp.ended, ⟨hp.ended, hp.promise, ?_⟩, Place.ofConnectError_localStep hstep hk'⟩
    · rintro rfl
      exact hk'
    · simp [hp.reported, Place.reports_of_ofConnectError hk']

/-- A step keeps the invariant, of the activation that makes it and of any other. -/
theorem calls_callStep (hs : s.CallOk) (hk : Calls a s k) (hstep : CallStep h a s k e s' k') :
    s'.CallOk ∧ Calls a s' k' ∧ ∀ b k₂, b ≠ a → Calls b s k₂ → Calls b s' k₂ := by
  cases hstep with
  | @outside k e session k' hstep hs' he' =>
      have hclosed := SessionState.closed_localStep hstep hk.knows.1
      obtain ⟨h, -⟩ | ⟨-, hsame⟩ := SessionState.toConnect_localStep hstep
      · exact (h.elim hs' he').elim
      · refine ⟨hs.outside hsame hclosed, ⟨hk.caller, hs', he'⟩, ?_⟩
        exact fun b k₂ _ h => ⟨h.caller, h.knows.session hclosed⟩
  | connected hstep =>
      obtain ⟨-, -, hless⟩ | ⟨⟨hne, -⟩, -⟩ := SessionState.toConnect_localStep hstep
      · obtain ⟨hcaller, hp, hok⟩ := hs.enter hless
        refine ⟨hok, calls_enter hcaller rfl ?_⟩
        exact ⟨⟨by simp, by simp⟩, hp.ended, hp.promise, hp.reported⟩
      · exact absurd rfl hne
  | connectFailed hstep =>
      obtain ⟨-, -, hless⟩ | ⟨⟨-, hne⟩, -⟩ := SessionState.toConnect_localStep hstep
      · obtain ⟨hcaller, hp, hok⟩ := hs.enter hless
        refine ⟨hok, calls_enter hcaller rfl ?_⟩
        exact .inl ⟨rfl, hp.ended, hp.promise, hp.reported⟩
      · exact absurd rfl hne
  | fail hstep hidle =>
      have hcaller := hk.caller.mpr rfl
      obtain ⟨hne, hended, hp, hk' | ⟨rfl, -⟩⟩ := hk.knows.fail hstep
      · have hsame := SessionState.toConnect_of_ne_idle hstep hne
        exact ⟨hs.inside hcaller hended hsame, ⟨hk.caller, .inr ⟨hk', hp⟩⟩,
          hk.others rfl (.inl hcaller)⟩
      · exact absurd rfl hidle
  | failed hstep =>
      have hcaller := hk.caller.mpr rfl
      obtain ⟨hne, hended, hp, hk' | ⟨-, hclosed⟩⟩ := hk.knows.fail hstep
      · exact hk'.elim
      · have hsame := SessionState.toConnect_of_ne_idle hstep hne
        exact ⟨hs.inside hcaller hended hsame, ⟨hk.caller, hclosed, hp⟩,
          hk.others rfl (.inl hcaller)⟩
  | proceed _ hstep hidle =>
      have hcaller := hk.caller.mpr rfl
      obtain ⟨⟨hki, hke⟩, hp⟩ := hk.knows
      obtain ⟨-, hki', -⟩ | ⟨⟨-, hke'⟩, hsame⟩ := SessionState.toConnect_localStep hstep
      · exact absurd hki' hki
      · have hreports := Place.reportedAt_localStep hstep hki hke fun _ => hidle
        refine ⟨hs.inside hcaller hp.ended hsame, ⟨hk.caller, ⟨hidle, hke'⟩, ?_⟩,
          hk.others rfl (.inl hcaller)⟩
        exact ⟨hp.ended, hp.promise, by rw [← hreports]; simp only [hp.reported]⟩
  | proceeded _ hstep hne =>
      have hcaller := hk.caller.mpr rfl
      obtain ⟨⟨hki, hke⟩, hp⟩ := hk.knows
      have hsame := SessionState.toConnect_of_ne_idle hstep hki
      have hreports := Place.reportedAt_localStep hstep hki hke fun h => absurd h hne
      refine ⟨hs.inside hcaller hp.ended hsame, ⟨hk.caller, hp.ended, hp.promise, ?_⟩,
        hk.others rfl (.inl hcaller)⟩
      simp only [hp.reported, hreports]
      rfl
  | endpointThrows | readThrows =>
      have hcaller := hk.caller.mpr rfl
      exact ⟨hs.finish hcaller (.inl rfl), calls_finish, hk.others rfl (.inr rfl)⟩
  | setException =>
      have hcaller := hk.caller.mpr rfl
      obtain ⟨hclosed, hp⟩ := hk.knows
      refine ⟨hs.finish hcaller (.inr (.inr ⟨rfl, hp.reported, hclosed, ?_⟩)), calls_finish,
        hk.others rfl (.inr rfl)⟩
      intro p hmem
      obtain ⟨-, -, rfl⟩ := Option.mem_map.mp hmem
      rfl
  | setValue =>
      have hcaller := hk.caller.mpr rfl
      refine ⟨hs.finish hcaller (.inr (.inl ⟨rfl, hk.knows.reported, ?_⟩)), calls_finish,
        hk.others rfl (.inr rfl)⟩
      intro p hmem
      obtain ⟨-, -, rfl⟩ := Option.mem_map.mp hmem
      rfl
  | outsideThrows => exact ⟨hs, ⟨hk.caller, by simp [Knows]⟩, fun _ _ _ h => h⟩

end ConnectState

/-- The invariant of the callback holds in every run. -/
theorem connect_callOk [DecidableEq T] {h : ReadHandler} {c : ConnectConfig T β}
    {C : ConnectConfig T β → T × ConnectEvent β → Prop}
    (hc : ((connectSystem T β h).restrict C).Reachable c) :
    c.shared.CallOk ∧ ∀ a, ConnectState.Calls a c.shared (c.pc a) := by
  apply hc.interleave_invariant (L := ConnectState.Calls)
  · rintro c ⟨accepted, rfl⟩
    refine ⟨⟨Nat.le_refl 1, fun _ => ⟨rfl, rfl, ?_, rfl⟩, fun r h => absurd h (by
      simp [ConnectConfig.initial])⟩, fun a => ⟨?_, by simp [ConnectState.Knows,
      ConnectConfig.initial]⟩⟩
    · cases accepted <;> simp [ConnectConfig.initial]
    · simp [ConnectConfig.initial, ConnectPlace.calling]
  · intro c a e s k _ hs hk _ hact
    obtain ⟨hs', hk', hother⟩ :=
      ConnectState.calls_callStep hs (hk a) (ConnectState.callStep_of_act hact)
    exact ⟨hs', hk', fun b hb => hother b _ hb (hk b)⟩

/-! ## The runs in which nothing throws -/

/-- `remote_endpoint` finds the socket open and its peer there, and the read functions can
resize the storage. -/
structure Queried (c : ConnectConfig T β) (e : T × ConnectEvent β) : Prop where
  endpoint : c.pc e.1 = .connecting .remoteEndpoint →
    c.shared.session.socketOpen = true ∧ e.2.fails = false
  read : c.pc e.1 = .connecting .readProtocol → e.2.fails = false

instance [DecidableEq β] (c : ConnectConfig T β) (e : T × ConnectEvent β) :
    Decidable (Queried c e) :=
  decidable_of_iff (_ ∧ _) ⟨fun h => ⟨h.1, h.2⟩, fun h => ⟨h.endpoint, h.read⟩⟩

def queriedSystem (T β : Type*) [DecidableEq T] (h : ReadHandler) :
    TransitionSystem (ConnectConfig T β) (T × ConnectEvent β) :=
  (connectSystem T β h).restrict Queried

namespace ConnectState

variable {h : ReadHandler} {a : T} {s s' : ConnectState T β} {k k' : ConnectPlace β}
  {e : ConnectEvent β}

/-- A step throws out of the callback exactly where something fails. -/
theorem threw_of_fails (hstep : CallStep h a s k e s' k')
    (hk : k = .connecting .remoteEndpoint ∧ (s.session.socketOpen = false ∨ e.fails = true) ∨
      k = .connecting .readProtocol ∧ e.fails = true) : s'.ended = some .threw := by
  rcases hk with ⟨rfl, hfails⟩ | ⟨rfl, hfails⟩
  · cases hstep with
    | endpointThrows => rfl
    | proceed _ hstep hidle =>
        cases hstep with
        | endpointFound hopen =>
            rcases hfails with h | h
            · exact absurd (h.symm.trans hopen) Bool.false_ne_true
            · exact absurd h (by simp [ConnectEvent.fails])
        | endpointThrows => exact absurd rfl hidle
    | proceeded _ hstep hne => exact absurd rfl hne
  · cases hstep with
    | readThrows => rfl
    | proceed _ hstep | proceeded _ hstep =>
        cases hstep <;> exact absurd hfails (by simp [ConnectEvent.fails])

theorem not_threw_of_queried (hstep : CallStep h a s k e s' k') (hs : s.ended ≠ some .threw)
    (hendpoint : k = .connecting .remoteEndpoint → s.session.socketOpen = true ∧ e.fails = false)
    (hread : k = .connecting .readProtocol → e.fails = false) : s'.ended ≠ some .threw := by
  cases hstep with
  | endpointThrows hfails =>
      obtain ⟨hopen, hno⟩ := hendpoint rfl
      rcases hfails with h | h
      · exact absurd (h.symm.trans hopen) Bool.false_ne_true
      · exact absurd (hno.symm.trans h) Bool.false_ne_true
  | readThrows => exact absurd (hread rfl) (by simp [ConnectEvent.fails])
  | setException | setValue => simp [finish]
  | _ => exact hs

/-- Once the callback has ended, it stays so. -/
theorem ended_callStep (hs : s.CallOk) (hk : Calls a s k) (hstep : CallStep h a s k e s' k')
    {r : CallEnd} (hr : s.ended = some r) : s'.ended = some r := by
  have hno : k.calling = false := by
    apply Bool.eq_false_iff.mpr
    intro h
    have hcaller := (hs.ended r hr).1
    rw [hk.caller.mpr h] at hcaller
    exact absurd hcaller (by simp)
  cases hstep with
  | outside | connected | connectFailed | outsideThrows => exact hr
  | _ => exact absurd hno (by simp [ConnectPlace.calling])

end ConnectState

section Queried

variable [DecidableEq T] {h : ReadHandler} {c : ConnectConfig T β}

theorem not_threw_of_reachable (hc : (queriedSystem T β h).Reachable c) :
    c.shared.ended ≠ some .threw := by
  refine hc.invariant (I := fun c => c.shared.ended ≠ some .threw) ?_ ?_
  · rintro c ⟨accepted, rfl⟩
    simp [ConnectConfig.initial]
  · rintro c ⟨a, e⟩ d hi ⟨hq, hstep⟩
    obtain ⟨s', k', hact, rfl⟩ := Config.step_eq_some hstep
    exact ConnectState.not_threw_of_queried (ConnectState.callStep_of_act hact) hi hq.endpoint
      hq.read

/-- A run after which nothing has thrown is one in which nothing fails. -/
theorem queried_of_not_threw (hc : (connectSystem T β h).Reachable c) :
    c.shared.ended = some .threw ∨ (queriedSystem T β h).Reachable c := by
  refine hc.invariant_of_reachable
    (I := fun c => c.shared.ended = some .threw ∨ (queriedSystem T β h).Reachable c)
    (fun c hi => .inr (.init hi)) ?_
  rintro c ⟨a, e⟩ d hreach hi hstep
  obtain ⟨s', k', hact, rfl⟩ := Config.step_eq_some hstep
  have hcall := ConnectState.callStep_of_act hact
  obtain ⟨hs, hk⟩ := connect_callOk hreach.restrict_true
  rcases hi with hthrew | hq
  · exact .inl (ConnectState.ended_callStep hs (hk a) hcall hthrew)
  · by_cases hfails : c.pc a = .connecting .remoteEndpoint ∧
        (c.shared.session.socketOpen = false ∨ e.fails = true) ∨
        c.pc a = .connecting .readProtocol ∧ e.fails = true
    · exact .inl (ConnectState.threw_of_fails hcall hfails)
    · refine .inr (hq.step ⟨⟨fun h => ?_, fun h => ?_⟩, hstep⟩)
      · refine ⟨?_, ?_⟩
        · exact Bool.eq_true_of_not_eq_false fun h' => hfails (.inl ⟨h, .inl h'⟩)
        · exact Bool.eq_false_iff.mpr fun h' => hfails (.inl ⟨h, .inr h'⟩)
      · exact Bool.eq_false_iff.mpr fun h' => hfails (.inr ⟨h, h'⟩)

end Queried

end Minapp
