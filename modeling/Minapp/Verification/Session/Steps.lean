import Minapp.Model.Session

/-! Everything a step of a session activation can be. -/

namespace Minapp

theorem status_closed_of_le {s : Status} (h : Status.closed ≤ s) : s = .closed := by
  cases s <;> first | rfl | exact absurd h (by decide)

theorem closing_or_closed_of_le {s : Status} (h : Status.closing ≤ s) :
    s = .closing ∨ s = .closed := by
  cases s <;> first | exact .inl rfl | exact .inr rfl | exact absurd h (by decide)

theorem status_closed_of_not_lt {s : Status} (h : ¬ s < Status.closed) : s = .closed := by
  cases s <;> first | rfl | exact absurd h (by decide)

namespace SessionState

variable {T β : Type*}

/-- The transitions of an activation, with the state and the place each leads to. -/
inductive LocalStep (a : T) (s : SessionState T β) :
    Place β → SessionEvent β → SessionState T β → Place β → Prop where
  | write {buffers} : LocalStep a s .idle (.write buffers) s (.testClosing buffers)
  | close {immediately} :
      LocalStep a s .idle (.close immediately) s (.closeLoad (.application immediately))
  | startAccepted : s.creating = true → s.accepted = true →
      LocalStep a s .idle .connect { s with creating := false } .storeConnected
  | startConnecting : s.creating = true → s.accepted = false → LocalStep a s .idle .connect
      { s with creating := false, connects := s.connects + 1, socketOpen := true } .idle
  | connected : 0 < s.connects → LocalStep a s .idle (.connectDone true)
      { s with connects := s.connects - 1 } .storeConnected
  | connectFailed : 0 < s.connects → LocalStep a s .idle (.connectDone false)
      { s with connects := s.connects - 1 } .connectError
  | received : 0 < s.reads → LocalStep a s .idle (.readDone true)
      { s with reads := s.reads - 1 } .readDone
  | readFailed : 0 < s.reads → LocalStep a s .idle (.readDone false)
      { s with reads := s.reads - 1 } .readError
  | written {batch writes} : s.writes = batch :: writes → LocalStep a s .idle (.writeDone true)
      { s with writes, owner := .reporting a, completed := s.completed ++ [batch] } .writeUpcall
  | writeFailed {batch writes} : s.writes = batch :: writes →
      LocalStep a s .idle (.writeDone false) { s with writes, owner := .failed } .writeError
  | refuse {buffers} : Status.closing ≤ s.status → LocalStep a s (.testClosing buffers) .run s .idle
  | accept {buffers} : ¬ Status.closing ≤ s.status →
      LocalStep a s (.testClosing buffers) .run s (.manage buffers)
  | manage {buffers} : LocalStep a s (.manage buffers) .run
      { s with queue := s.queue.manage buffers, calls := s.calls ++ [buffers] } .testClosed
  | foundClosed : Status.closed ≤ s.status → LocalStep a s .testClosed .run s .idle
  | foundOpen : ¬ Status.closed ≤ s.status → LocalStep a s .testClosed .run s .mark
  | markBusy : s.queue.mark.1 ≤ 0 → s.queue.mark.1 ≠ 0 →
      LocalStep a s .mark .run { s with queue := s.queue.mark.2 } .idle
  | markEmpty : s.queue.mark.1 = 0 →
      LocalStep a s .mark .run { s with queue := s.queue.mark.2 } (.testDrained s.appended)
  | markNew : 0 < s.queue.mark.1 → LocalStep a s .mark .run
      { s with queue := s.queue.mark.2, owner := .starting a } .asyncWrite
  | drained {n} : s.status = .closing →
      LocalStep a s (.testDrained n) .run s (.closeLoad (.drained n))
  | notClosing {n} : s.status ≠ .closing → LocalStep a s (.testDrained n) .run s .idle
  | asyncWrite : LocalStep a s .asyncWrite .run { s with
      writes := s.writes ++ [s.queue.marked]
      owner := .operation
      handed := s.handed ++ [s.queue.marked] } .idle
  | closeLoad {call} : LocalStep a s (.closeLoad call) .run s (.closeExchange call s.status)
  | closeExchanged {call} : s.status < call.target →
      LocalStep a s (.closeExchange call s.status) .run { s with
        status := call.target
        closedBy := if call.immediately then some a else s.closedBy } (.closeSocket call)
  | closeRetry {call current e} : e = .spurious ∨ s.status ≠ current →
      LocalStep a s (.closeExchange call current) e s (.closeExchange call s.status)
  | closeStop {call current} : ¬ current < call.target →
      LocalStep a s (.closeExchange call current) .run s .idle
  | closeSocket {call} : call.immediately = true →
      LocalStep a s (.closeSocket call) .run { s with socketOpen := false } .closeUpcall
  | shutdownReceive {call} : call.immediately = false →
      LocalStep a s (.closeSocket call) .run s .testClosed
  | closeUpcall : LocalStep a s .closeUpcall .run (s.upcall .close) .idle
  | storeConnected :
      LocalStep a s .storeConnected .run { s with status := .connected } .remoteEndpoint
  | endpointFound : s.socketOpen = true → LocalStep a s .remoteEndpoint .run s .connectUpcall
  | endpointThrows {e} : LocalStep a s .remoteEndpoint e s .idle
  | connectUpcall : LocalStep a s .connectUpcall .run (s.upcall .connect) .readExchange
  | connectError :
      LocalStep a s .connectError .run (s.upcall .error) (.closeLoad .connectError)
  | readExchanged : s.status = .connected →
      LocalStep a s .readExchange .run { s with status := .reading } .readProtocol
  | readGoOn : s.status = .reading → LocalStep a s .readExchange .run s .readProtocol
  | readRefused : s.status ≠ .connected → s.status ≠ .reading →
      LocalStep a s .readExchange .run s .idle
  | readNone : LocalStep a s .readNone .run
      { s with status := if s.status = .reading then .connected else s.status } .idle
  | readUpcall : LocalStep a s .readUpcall .run (s.upcall .read) .readExchange
  | readError : LocalStep a s .readError .run (s.upcall .error) (.closeLoad .readError)
  | writeUpcall : LocalStep a s .writeUpcall .run
      { s.upcall (.write s.queue.marked) with owner := .clearing a } .clearMarked
  | clearMarked : LocalStep a s .clearMarked .run
      { s with queue := s.queue.clearMarked, owner := .nobody } .testClosed
  | writeError : LocalStep a s .writeError .run (s.upcall .error) (.closeLoad .writeError)
  | readStop : LocalStep a s .readProtocol (.read .none) s .readNone
  | readAsync : LocalStep a s .readProtocol (.read .async) { s with reads := s.reads + 1 } .idle
  | readDeliver : LocalStep a s .readProtocol (.read .upcall) s .readUpcall
  | readFail : LocalStep a s .readProtocol (.read .error) s .readError
  | doneAsync : LocalStep a s .readDone (.read .async) { s with reads := s.reads + 1 } .idle
  | doneDeliver : LocalStep a s .readDone (.read .upcall) s .readUpcall
  | doneFail : LocalStep a s .readDone (.read .error) s .readError

variable {a : T} {s s' : SessionState T β} {k k' : Place β} {e : SessionEvent β}

theorem localStep_of_access (h : s.access a k = some (s', k')) : LocalStep a s k .run s' k' := by
  cases k with
  | testClosing buffers =>
      simp only [access] at h
      split at h <;> obtain ⟨rfl, rfl⟩ := Prod.mk.inj (Option.some.inj h)
      · exact .refuse ‹_›
      · exact .accept ‹_›
  | testClosed =>
      simp only [access] at h
      split at h <;> obtain ⟨rfl, rfl⟩ := Prod.mk.inj (Option.some.inj h)
      · exact .foundClosed ‹_›
      · exact .foundOpen ‹_›
  | mark =>
      simp only [access] at h
      split at h
      · split at h <;> obtain ⟨rfl, rfl⟩ := Prod.mk.inj (Option.some.inj h)
        · exact .markEmpty ‹_›
        · exact .markBusy ‹_› ‹_›
      · obtain ⟨rfl, rfl⟩ := Prod.mk.inj (Option.some.inj h)
        exact .markNew (Int.not_le.mp ‹_›)
  | testDrained n =>
      simp only [access] at h
      split at h <;> obtain ⟨rfl, rfl⟩ := Prod.mk.inj (Option.some.inj h)
      · exact .drained ‹_›
      · exact .notClosing ‹_›
  | closeExchange call current =>
      simp only [access] at h
      split at h
      · rename_i hlt
        split at h <;> obtain ⟨rfl, rfl⟩ := Prod.mk.inj (Option.some.inj h)
        · rename_i heq
          subst heq
          exact .closeExchanged hlt
        · exact .closeRetry (.inr ‹_›)
      · obtain ⟨rfl, rfl⟩ := Prod.mk.inj (Option.some.inj h)
        exact .closeStop ‹_›
  | remoteEndpoint =>
      simp only [access] at h
      split at h <;> obtain ⟨rfl, rfl⟩ := Prod.mk.inj (Option.some.inj h)
      · exact .endpointFound ‹_›
      · exact .endpointThrows
  | closeSocket call =>
      simp only [access] at h
      split at h <;> obtain ⟨rfl, rfl⟩ := Prod.mk.inj (Option.some.inj h)
      · exact .closeSocket ‹_›
      · exact .shutdownReceive (Bool.eq_false_iff.mpr ‹_›)
  | readExchange =>
      simp only [access] at h
      split at h
      · obtain ⟨rfl, rfl⟩ := Prod.mk.inj (Option.some.inj h)
        exact .readExchanged ‹_›
      · split at h <;> obtain ⟨rfl, rfl⟩ := Prod.mk.inj (Option.some.inj h)
        · exact .readGoOn ‹_›
        · exact .readRefused ‹_› ‹_›
  | idle | readProtocol | readDone => exact absurd h (by simp [access])
  | _ =>
      obtain ⟨rfl, rfl⟩ := Prod.mk.inj (Option.some.inj h)
      constructor

theorem localStep_of_act (h : s.act a k e = some (s', k')) : LocalStep a s k e s' k' := by
  cases e with
  | write buffers =>
      cases k <;> simp only [act, Bool.false_eq_true, if_false, if_true, reduceCtorEq] at h
      obtain ⟨rfl, rfl⟩ := Prod.mk.inj (Option.some.inj h)
      exact .write
  | close immediately =>
      cases k <;> simp only [act, Bool.false_eq_true, if_false, if_true, reduceCtorEq] at h
      obtain ⟨rfl, rfl⟩ := Prod.mk.inj (Option.some.inj h)
      exact .close
  | connect =>
      cases k <;> simp only [act, Bool.false_eq_true, false_and, if_false, reduceCtorEq] at h
      split at h
      · rename_i hc
        split at h <;> obtain ⟨rfl, rfl⟩ := Prod.mk.inj (Option.some.inj h)
        · exact .startAccepted hc.2 ‹_›
        · exact .startConnecting hc.2 (Bool.eq_false_iff.mpr ‹_›)
      · exact absurd h (by simp)
  | connectDone ok =>
      cases k <;> simp only [act, Bool.false_eq_true, false_and, if_false, reduceCtorEq] at h
      split at h
      · rename_i hc
        cases ok <;> obtain ⟨rfl, rfl⟩ := Prod.mk.inj (Option.some.inj h)
        · exact .connectFailed hc.2
        · exact .connected hc.2
      · exact absurd h (by simp)
  | readDone ok =>
      cases k <;> simp only [act, Bool.false_eq_true, false_and, if_false, reduceCtorEq] at h
      split at h
      · rename_i hc
        cases ok <;> obtain ⟨rfl, rfl⟩ := Prod.mk.inj (Option.some.inj h)
        · exact .readFailed hc.2
        · exact .received hc.2
      · exact absurd h (by simp)
  | writeDone ok =>
      cases hw : s.writes with
      | nil => cases k <;> simp [act, hw] at h
      | cons batch writes =>
          cases k <;> simp only [act, hw, reduceCtorEq] at h
          cases ok <;> obtain ⟨rfl, rfl⟩ := Prod.mk.inj (Option.some.inj h)
          · exact .writeFailed hw
          · exact .written hw
  | run => exact localStep_of_access h
  | spurious =>
      cases k with
      | closeExchange call current =>
          simp only [act] at h
          split at h
          · obtain ⟨rfl, rfl⟩ := Prod.mk.inj (Option.some.inj h)
            exact .closeRetry (.inl rfl)
          · exact absurd h (by simp)
      | remoteEndpoint =>
          obtain ⟨rfl, rfl⟩ := Prod.mk.inj (Option.some.inj h)
          exact .endpointThrows
      | _ => exact absurd h (by simp [act])
  | read outcome =>
      cases k <;> cases outcome <;> simp only [act, reduceCtorEq] at h <;>
        obtain ⟨rfl, rfl⟩ := Prod.mk.inj (Option.some.inj h) <;> constructor

end SessionState

/-- The step of an activation that makes its next access. -/
theorem Session.step_of_access {T β : Type*} [DecidableEq T] {c : Session T β} {a : T}
    {s' : SessionState T β} {k k' : Place β} (hk : c.pc a = k)
    (h : c.shared.access a k = some (s', k')) :
    (sessionSystem T β).Step c (a, .run) (c.move a s' k') := by
  change Option.map _ (c.shared.access a (c.pc a)) = _
  rw [hk, h]
  rfl

/-- A property of the session an execution ends in, each step of which meets `C`. -/
theorem Session.exists_reachable_of_exec {T β : Type*} [DecidableEq T]
    (C : Session T β → T × SessionEvent β → Prop) [∀ c e, Decidable (C c e)] (accepted : Bool)
    (es : List (T × SessionEvent β)) (p : Session T β → Bool)
    (h : (TransitionSystem.exec (TransitionSystem.guardedStep C (Config.step SessionState.act))
      (initial T β accepted) es).map p = some true) :
    ∃ c, ((sessionSystem T β).restrict C).Reachable c ∧ p c = true := by
  obtain ⟨c, hr, hp⟩ := TransitionSystem.exists_run_restrict_of_exec C IsInitial _ _ es p h
  exact ⟨c, ⟨_, es, ⟨accepted, rfl⟩, hr⟩, hp⟩

end Minapp
