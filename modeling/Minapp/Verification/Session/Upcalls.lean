import Minapp.Verification.Session.Status
import Mathlib.Data.List.Basic
import Mathlib.Data.Fintype.Basic

/-! # The upcalls of a session

`handler::close` is made once, by the activation that has closed the session, and is the
last upcall but for errors, unless a connect callback stores `connected` in the closed session,
another callback is called with success after it, or an activation has made its test before it
and makes its upcall after it. -/

namespace Minapp

variable {T β : Type*}

/-- Nothing but errors follows `handler::close`, in particular not another one. -/
def CloseLast (upcalls : List (Upcall β)) : Prop :=
  ∀ before after, upcalls = before ++ .close :: after → ∀ u ∈ after, u = .error

theorem closeLast_append {us : List (Upcall β)} {u : Upcall β} :
    CloseLast (us ++ [u]) ↔ CloseLast us ∧ (.close ∈ us → u = .error) := by
  constructor
  · intro h
    constructor
    · intro before after heq v hv
      apply h before (after ++ [u]) (by simp [heq]) v
      exact List.mem_append_left _ hv
    · intro hmem
      obtain ⟨before, after, heq⟩ := List.append_of_mem hmem
      exact h before (after ++ [u]) (by simp [heq]) u (by simp)
  · rintro ⟨hlast, hu⟩ before after heq
    rcases List.eq_nil_or_concat after with rfl | ⟨after, v, rfl⟩
    · intro w hw
      simp at hw
    · have hsplit : us ++ [u] = (before ++ .close :: after) ++ [v] := by simpa using heq
      obtain ⟨rfl, hv⟩ := List.append_inj' hsplit rfl
      intro w hw
      rw [List.concat_eq_append, List.mem_append] at hw
      rcases hw with hw | hw
      · exact hlast before after rfl w hw
      · have hwv : w = v := by simpa using hw
        have huv : u = v := by simpa using hv
        rw [hwv, ← huv]
        exact hu (by simp)

/-- The place of an activation that has closed the session and not reported it yet. -/
def Place.isClosing : Place β → Bool
  | .closeSocket call => call.immediately
  | .closeUpcall => true
  | _ => false

/-- A place about to call `handler::connect`, `handler::read` or `handler::write`. -/
def Place.isUpcall : Place β → Bool
  | .connectUpcall | .readUpcall | .writeUpcall => true
  | _ => false

/-- The places between the test of an error or of the status and the upcall it may lead to. -/
def Place.delivers : Place β → Bool
  | .connectUpcall | .readProtocol | .readDone | .readUpcall | .writeUpcall => true
  | _ => false

/-- A callback of a read or a write is called with success. -/
def SessionEvent.succeeds : SessionEvent β → Bool
  | .readDone ok | .writeDone ok => ok
  | _ => false

/-- The store of a connect callback does not find the session closed. -/
def StoredInTime (c : Session T β) (e : T × SessionEvent β) : Prop :=
  c.pc e.1 = .storeConnected → c.shared.status ≠ .closed

/-- A callback that is called with success is called before `handler::close`. -/
def CompletedInTime (c : Session T β) (e : T × SessionEvent β) : Prop :=
  e.2.succeeds = true → .close ∉ c.shared.upcalls

/-- `handler::close` is called while no activation is between its test and its upcall. -/
def ClosedInTime (c : Session T β) (e : T × SessionEvent β) : Prop :=
  c.pc e.1 = .closeUpcall → ∀ a, (c.pc a).delivers = false

/-- Nothing that a step begins or leaves unfinished can follow `handler::close`. -/
structure InTime (c : Session T β) (e : T × SessionEvent β) : Prop where
  stored : StoredInTime c e
  completed : CompletedInTime c e
  closed : ClosedInTime c e

/-- The session is closed by the one activation that has set the status, and `handler::close`
has not been called before. -/
structure CloseInv (s : SessionState T β) : Prop where
  last : CloseLast s.upcalls
  closed : s.status = .closed ↔ s.closedBy ≠ none
  notReported : s.status ≠ .closed → .close ∉ s.upcalls

/-- The activation that has closed the session is the one that calls `handler::close`. -/
structure Answers (a : T) (s : SessionState T β) (k : Place β) : Prop where
  closing : k.isClosing = true → s.closedBy = some a ∧ .close ∉ s.upcalls
  reports : s.closedBy = some a → k.isClosing = true ∨ .close ∈ s.upcalls

namespace SessionState

variable {a : T} {s s' : SessionState T β} {k k' : Place β} {e : SessionEvent β}

/-- A step makes at most one upcall, and only from certain places one that reports data. -/
theorem upcalls_localStep (hstep : LocalStep a s k e s' k') :
    s'.upcalls = s.upcalls ∧ k.isUpcall = false ∨
    s'.upcalls = s.upcalls ++ [.error] ∧ k.isUpcall = false ∨
    k = .closeUpcall ∧ s'.upcalls = s.upcalls ++ [.close] ∨
    k.isUpcall = true ∧ ∃ u, u ≠ .error ∧ u ≠ .close ∧ s'.upcalls = s.upcalls ++ [u] := by
  cases hstep with
  | connectError | readError | writeError => exact .inr (.inl ⟨rfl, rfl⟩)
  | closeUpcall => exact .inr (.inr (.inl ⟨rfl, rfl⟩))
  | connectUpcall | readUpcall | writeUpcall =>
      exact .inr (.inr (.inr ⟨rfl, _, by simp, by simp, rfl⟩))
  | _ => exact .inl ⟨rfl, rfl⟩

/-- A step keeps `handler::close` last exactly if it does not report data after it. -/
theorem closeLast_localStep (hlast : CloseLast s.upcalls) (hk : Answers a s k)
    (hstep : LocalStep a s k e s' k') :
    CloseLast s'.upcalls ↔ (k.isUpcall = true → .close ∉ s.upcalls) := by
  rcases upcalls_localStep hstep with ⟨heq, hno⟩ | ⟨heq, hno⟩ | ⟨rfl, heq⟩ | ⟨hup, u, hu, -, heq⟩
  · rw [heq, hno]
    exact ⟨fun _ h => absurd h (by simp), fun _ => hlast⟩
  · rw [heq, hno, closeLast_append]
    exact ⟨fun _ h => absurd h (by simp), fun _ => ⟨hlast, fun _ => rfl⟩⟩
  · rw [heq, closeLast_append]
    exact ⟨fun _ h => absurd h (by simp [Place.isUpcall]),
      fun _ => ⟨hlast, fun hmem => absurd hmem (hk.closing rfl).2⟩⟩
  · rw [heq, closeLast_append]
    exact ⟨fun h _ hmem => hu (h.2 hmem), fun h => ⟨hlast, fun hmem => absurd hmem (h hup)⟩⟩

/-- What an activation that does not answer for the close leaves alone. -/
structure SameClose (s s' : SessionState T β) : Prop where
  status : s'.status = .closed ↔ s.status = .closed
  closedBy : s'.closedBy = s.closedBy
  reported : .close ∈ s'.upcalls ↔ .close ∈ s.upcalls

theorem SameClose.answers (h : SameClose s s') {b : T} {k k' : Place β} (hb : Answers b s k)
    (hk : k'.isClosing = k.isClosing) : Answers b s' k' := by
  constructor
  · intro hc
    rw [h.closedBy, h.reported]
    exact hb.closing (hk ▸ hc)
  · intro hby
    rw [h.reported, hk]
    exact hb.reports (h.closedBy ▸ hby)

/-- A step closes the session, reports this, or leaves the close alone. -/
theorem close_cases (hstore : k = .storeConnected → s.status ≠ .closed)
    (hstep : LocalStep a s k e s' k') :
    (s.status ≠ .closed ∧ s'.status = .closed ∧ s'.closedBy = some a ∧
      s'.upcalls = s.upcalls ∧ k'.isClosing = true) ∨
    (k = .closeUpcall ∧ s'.status = s.status ∧ s'.closedBy = s.closedBy ∧
      s'.upcalls = s.upcalls ++ [.close]) ∨
    (SameClose s s' ∧ k'.isClosing = k.isClosing) := by
  have hsame : ∀ us, .close ∉ us → (.close ∈ s.upcalls ++ us ↔ .close ∈ s.upcalls) := by
    intro us hus
    simp [List.mem_append, hus]
  cases hstep with
  | @closeExchanged call hlt =>
      cases him : call.immediately with
      | true =>
          left
          refine ⟨?_, ?_, ?_, rfl, him⟩
          · intro hclosed
            rw [hclosed] at hlt
            cases htarget : call.target <;> rw [htarget] at hlt <;> exact absurd hlt (by decide)
          · simp [CloseCall.target, him]
          · simp
      | false =>
          right; right
          have htarget : call.target = .closing := by simp [CloseCall.target, him]
          rw [htarget] at hlt
          refine ⟨⟨?_, ?_, Iff.rfl⟩, him⟩
          · simp only [htarget, reduceCtorEq, false_iff]
            intro hclosed
            rw [hclosed] at hlt
            exact absurd hlt (by decide)
          · simp
  | closeUpcall => exact .inr (.inl ⟨rfl, rfl, rfl, rfl⟩)
  | closeSocket him => exact .inr (.inr ⟨⟨Iff.rfl, rfl, Iff.rfl⟩, him.symm⟩)
  | shutdownReceive him => exact .inr (.inr ⟨⟨Iff.rfl, rfl, Iff.rfl⟩, him.symm⟩)
  | storeConnected =>
      have hopen := hstore rfl
      exact .inr (.inr ⟨⟨by simp [hopen], rfl, Iff.rfl⟩, rfl⟩)
  | readExchanged hconnected =>
      exact .inr (.inr ⟨⟨by simp [hconnected], rfl, Iff.rfl⟩, rfl⟩)
  | readNone =>
      refine .inr (.inr ⟨⟨?_, rfl, Iff.rfl⟩, rfl⟩)
      by_cases hreading : s.status = .reading <;> simp [hreading]
  | connectUpcall | readUpcall | connectError | readError | writeUpcall | writeError =>
      exact .inr (.inr ⟨⟨Iff.rfl, rfl, hsame _ (by simp)⟩, rfl⟩)
  | _ => exact .inr (.inr ⟨⟨Iff.rfl, rfl, Iff.rfl⟩, rfl⟩)

theorem close_localStep (hs : CloseInv s) (hk : Answers a s k)
    (hstore : k = .storeConnected → s.status ≠ .closed)
    (hup : k.isUpcall = true → .close ∉ s.upcalls) (hstep : LocalStep a s k e s' k') :
    CloseInv s' ∧ Answers a s' k' ∧
      ∀ b (k₂ : Place β), b ≠ a → Answers b s k₂ → Answers b s' k₂ := by
  have hlast := (closeLast_localStep hs.last hk hstep).mpr hup
  rcases close_cases hstore hstep with
    ⟨hopen, hclosed, hby, hupcalls, hk'⟩ | ⟨rfl, hstatus, hby, hupcalls⟩ | ⟨hsame, hk'⟩
  · -- nobody else has closed the session
    have hnone : s.closedBy = none := by
      by_contra hne
      exact hopen (hs.closed.mpr hne)
    have hno : .close ∉ s'.upcalls := by
      rw [hupcalls]
      exact hs.notReported hopen
    refine ⟨⟨hlast, by simp [hclosed, hby], fun h => absurd hclosed h⟩,
      ⟨fun _ => ⟨hby, hno⟩, fun _ => .inl hk'⟩, ?_⟩
    intro b k₂ hne hb
    refine ⟨fun h => ?_, fun h => ?_⟩
    · have hbb := (hb.closing h).1
      rw [hnone] at hbb
      exact absurd hbb (by simp)
    · rw [hby] at h
      exact absurd (Option.some.inj h).symm hne
  · obtain ⟨hbefore, -⟩ := hk.closing rfl
    have hmem : .close ∈ s'.upcalls := by simp [hupcalls]
    have hclosed : s.status = .closed := hs.closed.mpr (by simp [hbefore])
    have hclosed' := hstatus.trans hclosed
    refine ⟨⟨hlast, by rw [hstatus, hby]; exact hs.closed, fun h => absurd hclosed' h⟩, ?_, ?_⟩
    · cases hstep
      exact ⟨fun h => absurd h (by simp [Place.isClosing]), fun _ => .inr hmem⟩
    · intro b k₂ hne hb
      refine ⟨fun h => ?_, fun _ => .inr hmem⟩
      have hbb := (hb.closing h).1
      rw [hbefore] at hbb
      exact absurd (Option.some.inj hbb).symm hne
  · refine ⟨⟨hlast, ?_, ?_⟩, hsame.answers hk hk', fun b k₂ _ hb => hsame.answers hb rfl⟩
    · rw [hsame.status, hsame.closedBy]
      exact hs.closed
    · intro hopen
      rw [hsame.reported]
      exact hs.notReported (mt hsame.status.mpr hopen)

end SessionState

/-! ## After `handler::close` -/

namespace SessionState

variable {a : T} {s s' : SessionState T β} {k k' : Place β} {e : SessionEvent β}

theorem close_mem_localStep (hstep : LocalStep a s k e s' k') (hmem : .close ∈ s'.upcalls) :
    .close ∈ s.upcalls ∨ k = .closeUpcall := by
  rcases upcalls_localStep hstep with ⟨heq, -⟩ | ⟨heq, -⟩ | ⟨hk, -⟩ | ⟨-, u, -, hu, heq⟩
  · exact .inl (heq ▸ hmem)
  · rw [heq] at hmem
    exact .inl (by simpa using hmem)
  · exact .inr hk
  · rw [heq] at hmem
    exact .inl ((List.mem_append.mp hmem).resolve_right (by simpa using hu.symm))

/-- How an activation comes to a place from which it makes an upcall. -/
theorem delivers_localStep (hstep : LocalStep a s k e s' k') (hk' : k'.delivers = true) :
    k.delivers = true ∨ k = .remoteEndpoint ∧ s.socketOpen = true ∨ s.status ≠ .closed ∨
      e.succeeds = true := by
  cases hstep with
  | endpointFound hopen => exact .inr (.inl ⟨rfl, hopen⟩)
  | readExchanged hs | readGoOn hs => exact .inr (.inr (.inl (by simp [hs])))
  | received | written => exact .inr (.inr (.inr rfl))
  | readDeliver | doneDeliver => exact .inl rfl
  | _ => exact absurd hk' Bool.false_ne_true

/-- A callback that is called with success has made its test. -/
theorem succeeds_act (h : s.act a k e = some (s', k')) (he : e.succeeds = true) :
    k'.delivers = true ∧ s'.upcalls = s.upcalls := by
  cases e with
  | readDone ok =>
      obtain rfl : ok = true := he
      cases k <;> simp only [act, Bool.false_eq_true, false_and, if_false, reduceCtorEq] at h
      split_ifs at h
      obtain ⟨rfl, rfl⟩ := Prod.mk.inj (Option.some.inj h)
      exact ⟨rfl, rfl⟩
  | writeDone ok =>
      obtain rfl : ok = true := he
      simp only [act] at h
      split at h
      · obtain ⟨rfl, rfl⟩ := Prod.mk.inj (Option.some.inj h)
        exact ⟨rfl, rfl⟩
      · cases h
  | _ => exact absurd he Bool.false_ne_true

/-- The socket is closed before `handler::close` is called. -/
theorem closeUpcall_localStep (hstep : LocalStep a s k e s' k') (hk' : k' = .closeUpcall) :
    s'.socketOpen = false := by
  cases hstep with
  | closeSocket => rfl
  | _ => cases hk'

/-- A socket is opened by the creator's call of `connect` only. -/
theorem socketOpen_localStep (hstep : LocalStep a s k e s' k') (hs : s.toConnect = 0)
    (hopen : s.socketOpen = false) : s'.socketOpen = false := by
  cases hstep with
  | startConnecting hcreating => simp [toConnect, hcreating] at hs
  | closeSocket => rfl
  | _ => exact hopen

theorem remoteEndpoint_localStep (hstep : LocalStep a s k e s' k') (hk' : k' = .remoteEndpoint) :
    s'.status = .connected := by
  cases hstep with
  | storeConnected => rfl
  | _ => cases hk'

end SessionState

/-- In the runs of the conditions, `handler::close` leaves no activation before an upcall, nor one
that its socket lets go on to it. -/
structure CloseOk (c : Session T β) : Prop where
  close : CloseInv c.shared
  answers : ∀ a, Answers a c.shared (c.pc a)
  quiet : .close ∈ c.shared.upcalls → ∀ a, (c.pc a).delivers = false
  endpoint : ∀ a, c.pc a = .remoteEndpoint →
    (.close ∈ c.shared.upcalls ∨ ∃ b, c.pc b = .closeUpcall) → c.shared.socketOpen = false

namespace CloseOk

variable {c : Session T β} {a : T} {s' : SessionState T β} {k' : Place β} {e : SessionEvent β}

theorem closed_of_mem (hc : CloseOk c) (hclose : .close ∈ c.shared.upcalls) :
    c.shared.status = .closed := by
  by_contra hopen
  exact hc.close.notReported hopen hclose

variable [DecidableEq T]

/-- `handler::close` has been called, or is about to be. -/
theorem close_or_closing (hstep : SessionState.LocalStep a c.shared (c.pc a) e s' k')
    (h : .close ∈ s'.upcalls ∨ ∃ b, (c.move a s' k').pc b = .closeUpcall) :
    (.close ∈ c.shared.upcalls ∨ ∃ b, c.pc b = .closeUpcall) ∨ k' = .closeUpcall := by
  rcases h with hmem | ⟨b, hb⟩
  · left
    exact (SessionState.close_mem_localStep hstep hmem).imp id fun hk => ⟨a, hk⟩
  · rcases eq_or_ne b a with rfl | hne
    · rw [Config.move_pc_self] at hb
      exact .inr hb
    · rw [Config.move_pc_of_ne c hne] at hb
      exact .inl (.inr ⟨b, hb⟩)

theorem step (hc : CloseOk c) (hreach : (sessionSystem T β).Reachable c) (hin : InTime c (a, e))
    (hact : c.shared.act a (c.pc a) e = some (s', k')) : CloseOk (c.move a s' k') := by
  have hstep := SessionState.localStep_of_act hact
  have hup : (c.pc a).isUpcall = true → .close ∉ c.shared.upcalls := by
    intro hup hclose
    have hdelivers : (c.pc a).delivers = true := by
      cases hk : c.pc a <;> rw [hk] at hup <;> first | rfl | exact absurd hup Bool.false_ne_true
    rw [hc.quiet hclose a] at hdelivers
    cases hdelivers
  obtain ⟨hs', hk', hothers⟩ :=
    SessionState.close_localStep hc.close (hc.answers a) hin.stored hup hstep
  have hanswers : ∀ b, Answers b s' ((c.move a s' k').pc b) :=
    Config.forall_pc_move (P := fun b k => Answers b s' k) hk'
      fun b hne => hothers b _ hne (hc.answers b)
  refine ⟨hs', hanswers, ?_, ?_⟩
  · intro hclose'
    by_cases hclose : .close ∈ c.shared.upcalls
    · refine Config.forall_pc_move (P := fun _ (k : Place β) => k.delivers = false) ?_
        fun b _ => hc.quiet hclose b
      rw [← Bool.not_eq_true]
      intro hdelivers
      rcases SessionState.delivers_localStep hstep hdelivers with h | ⟨hk, hopen⟩ | hopen | h
      · rw [hc.quiet hclose a] at h
        cases h
      · rw [hc.endpoint a hk (.inl hclose)] at hopen
        cases hopen
      · exact hopen (hc.closed_of_mem hclose)
      · exact hin.completed h hclose
    · -- this step calls `handler::close`
      have hk := (SessionState.close_mem_localStep hstep hclose').resolve_left hclose
      have hnobody := hin.closed hk
      rw [hk] at hstep
      cases hstep
      exact Config.forall_pc_move (P := fun _ (k : Place β) => k.delivers = false) rfl
        fun b _ => hnobody b
  · intro b hb hclosing
    rcases eq_or_ne b a with rfl | hne
    · rw [Config.move_pc_self] at hb
      have hconnected := SessionState.remoteEndpoint_localStep hstep hb
      have hclosed : s'.status = .closed := by
        rcases hclosing with hmem | ⟨d, hd⟩
        · by_contra hopen
          exact hs'.notReported hopen hmem
        · refine hs'.closed.mpr ?_
          rw [((hanswers d).closing (by rw [hd]; rfl)).1]
          simp
      cases hconnected.symm.trans hclosed
    · rw [Config.move_pc_of_ne c hne] at hb
      rcases close_or_closing hstep hclosing with hbefore | hk
      · have hconnected := Session.connected_of_connecting (a := b) hreach (by rw [hb]; rfl)
        exact SessionState.socketOpen_localStep hstep hconnected.toConnect
          (hc.endpoint b hb hbefore)
      · exact SessionState.closeUpcall_localStep hstep hk

end CloseOk

/-- The runs in which every step is in time. -/
def upcallSystem (T β : Type*) [DecidableEq T] :
    TransitionSystem (Session T β) (T × SessionEvent β) :=
  (sessionSystem T β).restrict InTime

theorem closeOk [DecidableEq T] {c : Session T β} (hc : (upcallSystem T β).Reachable c) :
    CloseOk c := by
  apply hc.invariant_of_reachable
  · rintro c ⟨accepted, rfl⟩
    refine ⟨⟨?_, by simp [Session.initial], by simp [Session.initial]⟩, fun a => ⟨?_, ?_⟩, ?_, ?_⟩
    · intro before after heq
      simp [Session.initial] at heq
    · intro h
      exact absurd h (by simp [Session.initial, Place.isClosing])
    · intro h
      exact absurd h (by simp [Session.initial])
    · intro h
      exact absurd h (by simp [Session.initial])
    · intro a h
      cases h
  · rintro c ⟨a, e⟩ d hreach hi ⟨hin, hd⟩
    obtain ⟨s', k', hact, rfl⟩ := Config.step_eq_some hd
    exact hi.step hreach.of_restrict hin hact

/-! ## What a step that is not in time leads to -/

section Late

variable [DecidableEq T] {c d : Session T β} {a : T} {e : SessionEvent β}

theorem not_closeLast_append {us : List (Upcall β)} {u : Upcall β} (hmem : .close ∈ us)
    (hu : u ≠ .error) : ¬ CloseLast (us ++ [u]) :=
  fun h => hu ((closeLast_append.mp h).2 hmem)

/-- An activation past its test can make its upcall, whatever has become of the session. -/
theorem exists_run_delivers (hk : (c.pc a).delivers = true) :
    ∃ es d u, (sessionSystem T β).Run c es d ∧ d.shared.upcalls = c.shared.upcalls ++ [u] ∧
      u ≠ .error := by
  have hexec : ∃ es s k u, TransitionSystem.exec
      (fun (r : SessionState T β × Place β) e => r.1.act a r.2 e) (c.shared, c.pc a) es =
        some (s, k) ∧ s.upcalls = c.shared.upcalls ++ [u] ∧ u ≠ .error := by
    cases hplace : c.pc a with
    | connectUpcall => exact ⟨[.run], _, _, .connect, rfl, rfl, by simp⟩
    | readProtocol | readDone => exact ⟨[.read .upcall, .run], _, _, .read, rfl, rfl, by simp⟩
    | readUpcall => exact ⟨[.run], _, _, .read, rfl, rfl, by simp⟩
    | writeUpcall => exact ⟨[.run], _, _, .write c.shared.queue.marked, rfl, rfl, by simp⟩
    | _ =>
        rw [hplace] at hk
        exact absurd hk Bool.false_ne_true
  obtain ⟨es, s, k, u, hes, hupcalls, hu⟩ := hexec
  obtain ⟨d, hr, rfl, -, -⟩ := Config.exists_run_of_exec_alone hes
  exact ⟨_, d, u, hr, hupcalls, hu⟩

/-- A closed session that a connect callback has connected can be closed again. -/
theorem exists_run_closes (hk : c.pc a = .remoteEndpoint) (hs : c.shared.status = .connected) :
    ∃ es d, (sessionSystem T β).Run c es d ∧ d.shared.upcalls = c.shared.upcalls ++ [.close] ∧
      ∀ b, b ≠ a → d.pc b = c.pc b := by
  have hes : TransitionSystem.exec
      (fun (r : SessionState T β × Place β) e => r.1.act a r.2 e) (c.shared, c.pc a)
      [.spurious, .close true, .run, .run, .run, .run] =
        some (({ c.shared with
          status := .closed
          closedBy := some a
          socketOpen := false } : SessionState T β).upcall .close, .idle) := by
    rw [hk]
    simp [TransitionSystem.exec, SessionState.act, SessionState.access, hs, CloseCall.target,
      CloseCall.immediately, show Status.connected < Status.closed by decide]
  obtain ⟨d, hr, hd, -, hother⟩ := Config.exists_run_of_exec_alone hes
  exact ⟨_, d, hr, by rw [hd]; rfl, hother⟩

/-- The activation that has closed the session calls `handler::close`. -/
theorem exists_run_reports (hk : (c.pc a).isClosing = true) :
    ∃ es d, (sessionSystem T β).Run c es d ∧ d.shared.upcalls = c.shared.upcalls ++ [.close] := by
  have hexec : ∃ es s k, TransitionSystem.exec
      (fun (r : SessionState T β × Place β) e => r.1.act a r.2 e) (c.shared, c.pc a) es =
        some (s, k) ∧ s.upcalls = c.shared.upcalls ++ [.close] := by
    cases hplace : c.pc a with
    | closeSocket call =>
        rw [hplace] at hk
        have hk : call.immediately = true := hk
        refine ⟨[.run, .run], ({ c.shared with socketOpen := false }).upcall .close, .idle, ?_, rfl⟩
        simp [TransitionSystem.exec, SessionState.act, SessionState.access, hk]
    | closeUpcall => exact ⟨[.run], _, _, rfl, rfl⟩
    | _ =>
        rw [hplace] at hk
        exact absurd hk Bool.false_ne_true
  obtain ⟨es, s, k, hes, hupcalls⟩ := hexec
  obtain ⟨d, hr, rfl, -, -⟩ := Config.exists_run_of_exec_alone hes
  exact ⟨_, d, hr, hupcalls⟩

/-- After a store that finds the session closed `handler::close` can be called twice. -/
theorem CloseOk.exists_run_of_stored (hc : CloseOk c) (hd : (sessionSystem T β).Step c (a, e) d)
    (hk : c.pc a = .storeConnected) (hclosed : c.shared.status = .closed) :
    ∃ es f, (sessionSystem T β).Run d es f ∧ ¬ CloseLast f.shared.upcalls := by
  obtain ⟨s', k', hact, rfl⟩ := Config.step_eq_some hd
  have hact : c.shared.act a (c.pc a) e = some (s', k') := hact
  have hstep := SessionState.localStep_of_act hact
  rw [hk] at hstep
  cases hstep
  obtain ⟨es, f, hr, hupcalls, hother⟩ := exists_run_closes (a := a)
    (c := c.move a { c.shared with status := .connected } .remoteEndpoint)
    (Config.move_pc_self ..) rfl
  by_cases hmem : .close ∈ c.shared.upcalls
  · refine ⟨es, f, hr, ?_⟩
    rw [hupcalls]
    exact not_closeLast_append hmem (by simp)
  · -- whoever has closed the session has still to call `handler::close`
    obtain ⟨b, hb⟩ := Option.ne_none_iff_exists'.mp (hc.close.closed.mp hclosed)
    have hclosing := ((hc.answers b).reports hb).resolve_right hmem
    have hne : b ≠ a := by
      rintro rfl
      rw [hk] at hclosing
      cases hclosing
    have hpc : f.pc b = c.pc b := (hother b hne).trans (Config.move_pc_of_ne c hne ..)
    obtain ⟨es', f', hr', hupcalls'⟩ :=
      exists_run_reports (c := f) (a := b) (by rwa [hpc])
    refine ⟨_, f', hr.trans hr', ?_⟩
    rw [hupcalls', hupcalls]
    exact not_closeLast_append (by simp) (by simp)

/-- Each of the conditions leaves out only what can break the order. -/
theorem CloseOk.exists_run_of_not_inTime (hc : CloseOk c)
    (hd : (sessionSystem T β).Step c (a, e) d) (hno : ¬ InTime c (a, e)) :
    ∃ es f, (sessionSystem T β).Run d es f ∧ ¬ CloseLast f.shared.upcalls := by
  by_cases hstored : StoredInTime c (a, e)
  · obtain ⟨s', k', hact, rfl⟩ := Config.step_eq_some hd
    have hact : c.shared.act a (c.pc a) e = some (s', k') := hact
    by_cases hcompleted : CompletedInTime c (a, e)
    · have hclosed : ¬ ClosedInTime c (a, e) := fun h => hno ⟨hstored, hcompleted, h⟩
      simp only [ClosedInTime, not_forall, Bool.not_eq_false] at hclosed
      obtain ⟨hk, b, hb⟩ := hclosed
      have hne : b ≠ a := by
        rintro rfl
        rw [hk] at hb
        cases hb
      have hstep := SessionState.localStep_of_act hact
      rw [hk] at hstep
      cases hstep
      obtain ⟨es, f, u, hr, hupcalls, hu⟩ := exists_run_delivers (a := b)
        (c := c.move a (c.shared.upcall .close) .idle) (by rwa [Config.move_pc_of_ne c hne])
      refine ⟨es, f, hr, ?_⟩
      rw [hupcalls]
      exact not_closeLast_append (by simp [SessionState.upcall]) hu
    · simp only [CompletedInTime, not_forall, not_not] at hcompleted
      obtain ⟨he, hmem⟩ := hcompleted
      obtain ⟨hdelivers, hsame⟩ := SessionState.succeeds_act hact he
      obtain ⟨es, f, u, hr, hupcalls, hu⟩ := exists_run_delivers (a := a) (c := c.move a s' k')
        (by rwa [Config.move_pc_self])
      refine ⟨es, f, hr, ?_⟩
      rw [hupcalls, Config.move_shared, hsame]
      exact not_closeLast_append hmem hu
  · simp only [StoredInTime, not_forall, not_not] at hstored
    obtain ⟨hk, hclosed⟩ := hstored
    exact hc.exists_run_of_stored hd hk hclosed

end Late

/-- In every run whose steps are all in time nothing but errors follows `handler::close`; and a
step of such a run that is not in time leads to a state from which something else can follow. -/
theorem close_is_last [DecidableEq T] (c : Session T β) (hc : (upcallSystem T β).Reachable c) :
    CloseLast c.shared.upcalls ∧
    ∀ e d, (sessionSystem T β).Step c e d →
      (InTime c e → CloseLast d.shared.upcalls) ∧
      (¬ InTime c e →
        ∃ es f, (sessionSystem T β).Run d es f ∧ ¬ CloseLast f.shared.upcalls) := by
  have hok := closeOk hc
  refine ⟨hok.close.last, fun e d hd => ⟨fun hin => ?_, fun hno => ?_⟩⟩
  · exact (closeOk (hc.step ⟨hin, hd⟩)).close.last
  · exact hok.exists_run_of_not_inTime hd hno

/-- An accepted session is read from, and closed by another thread. -/
def connectThenClose (a b : T) : List (T × SessionEvent ℕ) :=
  [(a, .connect), (a, .run), (a, .run), (a, .run), (a, .run), (a, .read .async), (b, .close true),
    (b, .run), (b, .run), (b, .run)]

instance [DecidableEq β] (c : Session T β) (e : T × SessionEvent β) :
    Decidable (StoredInTime c e) := inferInstanceAs (Decidable (_ → _))

instance [DecidableEq β] (c : Session T β) (e : T × SessionEvent β) :
    Decidable (CompletedInTime c e) := inferInstanceAs (Decidable (_ → _))

instance [DecidableEq β] [Fintype T] (c : Session T β) (e : T × SessionEvent β) :
    Decidable (ClosedInTime c e) := inferInstanceAs (Decidable (_ → _))

instance [DecidableEq β] [Fintype T] (c : Session T β) (e : T × SessionEvent β) :
    Decidable (InTime c e) :=
  decidable_of_iff (_ ∧ _ ∧ _) ⟨fun h => ⟨h.1, h.2.1, h.2.2⟩,
    fun h => ⟨h.stored, h.completed, h.closed⟩⟩

/-- A read is outstanding when `handler::close` is called. -/
theorem close_is_last_after_connect : ∃ c d : Session (Fin 2) ℕ,
    (upcallSystem (Fin 2) ℕ).Reachable c ∧ c.shared.reads = 1 ∧
      (sessionSystem (Fin 2) ℕ).Step c (1, .run) d ∧ d.shared.upcalls = [.connect, .close] ∧
      CloseLast d.shared.upcalls := by
  obtain ⟨c, hc, hp⟩ := Session.exists_reachable_of_exec (InTime (T := Fin 2) (β := ℕ)) true
    (connectThenClose 0 1)
    (fun c => decide (c.shared.upcalls = [.connect] ∧ c.shared.reads = 1 ∧
      c.pc 1 = .closeUpcall ∧ InTime c (1, .run))) (by decide +kernel)
  obtain ⟨hupcalls, hreads, hk, hin⟩ := of_decide_eq_true hp
  have hd := Session.step_of_access hk rfl
  refine ⟨c, _, hc, hreads, hd, by simp [SessionState.upcall, hupcalls], ?_⟩
  exact ((close_is_last c hc).2 _ _ hd).1 hin

/-- The data of a completed read, whose callback is called after the close. -/
def readAfterClose (a b : T) : List (T × SessionEvent ℕ) :=
  connectThenClose a b ++ [(b, .run), (a, .readDone true), (a, .read .upcall), (a, .run)]

theorem not_close_is_last : ¬ ∀ c : Session (Fin 2) ℕ,
    (sessionSystem (Fin 2) ℕ).Reachable c → CloseLast c.shared.upcalls := by
  intro h
  obtain ⟨c, hc, hp⟩ := Session.exists_reachable_of_exec (fun _ _ => True) true
    (readAfterClose (0 : Fin 2) 1)
    (fun c => decide (c.shared.upcalls = [.connect, .close, .read])) (by decide +kernel)
  have hlast := h c hc.of_restrict [.connect] [.read] (of_decide_eq_true hp) .read (by simp)
  exact absurd hlast (by simp)

end Minapp
