import Minapp.Verification.Session.Graceful

/-! # A closing session is not stranded

The duty to close a closing session passes between the activation that has set `closing`,
the writers and the callbacks of `async_write`. While the session is closing, one of them
has it, or an operation whose callback will. -/

namespace Minapp

variable {T β : Type*}

/-- A place of the callback of a failed write from which it will close the session. -/
def Place.willClose : Place β → Bool
  | .writeError | .closeLoad .writeError => true
  | .closeExchange .writeError current => decide (current < .closed)
  | _ => false

/-- A place from which an activation will close a closing session, or leave that to the one
that answers for the marked buffers. -/
def Place.onDuty : Place β → Bool
  | .testClosed | .mark | .testDrained _ | .asyncWrite
  | .writeUpcall | .clearMarked | .writeError => true
  | .closeLoad call => call.immediately
  | .closeExchange call current => call.immediately && decide (current < .closed)
  | .closeSocket call => !call.immediately
  | _ => false

/-- A place inside `close`. -/
def Place.inClose : Place β → Bool
  | .closeLoad _ | .closeExchange _ _ | .closeSocket _ | .closeUpcall => true
  | _ => false

/-- The store of a connect callback does not find the batch of a failed write still marked,
its callback past the `close(true)` it makes. -/
def StoresAnswered (c : Session T β) (e : T × SessionEvent β) : Prop :=
  c.pc e.1 = .storeConnected → c.shared.owner = .failed → ∃ a, (c.pc a).willClose = true

instance [Fintype T] [DecidableEq T] [DecidableEq β] (c : Session T β)
    (e : T × SessionEvent β) : Decidable (StoresAnswered c e) :=
  inferInstanceAs (Decidable (_ → _ → _))

/-- The runs whose connect callbacks all meet the condition. -/
def answeredSystem (T β : Type*) [DecidableEq T] :
    TransitionSystem (Session T β) (T × SessionEvent β) :=
  (sessionSystem T β).restrict StoresAnswered

/-- A failed write closes the session, and a closing session has somebody to close it. -/
structure ClosingInv (c : Session T β) : Prop where
  failed : c.shared.owner = .failed →
    c.shared.status = .closed ∨ ∃ a, (c.pc a).willClose = true
  closing : c.shared.status = .closing →
    c.shared.owner = .operation ∨ ∃ a, (c.pc a).onDuty = true

theorem Place.onDuty_of_willClose {k : Place β} (h : k.willClose = true) : k.onDuty = true := by
  cases k with
  | writeError => rfl
  | closeLoad call =>
      cases call with
      | writeError => rfl
      | _ => exact absurd h (by simp [Place.willClose])
  | closeExchange call current =>
      cases call with
      | writeError => exact h
      | _ => exact absurd h (by simp [Place.willClose])
  | _ => exact absurd h (by simp [Place.willClose])

namespace Session

open SessionState

variable [DecidableEq T] {c : Session T β} {a : T} {s' : SessionState T β} {k k' : Place β}
  {e : SessionEvent β} {p : Place β → Bool}

/-- Some activation is still at a place of a kind, if the one that moves stays at such places. -/
theorem exists_place_move (hk : c.pc a = k) (hp : p k = true → p k' = true)
    (h : ∃ b, p (c.pc b) = true) : ∃ b, p ((c.move a s' k').pc b) = true := by
  refine Config.exists_pc_move (P := fun k => p k = true) h ?_
  rw [hk]
  exact hp

/-- An activation that leaves a place of no interest leaves the others where they are. -/
theorem exists_place_other (hk : c.pc a = k) (hno : p k = false) (h : ∃ b, p (c.pc b) = true) :
    ∃ b, p ((c.move a s' k').pc b) = true :=
  exists_place_move hk (fun h => absurd (hno.symm.trans h) Bool.false_ne_true) h

theorem exists_place_self (h : p k' = true) : ∃ b, p ((c.move a s' k').pc b) = true :=
  ⟨a, by rwa [Config.move_pc_self]⟩

theorem willClose_localStep
    (hc : c.shared.owner = .failed → c.shared.status = .closed ∨ ∃ a, (c.pc a).willClose = true)
    (hstore : k = .storeConnected → c.shared.owner = .failed → ∃ a, (c.pc a).willClose = true)
    (hk : c.pc a = k) (hstep : LocalStep a c.shared k e s' k') (hf : s'.owner = .failed) :
    s'.status = .closed ∨ ∃ b, ((c.move a s' k').pc b).willClose = true := by
  cases hstep with
  | writeFailed | writeError => exact .inr (exists_place_self rfl)
  | markNew | asyncWrite | written | writeUpcall | clearMarked => exact absurd hf (by simp)
  | storeConnected => exact .inr (exists_place_other hk rfl (hstore rfl hf))
  | @closeLoad call | @closeRetry call _ =>
      by_cases hclosed : c.shared.status = .closed
      · exact .inl hclosed
      · refine .inr (exists_place_move hk (fun h => ?_) ((hc hf).resolve_left hclosed))
        cases call with
        | writeError =>
            exact decide_eq_true (not_not.mp fun h => hclosed (status_closed_of_not_lt h))
        | _ => exact absurd h (by simp [Place.willClose])
  | @closeExchanged call hlt =>
      cases hi : call.immediately with
      | true => exact .inl (by simp [CloseCall.target, hi])
      | false =>
          -- the exchange has found a session that is not closing yet
          have hne : c.shared.status ≠ .closed := by
            intro hclosed
            rw [hclosed, CloseCall.target, hi] at hlt
            exact absurd hlt (by decide)
          refine .inr (exists_place_other hk ?_ ((hc hf).resolve_left hne))
          cases call <;> first | rfl | exact absurd hi (by simp [CloseCall.immediately])
  | @closeStop call current hstop =>
      refine (hc hf).imp id (exists_place_other hk ?_)
      cases call with
      | writeError => exact decide_eq_false hstop
      | _ => rfl
  | readExchanged hconnected =>
      have hne : c.shared.status ≠ .closed := by
        rw [hconnected]
        decide
      exact .inr (exists_place_other hk rfl ((hc hf).resolve_left hne))
  | readNone =>
      by_cases hreading : c.shared.status = .reading
      · have hne : c.shared.status ≠ .closed := by
          rw [hreading]
          decide
        exact .inr (exists_place_other hk rfl ((hc hf).resolve_left hne))
      · simp only [if_neg hreading]
        exact (hc hf).imp id (exists_place_other hk rfl)
  | _ => exact (hc hf).imp id (exists_place_other hk rfl)

omit [DecidableEq T] in
/-- Whoever finds a batch marked while the session is closing can leave the close to the one
that answers for the batch. -/
theorem onDuty_of_marked (hc : ClosingInv c) (hq : c.shared.QueueOk)
    (hh : ∀ b, Holds b c.shared.owner (c.pc b)) (hclosing : c.shared.status = .closing)
    (hmarked : c.shared.queue.marked ≠ []) : c.shared.owner = .operation ∨
      ∃ b, (c.pc b).onDuty = true ∧ c.pc b ≠ .mark := by
  have hbatches := hq.batches
  cases hown : c.shared.owner with
  | nobody =>
      rw [hown] at hbatches
      exact absurd hbatches.1 hmarked
  | starting b =>
      have hb := (hh b).starting.mpr hown
      exact .inr ⟨b, by rw [hb]; rfl, by simp [hb]⟩
  | operation => exact .inl rfl
  | reporting b =>
      have hb := (hh b).reporting.mpr hown
      exact .inr ⟨b, by rw [hb]; rfl, by simp [hb]⟩
  | clearing b =>
      have hb := (hh b).clearing.mpr hown
      exact .inr ⟨b, by rw [hb]; rfl, by simp [hb]⟩
  | failed =>
      rcases hc.failed hown with hclosed | ⟨b, hb⟩
      · rw [hclosing] at hclosed
        exact absurd hclosed (by simp)
      · refine .inr ⟨b, Place.onDuty_of_willClose hb, ?_⟩
        intro hmark
        rw [hmark] at hb
        exact absurd hb (by simp [Place.willClose])

theorem onDuty_localStep (hc : ClosingInv c) (hq : c.shared.QueueOk)
    (hh : ∀ b, Holds b c.shared.owner (c.pc b)) (hk : c.pc a = k)
    (hstep : LocalStep a c.shared k e s' k') (hclosing : s'.status = .closing) :
    s'.owner = .operation ∨ ∃ b, ((c.move a s' k').pc b).onDuty = true := by
  cases hstep with
  | manage | foundOpen | markEmpty | markNew | written | writeFailed | writeUpcall | clearMarked =>
      exact .inr (exists_place_self rfl)
  | drained | writeError => exact .inr (exists_place_self rfl)
  | asyncWrite => exact .inl rfl
  | shutdownReceive => exact .inr (exists_place_self rfl)
  | foundClosed hle =>
      have hclosed := status_closed_of_le hle
      rw [hclosing] at hclosed
      exact absurd hclosed (by simp)
  | notClosing hne => exact absurd hclosing hne
  | storeConnected | readExchanged => exact absurd hclosing (by simp)
  | markBusy hle hne =>
      obtain ⟨-, ⟨hmarked, -⟩ | ⟨-, -, hz⟩⟩ := BufferManager.mark_of_nonpos hq.marker hle
      · apply (onDuty_of_marked hc hq hh hclosing hmarked).imp id
        rintro ⟨b, hb, hnot⟩
        have hba : b ≠ a := by
          rintro rfl
          exact hnot hk
        exact ⟨b, by rwa [Config.move_pc_of_ne c hba]⟩
      · exact absurd hz hne
  | @closeLoad call | @closeRetry call _ =>
      -- a closing session is what the exchange of a `close(true)` expects
      refine (hc.closing hclosing).imp id (exists_place_move hk fun hduty => ?_)
      change (call.immediately && decide (c.shared.status < .closed)) = true
      rw [hclosing]
      cases hi : call.immediately with
      | true => rfl
      | false => exact absurd hduty (by simp [Place.onDuty, hi])
  | @closeExchanged call hlt =>
      cases hi : call.immediately with
      | true => exact absurd hclosing (by simp [CloseCall.target, hi])
      | false => exact .inr (exists_place_self (by simp [Place.onDuty, hi]))
  | @closeStop call current hstop =>
      refine (hc.closing hclosing).imp id (exists_place_other hk ?_)
      cases hi : call.immediately with
      | true =>
          have hnot : ¬ current < Status.closed := by
            simpa [CloseCall.target, hi] using hstop
          simp [Place.onDuty, hnot]
      | false => simp [Place.onDuty, hi]
  | closeSocket hi =>
      refine (hc.closing hclosing).imp id (exists_place_other hk ?_)
      simp [Place.onDuty, hi]
  | readNone =>
      have hsame : c.shared.status = .closing := by
        by_contra hne
        by_cases hreading : c.shared.status = .reading
        · exact absurd hclosing (by simp [hreading])
        · exact hne (by simpa [hreading] using hclosing)
      exact (hc.closing hsame).imp id (exists_place_other hk rfl)
  | _ => exact (hc.closing hclosing).imp id (exists_place_other hk rfl)

theorem closingInv (hc : (answeredSystem T β).Reachable c) : ClosingInv c := by
  apply hc.invariant_of_reachable
  · rintro c ⟨accepted, rfl⟩
    exact ⟨fun h => absurd h (by simp [initial]), fun h => absurd h (by simp [initial])⟩
  · rintro c ⟨a, e⟩ d hreach hi ⟨hstore, hstep⟩
    obtain ⟨s', k', hact, rfl⟩ := Config.step_eq_some hstep
    have hlocal := localStep_of_act hact
    obtain ⟨hq, hh⟩ := session_queueInv hreach
    exact ⟨willClose_localStep hi.failed hstore rfl hlocal, onDuty_localStep hi hq hh rfl hlocal⟩

end Session

/-! ## The completion of an outstanding write -/

theorem BufferManager.mark_pos {m : BufferManager β} (hm : m.MarkerInv) (hmarked : m.marked = [])
    (hmanaged : m.managed ≠ []) : 0 < m.mark.1 := by
  have hnonneg := hm.nonneg
  cases hs : m.managed with
  | nil => exact absurd hs hmanaged
  | cons b bs =>
      simp only [mark, hmarked, hs, List.isEmpty_nil, List.isEmpty_cons, if_true,
        Bool.false_eq_true, if_false]
      split <;> omega

namespace SessionState

variable {a : T} {s : SessionState T β} {batch : List β}

/-- What an activation does alone, from one access to the next. -/
abbrev alone (a : T) (s : SessionState T β) (k : Place β) (es : List (SessionEvent β)) :
    Option (SessionState T β × Place β) :=
  TransitionSystem.exec (fun (r : SessionState T β × Place β) e => act a r.1 r.2 e) (s, k) es

theorem alone_append {k : Place β} {es es' : List (SessionEvent β)} {s' : SessionState T β}
    {k' : Place β} (h : alone a s k es = some (s', k')) :
    alone a s k (es ++ es') = alone a s' k' es' := by
  induction es generalizing s k with
  | nil =>
      obtain ⟨rfl, rfl⟩ := Prod.mk.inj (Option.some.inj h)
      rfl
  | cons e es ih =>
      obtain ⟨⟨s₁, k₁⟩, hact, hrest⟩ := Option.bind_eq_some_iff.mp h
      change Option.bind (act a s k e) _ = _
      have hact : act a s k e = some (s₁, k₁) := hact
      rw [hact]
      exact ih hrest

/-- `close(true)` of a closing session. -/
theorem closed_of_closeLoad {call : CloseCall} (hs : s.status = .closing)
    (hi : call.immediately = true) : ∃ s' k', alone a s (.closeLoad call) [.run, .run] =
      some (s', k') ∧ s'.status = .closed := by
  have hlt : Status.closing < call.target := by
    rw [CloseCall.target, hi]
    decide
  have hlt : s.status < call.target := by rwa [hs]
  refine ⟨{ s with status := call.target, closedBy := some a }, .closeSocket call, ?_, ?_⟩
  · simp only [alone, TransitionSystem.exec, act, access, Option.bind_some, if_pos hlt, hi,
      if_true]
  · simp only [CloseCall.target, hi, if_true]

/-- The callback of a failed write closes a closing session. -/
theorem closed_of_writeFailed (hs : s.status = .closing) (hw : s.writes = [batch]) :
    ∃ s' k', alone a s .idle [.writeDone false, .run, .run, .run] = some (s', k') ∧
      s'.status = .closed := by
  have hfirst : alone a s .idle [.writeDone false, .run] =
      some (({ s with writes := [], owner := .failed } : SessionState T β).upcall .error,
        .closeLoad .writeError) := by
    simp only [alone, TransitionSystem.exec, act, hw, Bool.false_eq_true, if_false,
      Option.bind_some, access]
  rw [show [SessionEvent.writeDone (β := β) false, .run, .run, .run] =
    [.writeDone false, .run] ++ [.run, .run] from rfl, alone_append hfirst]
  exact closed_of_closeLoad hs rfl

/-- The state in which the callback of a successful write looks for more to write. -/
def written (a : T) (s : SessionState T β) (batch : List β) : SessionState T β :=
  let s := { s with writes := [], owner := .reporting a, completed := s.completed ++ [batch] }
  { s.upcall (.write s.queue.marked) with queue := s.queue.clearMarked, owner := .nobody }

theorem alone_written (hs : s.status = .closing) (hw : s.writes = [batch]) :
    alone a s .idle [.writeDone true, .run, .run, .run] = some (s.written a batch, .mark) := by
  have hopen : ¬ Status.closed ≤ s.status := by
    rw [hs]
    decide
  simp only [alone, TransitionSystem.exec, act, hw, if_true, Option.bind_some, access, upcall,
    if_neg hopen]
  rfl

/-- The callback of a successful write closes a closing session if nothing is managed. -/
theorem closed_of_written (hs : s.status = .closing) (hw : s.writes = [batch])
    (hm : s.queue.managed = []) :
    ∃ s' k', alone a s .idle [.writeDone true, .run, .run, .run, .run, .run, .run, .run] =
      some (s', k') ∧ s'.status = .closed := by
  have hmark : alone a (s.written a batch) .mark [.run, .run] = some (s.written a batch,
      .closeLoad (.drained s.appended)) := by
    have hempty : (s.written a batch).queue.mark = (0, (s.written a batch).queue) := by
      simp [written, upcall, BufferManager.mark, BufferManager.clearMarked, hm]
    have hclosing : (s.written a batch).status = .closing := hs
    simp only [alone, TransitionSystem.exec, act, access, hempty, Option.bind_some,
      Int.le_refl, if_true, if_pos hclosing]
    rfl
  rw [show [SessionEvent.writeDone (β := β) true, .run, .run, .run, .run, .run, .run, .run] =
    [.writeDone true, .run, .run, .run] ++ ([.run, .run] ++ [.run, .run]) from rfl,
    alone_append (alone_written hs hw), alone_append hmark]
  exact closed_of_closeLoad hs rfl

/-- The callback of a successful write writes what is managed. -/
theorem rewritten_of_written (hs : s.status = .closing) (hw : s.writes = [batch])
    (hq : s.queue.MarkerInv) (hm : s.queue.managed ≠ []) :
    ∃ s', alone a s .idle [.writeDone true, .run, .run, .run, .run, .run] = some (s', .idle) ∧
      s'.status = .closing ∧ s'.writes = [s.queue.managed] ∧ s'.queue.managed = [] := by
  have hmarker : (s.written a batch).queue.MarkerInv :=
    ⟨hq.nonneg, hq.le_max, fun h => absurd rfl h⟩
  have hpos : 0 < (s.written a batch).queue.mark.1 := BufferManager.mark_pos hmarker rfl hm
  obtain ⟨-, -, heq, -⟩ := BufferManager.mark_of_pos hmarker hpos
  rw [show [SessionEvent.writeDone (β := β) true, .run, .run, .run, .run, .run] =
    [.writeDone true, .run, .run, .run] ++ [.run, .run] from rfl,
    alone_append (alone_written hs hw)]
  have hmark : alone a (s.written a batch) .mark [.run] = some ({ s.written a batch with
      queue := (s.written a batch).queue.mark.2
      owner := .starting a }, .asyncWrite) := by
    simp only [alone, TransitionSystem.exec, act, access, if_neg (Int.not_le.mpr hpos),
      Option.bind_some]
  rw [show [SessionEvent.run (β := β), .run] = [.run] ++ [.run] from rfl, alone_append hmark, heq]
  exact ⟨_, rfl, hs, rfl, rfl⟩

/-- Left alone, an activation that calls the callback of the outstanding write closes a
closing session, in the callback itself or in the one of the next batch. -/
theorem closed_of_writeDone (hs : s.status = .closing) (hw : s.writes = [batch])
    (hq : s.queue.MarkerInv) (ok : Bool) :
    ∃ es s' k', (∀ e ∈ es, e = .run ∨ e = .writeDone ok) ∧
      alone a s .idle (.writeDone ok :: es) = some (s', k') ∧ s'.status = .closed := by
  cases ok with
  | false =>
      obtain ⟨s', k', hex, hclosed⟩ := closed_of_writeFailed (a := a) hs hw
      exact ⟨_, s', k', by simp, hex, hclosed⟩
  | true =>
      by_cases hm : s.queue.managed = []
      · obtain ⟨s', k', hex, hclosed⟩ := closed_of_written (a := a) hs hw hm
        exact ⟨_, s', k', by simp, hex, hclosed⟩
      · obtain ⟨s₁, hfirst, hs₁, hw₁, hm₁⟩ := rewritten_of_written (a := a) hs hw hq hm
        obtain ⟨s', k', hex, hclosed⟩ := closed_of_written (a := a) hs₁ hw₁ hm₁
        refine ⟨_, s', k', ?_, (alone_append hfirst).trans hex, hclosed⟩
        simp

end SessionState

/-- An activation on duty is inside `write`, the callback of a write, or `close`. -/
theorem Place.inside_of_onDuty {k : Place β} (h : k.onDuty = true) :
    k.inWrite = true ∨ k.inClose = true := by
  cases k with
  | closeLoad | closeExchange | closeSocket => exact .inr rfl
  | testClosed | mark | testDrained | asyncWrite | writeUpcall | clearMarked | writeError =>
      exact .inl rfl
  | _ => exact absurd h (by simp [Place.onDuty])

/-- In every run whose connect callbacks do not find the batch of a failed write abandoned,
in every state in which the session is closing and no activation is inside `write`, `close`
or the callback of a write: a batch is marked and its `async_write` is outstanding, and
whatever its result, its callback closes the session, or the callback of the batch it
starts. -/
theorem closing_not_stranded [DecidableEq T] (c : Session T β)
    (hc : (answeredSystem T β).Reachable c) (hclosing : c.shared.status = .closing)
    (hquiet : ∀ a, (c.pc a).inWrite = false ∧ (c.pc a).inClose = false) :
    c.shared.queue.marked ≠ [] ∧ c.shared.writes = [c.shared.queue.marked] ∧
    ∀ a ok, c.pc a = .idle → ∃ es d,
      (∀ e ∈ es, e.1 = a ∧ (e.2 = .run ∨ e.2 = .writeDone ok)) ∧
      (sessionSystem T β).Run c ((a, .writeDone ok) :: es) d ∧ d.shared.status = .closed := by
  obtain ⟨hq, -⟩ := session_queueInv hc
  have howner : c.shared.owner = .operation := by
    apply ((Session.closingInv hc).closing hclosing).resolve_right
    rintro ⟨a, ha⟩
    obtain ⟨hwrite, hclose⟩ := hquiet a
    rcases Place.inside_of_onDuty ha with h | h
    · exact absurd (hwrite.symm.trans h) Bool.false_ne_true
    · exact absurd (hclose.symm.trans h) Bool.false_ne_true
  have hbatches := hq.batches
  rw [howner] at hbatches
  obtain ⟨hmarked, hwrites, -, -⟩ := hbatches
  refine ⟨hmarked, hwrites, fun a ok hidle => ?_⟩
  obtain ⟨es, s', k', hes, hex, hclosed⟩ :=
    SessionState.closed_of_writeDone (a := a) hclosing hwrites hq.marker ok
  rw [← hidle] at hex
  have hrun : ∃ d, (sessionSystem T β).Run c ((.writeDone ok :: es).map fun e => (a, e)) d ∧
      d.shared = s' ∧ d.pc a = k' ∧ ∀ b, b ≠ a → d.pc b = c.pc b :=
    Config.exists_run_of_exec_alone hex
  obtain ⟨d, hr, hd, -, -⟩ := hrun
  refine ⟨es.map fun e => (a, e), d, ?_, hr, by rw [hd]; exact hclosed⟩
  intro e he
  obtain ⟨e', he', rfl⟩ := List.mem_map.mp he
  exact ⟨rfl, hes e' he'⟩

/-- A graceful close finds the batch of a call of `write` in flight. -/
theorem closing_not_stranded_in_flight : ∃ c : Session (Fin 2) ℕ,
    (sessionSystem (Fin 2) ℕ).Reachable c ∧ c.shared.status = .closing ∧
      c.shared.queue.marked ≠ [] ∧ c.shared.writes = [c.shared.queue.marked] := by
  obtain ⟨c, hc, hp⟩ := Session.exists_reachable_of_exec (StoresAnswered (T := Fin 2) (β := ℕ))
    true ((writeThenClose 0 1).take 12) (fun c => decide (c.shared.status = .closing ∧
      ∀ a, (c.pc a).inWrite = false ∧ (c.pc a).inClose = false)) (by decide +kernel)
  obtain ⟨hclosing, hquiet⟩ := of_decide_eq_true hp
  obtain ⟨hmarked, hwrites, -⟩ := closing_not_stranded c hc hclosing hquiet
  exact ⟨c, hc.of_restrict, hclosing, hmarked, hwrites⟩

/-- A write fails before the session is connected, and closes it; the connect callback makes
it connected; it is closed gracefully, and its read ends. -/
def failThenConnect (a b : T) : List (T × SessionEvent ℕ) :=
  [(b, .write [1]), (b, .run), (b, .run), (b, .run), (b, .run), (b, .run), (b, .writeDone false),
    (b, .run), (b, .run), (b, .run), (b, .run), (b, .run), (a, .connect), (a, .connectDone true),
    (a, .run), (a, .run), (a, .run), (a, .run), (a, .read .async), (b, .close false), (b, .run),
    (b, .run), (b, .run), (b, .run), (b, .run), (a, .readDone false), (a, .run), (a, .run),
    (a, .run)]

/-- Nothing is left that could close the session, which is closing with its socket open. -/
theorem not_closing_not_stranded : ¬ ∀ c : Session (Fin 2) ℕ,
    (sessionSystem (Fin 2) ℕ).Reachable c → c.shared.status = .closing →
      (∀ a, c.pc a = .idle) → c.shared.socketOpen = true → c.shared.connects = 0 →
        c.shared.reads = 0 → c.shared.writes ≠ [] := by
  intro h
  obtain ⟨c, hc, hp⟩ := Session.exists_reachable_of_exec (fun _ _ => True) false
    (failThenConnect (0 : Fin 2) 1) (fun c => decide (c.shared.status = .closing ∧
      (∀ a, c.pc a = .idle) ∧ c.shared.socketOpen = true ∧ c.shared.connects = 0 ∧
      c.shared.reads = 0 ∧ c.shared.writes = [])) (by decide +kernel)
  obtain ⟨hclosing, hidle, hopen, hconnects, hreads, hwrites⟩ := of_decide_eq_true hp
  exact h c hc.of_restrict hclosing hidle hopen hconnects hreads hwrites

end Minapp
