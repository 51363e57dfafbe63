import Minapp.Verification.Receive.Draining
import Minapp.Verification.Session.Connect

/-! # The outcome of a connection attempt

When the callback of a connect comes to its end, and what it has reported then. The `read()`
that it calls may call the handler and itself without end, as it reads nothing. -/

namespace Minapp

variable {T β : Type*}

/-! ## The receive path in the callback -/

namespace ReadState

variable {h : ReadHandler} {s : ReadState} {n : ℕ}

/-- The functions that read, over no internal input, only call the handler for a frame of a fixed
length of zero. -/
theorem stalls_iff_of_empty (hempty : s.buf.internalInputSize = 0) :
    s.Stalls ↔ s.settings.protocol = .fixed ∧ s.settings.readBufferSize = 0 := by
  rw [Stalls, hempty]
  constructor
  · rintro ⟨hzero, hfixed | ⟨-, hpos⟩⟩
    · exact ⟨hfixed, hzero⟩
    · exact absurd hpos (Nat.lt_irrefl 0)
  · rintro ⟨hfixed, hzero⟩
    exact ⟨hzero, .inl hfixed⟩

theorem call_of_stalls (hs : s.Stalls) :
    s.call = s.beginFrame.deliver (s.beginFrame.buf.commitToExternalInput 0) 0 := by
  rw [call, read_of_stalls hs]
  rfl

theorem returned_call (hempty : s.buf.internalInputSize = 0) (hs : ¬ s.Stalls) :
    s.call.Returned := by
  rw [call]
  rcases drained_read hs with ⟨len, heq⟩ | ⟨-, hreturned | ⟨-, hlt⟩⟩
  · rw [heq]
    have hsize := s.internalInputSize_beginFrame
    obtain ⟨-, hreturned | ⟨-, hlt⟩⟩ :=
      drained_readPrefix (s := { s.beginFrame with control := .readPrefix len }) len
    · exact hreturned
    · have hlt : _ < s.beginFrame.buf.internalInputSize := hlt
      omega
  · split
    · rename_i len hc
      simp [Returned, waiting, hc] at hreturned
    · exact hreturned
  · omega

theorem outcome_of_returned (hs : s.Returned) :
    s.control = .threw ∨ ∃ outcome, outcome ≠ .upcall ∧ s.control.outcome = some outcome := by
  cases hc : s.control with
  | threw => exact .inl rfl
  | idle => exact .inr ⟨.none, by simp, rfl⟩
  | failed ec => exact .inr ⟨.error, by simp, rfl⟩
  | readSome | readFixed | prefixBytes | readDelim | overrun => exact .inr ⟨.async, by simp, rfl⟩
  | read | readPrefix | upcall => simp [Returned, waiting, hc] at hs

theorem delivered_asyncRead (n : ℕ) (control : Control) :
    (s.asyncRead n control).delivered = s.delivered := by
  rw [asyncRead]
  split <;> rfl

theorem delivered_readFixed (n : ℕ) : (s.readFixed n).delivered = s.delivered := by
  rw [readFixed]
  split
  · rfl
  · exact delivered_asyncRead ..

theorem delivered_readSome (n : ℕ) : (s.readSome n).delivered = s.delivered := by
  rw [readSome]
  split
  · rfl
  · exact delivered_asyncRead ..

theorem delivered_readDelim (delim : List Byte) :
    (s.readDelim delim).delivered = s.delivered := by
  rw [readDelim]
  split
  · exact delivered_readSome _
  · rfl

theorem delivered_readPrefix (len : ℕ) : (s.readPrefix len).delivered = s.delivered := by
  rw [readPrefix]
  split
  · rfl
  · exact delivered_asyncRead ..
  · exact delivered_readFixed _

theorem delivered_read : s.read.delivered = s.delivered := by
  rw [read_eq]
  split
  case h_2 => exact delivered_readSome _
  case h_3 => exact delivered_readFixed _
  case h_4 | h_5 | h_6 | h_7 | h_8 => exact delivered_readDelim _
  all_goals rfl

/-- Only an upcall delivers. -/
theorem delivered_call : s.call.delivered = s.delivered := by
  rw [call]
  split
  · exact (delivered_readPrefix _).trans delivered_read
  · exact delivered_read

/-- A call of `read()` is at the beginning of a round, and has called the handler `n` times, with
a segment of no bytes. -/
structure Round (h : ReadHandler) (s : ReadState) (n : ℕ) : Prop where
  control : s.control = .read
  empty : s.buf.internalInputSize = 0
  delivered : s.delivered = List.replicate n []
  settings : s.settings = (h s.delivered).settings

theorem round_initial : (initial h).Round h 0 := ⟨rfl, rfl, rfl, rfl⟩

theorem internalInputSize_foldl_consume (ns : List ℕ) (b : TripleBuffer) :
    (ns.foldl TripleBuffer.consume b).internalInputSize = b.internalInputSize := by
  induction ns generalizing b with
  | nil => rfl
  | cons n ns ih =>
      rw [List.foldl_cons, ih, TripleBuffer.consume]
      split
      · rfl
      · split <;> rfl

/-- The upcall for a frame of no bytes, and the round after it. -/
theorem Round.next (hs : s.Round h n) (hstalls : s.Stalls) :
    s.call.control = .upcall 0 ∧ s.call.delivered = s.delivered ∧
      (s.call.handlerRead h 0).Round h (n + 1) := by
  have hsize := s.internalInputSize_beginFrame
  rw [hs.empty] at hsize
  rw [call_of_stalls hstalls]
  generalize hb : s.beginFrame.buf.commitToExternalInput 0 = b
  have hempty : b.internalInputSize = 0 := by
    rw [← hb, TripleBuffer.commitToExternalInput_eq, hsize]
    rfl
  have hsegment : b.moveToNewExternalInputSegment.segment = [] := by
    have hmark : b.segmentSize = b.externalInputSize := by
      rw [← hb, TripleBuffer.commitToExternalInput_eq, hsize]
      rfl
    rw [TripleBuffer.segment, TripleBuffer.moveToNewExternalInputSegment, hmark]
    simp
  have hdelivered : s.delivered ++ [b.moveToNewExternalInputSegment.segment] =
      List.replicate (n + 1) [] := by
    rw [hsegment, hs.delivered, List.replicate_succ']
  refine ⟨rfl, rfl, rfl, ?_, hdelivered, rfl⟩
  rw [handlerRead, TripleBuffer.commitToExternalInput_eq]
  simp only [internalInputSize_foldl_consume]
  have hempty : (s.beginFrame.deliver b 0).buf.internalInputSize = 0 := hempty
  omega

end ReadState

namespace ConnectState

variable {h : ReadHandler} {a b : T} {s s' : ConnectState T β} {k k' : ConnectPlace β}
  {e : ConnectEvent β}

/-- What the receive path is like at a place of the callback. -/
def InputAt (h : ReadHandler) (s : ConnectState T β) : ConnectPlace β → Prop
  | .connecting .storeConnected | .connecting .remoteEndpoint | .connecting .connectUpcall
  | .connecting .readExchange | .connecting .readProtocol => ∃ n, s.input.Round h n
  | .connecting .readUpcall => ∃ n t, ReadState.Round h t n ∧ t.Stalls ∧ s.input = t.call
  | .connecting .readDone => False
  | _ => True

/-- A step that has nothing to do with the receive path. -/
theorem receive_of_ne {k : Place β} {e : SessionEvent β} (hprotocol : k ≠ .readProtocol)
    (hupcall : k ≠ .readUpcall) : s.receive h k e = some s.input := by
  cases k with
  | readProtocol => exact absurd rfl hprotocol
  | readUpcall => exact absurd rfl hupcall
  | _ => rfl

/-- A read function makes the upcall for a frame of no bytes only. -/
theorem stalls_of_upcall {n : ℕ} (hround : s.input.Round h n)
    (houtcome : s.input.call.control.outcome = some .upcall) : s.input.Stalls := by
  by_contra hstalls
  rcases ReadState.outcome_of_returned (ReadState.returned_call hround.empty hstalls) with
    hthrew | ⟨outcome, hne, hsome⟩
  · rw [hthrew] at houtcome
    cases houtcome
  · exact hne (Option.some.inj (hsome.symm.trans houtcome))

theorem inputAt_proceed {k k' : Place β} {e : SessionEvent β} {session : SessionState T β}
    {input : ReadState} {reported : List (Upcall β)} (hk : s.InputAt h (.connecting k))
    (hidle : k ≠ .idle) (hinput : s.receive h k e = some input)
    (hstep : SessionState.LocalStep a s.session k e session k') :
    ({ s with session, input, reported } : ConnectState T β).InputAt h (.connecting k') := by
  cases hstep with
  | storeConnected | endpointFound | connectUpcall | readExchanged | readGoOn =>
      obtain rfl := Option.some.inj hinput
      exact hk
  | readUpcall =>
      obtain ⟨n, t, hround, hstalls, heq⟩ := hk
      obtain ⟨hc, -, hnext⟩ := hround.next hstalls
      rw [receive, heq, hc] at hinput
      obtain rfl := Option.some.inj hinput
      exact ⟨n + 1, hnext⟩
  | readDeliver =>
      obtain ⟨n, hround⟩ := hk
      simp only [receive] at hinput
      split_ifs at hinput with houtcome
      obtain rfl := Option.some.inj hinput
      exact ⟨n, s.input, hround, stalls_of_upcall hround houtcome, rfl⟩
  | doneDeliver | doneAsync | doneFail => exact hk.elim
  | write | close | startAccepted | startConnecting | connected | connectFailed | received
  | readFailed | written | writeFailed => exact absurd rfl hidle
  | _ => trivial

theorem InputAt.congr (hin : s.InputAt h k) (hsame : s'.input = s.input) : s'.InputAt h k := by
  unfold InputAt at hin ⊢
  rw [hsame]
  exact hin

theorem inputAt_of_not_calling (hk : k.calling = false) : s.InputAt h k := by
  cases k with
  | outside k => trivial
  | _ => cases hk

theorem input_callStep (hs : s.CallOk) (hunused : 0 < s.session.toConnect → s.input = .initial h)
    (hk : Calls a s k) (hin : s.InputAt h k) (hstep : CallStep h a s k e s' k') :
    (0 < s'.session.toConnect → s'.input = .initial h) ∧ s'.InputAt h k' ∧
      (k.calling = false → s'.input = s.input) := by
  cases hstep with
  | outside hstep hs' he' =>
      obtain ⟨h, -⟩ | ⟨-, hsame⟩ := SessionState.toConnect_localStep hstep
      · exact (h.elim hs' he').elim
      · exact ⟨fun hpos => hunused (hsame ▸ hpos), trivial, fun _ => rfl⟩
  | connected hstep =>
      obtain ⟨-, -, hless⟩ | ⟨⟨hne, -⟩, -⟩ := SessionState.toConnect_localStep hstep
      · have hinitial := hunused (by omega)
        refine ⟨fun _ => hinitial, ⟨0, ?_⟩, fun _ => rfl⟩
        rw [hinitial]
        exact ReadState.round_initial
      · exact absurd rfl hne
  | connectFailed hstep =>
      obtain ⟨-, -, hless⟩ | ⟨⟨-, hne⟩, -⟩ := SessionState.toConnect_localStep hstep
      · exact ⟨fun _ => hunused (by omega), trivial, fun _ => rfl⟩
      · exact absurd rfl hne
  | fail hstep | failed hstep =>
      have hzero := hs.toConnect (hk.caller.mpr rfl)
      obtain ⟨hne, -⟩ := hk.knows.fail hstep
      have hsame := SessionState.toConnect_of_ne_idle hstep hne
      exact ⟨fun hpos => by simp only at hpos; omega, trivial, fun h => by cases h⟩
  | proceed hinput hstep =>
      have hzero := hs.toConnect (hk.caller.mpr rfl)
      have hidle := hk.knows.1.1
      have hsame := SessionState.toConnect_of_ne_idle hstep hidle
      exact ⟨fun hpos => by simp only at hpos; omega, inputAt_proceed hin hidle hinput hstep,
        fun h => by cases h⟩
  | proceeded _ hstep =>
      have hzero := hs.toConnect (hk.caller.mpr rfl)
      have hsame := SessionState.toConnect_of_ne_idle hstep hk.knows.1.1
      exact ⟨fun hpos => by simp only at hpos; omega, trivial, fun h => by cases h⟩
  | endpointThrows | readThrows | setException | setValue =>
      exact ⟨hunused, trivial, fun _ => rfl⟩
  | outsideThrows => exact ⟨hunused, trivial, fun _ => rfl⟩

end ConnectState

/-- The receive path is as the callback has left it, whatever other activations do. -/
theorem connect_inputAt [DecidableEq T] {h : ReadHandler} {c : ConnectConfig T β}
    (hc : (connectSystem T β h).Reachable c) (a : T) : c.shared.InputAt h (c.pc a) := by
  have hboth : (0 < c.shared.session.toConnect → c.shared.input = .initial h) ∧
      ∀ a, c.shared.InputAt h (c.pc a) := by
    apply hc.invariant_of_reachable (I := fun c =>
      (0 < c.shared.session.toConnect → c.shared.input = .initial h) ∧
        ∀ a, c.shared.InputAt h (c.pc a))
    · rintro c ⟨accepted, rfl⟩
      exact ⟨fun _ => rfl, fun _ => trivial⟩
    · rintro c ⟨a, e⟩ d hreach ⟨hunused, hin⟩ hd
      obtain ⟨s', k', hact, rfl⟩ := Config.step_eq_some hd
      have hstep := ConnectState.callStep_of_act hact
      obtain ⟨hs, hk⟩ := connect_callOk hreach.restrict_true
      obtain ⟨hunused', hin', hsame⟩ :=
        ConnectState.input_callStep hs hunused (hk a) (hin a) hstep
      refine ⟨hunused', Config.forall_pc_move (P := fun _ k => s'.InputAt h k) hin' ?_⟩
      intro b hne
      cases hcalling : (c.pc b).calling with
      | false => exact ConnectState.inputAt_of_not_calling hcalling
      | true =>
          have hcaller := (hk b).caller.mpr hcalling
          have hno : (c.pc a).calling = false := by
            rw [← Bool.not_eq_true]
            intro h
            exact hne (Option.some.inj (hcaller.symm.trans ((hk a).caller.mpr h)))
          exact (hin b).congr (hsame hno)
  exact hboth.2 a

/-! ## The callback comes to its end, or calls the handler for ever -/

/-- The statuses in which `read()` goes on. -/
def Status.Readable (status : Status) : Prop := status = .connected ∨ status = .reading

instance (status : Status) : Decidable status.Readable := inferInstanceAs (Decidable (_ ∨ _))

/-- The handler wants a frame of no bytes after `n` read upcalls for such frames. -/
def ReadHandler.Empty (h : ReadHandler) (n : ℕ) : Prop :=
  (h (List.replicate n [])).settings.protocol = .fixed ∧
    (h (List.replicate n [])).settings.readBufferSize = 0

/-- It leaves it at that in all read upcalls from then on. -/
def ReadHandler.EmptyFrom (h : ReadHandler) (n : ℕ) : Prop := ∀ m, n ≤ m → h.Empty m

theorem ReadState.Round.stalls_iff {h : ReadHandler} {s : ReadState} {n : ℕ}
    (hs : s.Round h n) : s.Stalls ↔ h.Empty n := by
  rw [stalls_iff_of_empty hs.empty, ReadHandler.Empty, hs.settings, hs.delivered]

namespace ConnectState

/-- A place from which `read()` may be called and go on. -/
def MayRead (s : ConnectState T β) : ConnectPlace β → Prop
  | .connecting .storeConnected => s.session.socketOpen = true
  | .connecting .remoteEndpoint => s.session.socketOpen = true ∧ s.session.status.Readable
  | .connecting .connectUpcall | .connecting .readExchange | .connecting .readProtocol
  | .connecting .readUpcall => s.session.status.Readable
  | _ => False

/-- `read()` calls the handler and itself without end: for frames of no bytes, of which the
handler wants more whatever it is given. -/
def Recurs (h : ReadHandler) (s : ConnectState T β) (k : ConnectPlace β) : Prop :=
  s.MayRead k ∧ h.EmptyFrom s.input.delivered.length

end ConnectState

/-- The accesses that fail without a cause are those of `remote_endpoint`, which may find the
peer gone: a `compare_exchange_weak` does not fail spuriously. -/
def ConnectPlace.Exchanges (k : ConnectPlace β) (e : ConnectEvent β) : Prop :=
  e = .session .spurious → k = .connecting .remoteEndpoint

theorem ConnectPlace.exchanges_of_ne {k : ConnectPlace β} {e : ConnectEvent β}
    (he : e ≠ .session .spurious) : k.Exchanges e :=
  fun h => absurd h he

/-- Activation `a` goes on, and no other one moves. -/
def ownSystem (T β : Type*) [DecidableEq T] (h : ReadHandler) (a : T) :
    TransitionSystem (ConnectConfig T β) (T × ConnectEvent β) :=
  (connectSystem T β h).restrict fun c e => e.1 = a ∧ (c.pc a).Exchanges e.2

/-- A bound on the accesses an activation has left at a place when nobody interferes and
`read()` makes `n` more upcalls. -/
def Place.left (status : Status) (n : ℕ) : Place β → ℕ
  | .idle | .readDone => 0
  | .asyncWrite | .closeUpcall | .readNone => 1
  | .closeSocket call => if call.immediately then 2 else 9
  | .closeExchange call current =>
    (if call.immediately then 3 else 10) + if status = current then 0 else 1
  | .closeLoad call => if call.immediately then 5 else 12
  | .testDrained _ | .writeError | .connectError => 6
  | .mark => 7
  | .testClosed => 8
  | .manage _ | .clearMarked => 9
  | .testClosing _ | .writeUpcall => 10
  | .readError => 13
  | .readUpcall => 4 * n + 15
  | .readProtocol => 4 * n + 16
  | .readExchange => if status.Readable then 4 * n + 17 else 1
  | .connectUpcall => 4 * n + 18
  | .remoteEndpoint => 4 * n + 19
  | .storeConnected => 4 * n + 20

theorem Place.left_readExchange {status : Status} {n m : ℕ} (h : status.Readable → 4 * m + 17 < n)
    (hpos : 1 < n) : (readExchange : Place β).left status m < n := by
  rw [left]
  split
  · exact h ‹_›
  · exact hpos

section LocalStep

variable {a : T} {s s' : SessionState T β} {k k' : Place β} {e : SessionEvent β}

/-- Every access brings an activation nearer to its end, a read upcall if it is one of those
that were left. -/
theorem Place.left_localStep {n m : ℕ} (hstep : SessionState.LocalStep a s k e s' k')
    (hidle : k ≠ .idle) (hdone : k ≠ .readDone)
    (hspurious : e = .spurious → k = .remoteEndpoint) (hle : m ≤ n)
    (hless : k = .readUpcall → s.status.Readable → m < n) :
    k'.left s'.status m < k.left s.status n := by
  cases hstep with
  | write | close | startAccepted | startConnecting | connected | connectFailed | received
  | readFailed | written | writeFailed => exact absurd rfl hidle
  | doneAsync | doneDeliver | doneFail => exact absurd rfl hdone
  | closeRetry hretry =>
      rcases hretry with rfl | hne
      · exact absurd (hspurious rfl) (by simp)
      · simp [left, hne]
  | @closeLoad call => cases hi : call.immediately <;> simp [left, hi]
  | @closeExchanged call => cases hi : call.immediately <;> simp [left, hi]
  | @closeStop call =>
      simp only [left]
      split <;> omega
  | closeSocket hi | shutdownReceive hi => simp [left, hi]
  | readUpcall =>
      apply left_readExchange
      · intro hs
        have hless := hless rfl hs
        simp only [left]
        omega
      · simp [left]
  | connectUpcall =>
      apply left_readExchange
      · intro
        simp only [left]
        omega
      · simp [left]
  | readExchanged hs =>
      have hs : s.status.Readable := .inl hs
      simp only [left, if_pos hs]
      omega
  | readGoOn hs =>
      have hs : s.status.Readable := .inr hs
      simp only [left, if_pos hs]
      omega
  | readRefused =>
      simp only [left]
      split <;> omega
  | storeConnected | endpointFound | endpointThrows | readStop | readAsync | readDeliver
  | readFail =>
      simp only [left]
      omega
  | _ => simp [left, CloseCall.immediately]

/-- An activation has an access that it can make, whatever the state. -/
theorem SessionState.exists_act (a : T) (s : SessionState T β) {k : Place β} (hidle : k ≠ .idle)
    (hprotocol : k ≠ .readProtocol) (hdone : k ≠ .readDone) : (s.act a k .run).isSome := by
  cases k with
  | idle => exact absurd rfl hidle
  | readProtocol => exact absurd rfl hprotocol
  | readDone => exact absurd rfl hdone
  | mark =>
      simp only [act, access]
      split <;> rfl
  | closeExchange call current =>
      simp only [act, access]
      split
      · split <;> rfl
      · rfl
  | closeSocket call =>
      simp only [act, access]
      split <;> rfl
  | readExchange =>
      simp only [act, access]
      split <;> rfl
  | _ => rfl

end LocalStep

/-- A bound on the accesses the callback has left. -/
def ConnectPlace.left (status : Status) (n : ℕ) : ConnectPlace β → ℕ
  | .outside _ => 0
  | .failing k | .connecting k => k.left status n + 1
  | .setException | .setValue => 1

namespace ConnectState

variable {h : ReadHandler} {a : T} {s s' : ConnectState T β} {k k' : ConnectPlace β}
  {e : ConnectEvent β} {m : ℕ}

/-- What holds inside the callback. -/
structure Inside (h : ReadHandler) (a : T) (s : ConnectState T β) (k : ConnectPlace β) : Prop where
  callOk : s.CallOk
  calls : Calls a s k
  calling : k.calling = true
  input : s.InputAt h k

theorem Inside.not_ended (hs : Inside h a s k) : s.ended = none := by
  by_contra hended
  obtain ⟨r, hr⟩ := Option.ne_none_iff_exists'.mp hended
  have hnone := (hs.callOk.ended r hr).1
  rw [hs.calls.caller.mpr hs.calling] at hnone
  cases hnone

theorem Inside.step (hs : Inside h a s k) (hstep : CallStep h a s k e s' k')
    (hcalling : k'.calling = true) : Inside h a s' k' := by
  obtain ⟨hok, hcalls, -⟩ := calls_callStep hs.callOk hs.calls hstep
  have hzero := hs.callOk.toConnect (hs.calls.caller.mpr hs.calling)
  obtain ⟨-, hin, -⟩ := input_callStep hs.callOk (by omega) hs.calls hs.input hstep
  exact ⟨hok, hcalls, hcalling, hin⟩

/-- A step that leaves the callback ends it. -/
theorem Inside.ended_of_left (hs : Inside h a s k) (hstep : CallStep h a s k e s' k')
    (hcalling : k'.calling = false) : s'.ended ≠ none := by
  have hin := hs.calling
  cases hstep with
  | outside | connected | connectFailed | outsideThrows => cases hin
  | fail | failed | proceed | proceeded => cases hcalling
  | _ => simp [finish]

/-- The frames of no bytes so far are what the handler has asked for. -/
theorem Inside.empty (hs : Inside h a s (.connecting .readUpcall)) :
    h.Empty s.input.delivered.length := by
  obtain ⟨n, t, hround, hstalls, heq⟩ := hs.input
  obtain ⟨-, hdelivered, -⟩ := hround.next hstalls
  rw [heq, hdelivered, hround.delivered, List.length_replicate]
  exact hround.stalls_iff.mp hstalls

/-- An access of `read()` that is no upcall delivers nothing. -/
theorem delivered_receive {k : Place β} {e : SessionEvent β} {input : ReadState}
    (hinput : s.receive h k e = some input) (hk : k ≠ .readUpcall) :
    input.delivered = s.input.delivered := by
  by_cases hp : k = .readProtocol
  · subst hp
    cases e with
    | read outcome =>
        simp only [receive] at hinput
        split_ifs at hinput
        obtain rfl := Option.some.inj hinput
        exact ReadState.delivered_call
    | _ =>
        obtain rfl := Option.some.inj hinput
        rfl
  · rw [receive_of_ne hp hk] at hinput
    obtain rfl := Option.some.inj hinput
    rfl

/-- The upcalls made so far, after an access of the callback. -/
theorem delivered_proceed {k k' : Place β} {e : SessionEvent β} {session : SessionState T β}
    {input : ReadState} (hinput : s.receive h k e = some input)
    (hstep : SessionState.LocalStep a s.session k e session k') :
    k = .readUpcall ∧ input.delivered.length = s.input.delivered.length + 1 ∨
      k ≠ .readUpcall ∧ input.delivered = s.input.delivered := by
  by_cases hk : k = .readUpcall
  · subst hk
    cases hstep
    simp only [receive] at hinput
    split at hinput
    · obtain rfl := Option.some.inj hinput
      refine .inl ⟨rfl, ?_⟩
      rw [ReadState.handlerRead, List.length_append, List.length_singleton]
    · cases hinput
  · exact .inr ⟨hk, delivered_receive hinput hk⟩

theorem length_delivered_le (hstep : CallStep h a s k e s' k') :
    s.input.delivered.length ≤ s'.input.delivered.length := by
  cases hstep with
  | proceed hinput hstep | proceeded hinput hstep =>
      rcases delivered_proceed hinput hstep with ⟨-, hlength⟩ | ⟨-, hsame⟩
      · exact (Nat.le_succ _).trans (Nat.le_of_eq hlength.symm)
      · exact Nat.le_of_eq (congrArg List.length hsame.symm)
  | _ => exact Nat.le_refl _

/-- An access from which `read()` may go on comes after one from which it may. -/
theorem mayRead_proceed {k k' : Place β} {e : SessionEvent β} {session : SessionState T β}
    {input : ReadState} {reported : List (Upcall β)} (hin : s.InputAt h (.connecting k))
    (hidle : k ≠ .idle) (hstep : SessionState.LocalStep a s.session k e session k')
    (hmay : ({ s with session, input, reported } : ConnectState T β).MayRead (.connecting k')) :
    s.MayRead (.connecting k) := by
  cases hstep with
  | storeConnected => exact hmay.1
  | endpointFound hopen => exact ⟨hopen, hmay⟩
  | readExchanged hs => exact .inl hs
  | readGoOn hs => exact .inr hs
  | connectUpcall | readUpcall | readDeliver => exact hmay
  | doneDeliver => exact hin.elim
  | startAccepted | connected => exact absurd rfl hidle
  | _ => exact hmay.elim

/-- What bounds the upcalls that are left: after `m` of them the handler sets another protocol
or another length. -/
def Bounded (h : ReadHandler) (m : ℕ) (s : ConnectState T β) (k : ConnectPlace β) : Prop :=
  s.MayRead k → s.input.delivered.length ≤ m ∧ ¬ h.Empty m

/-- An upcall that is made is one of those that were left. -/
theorem Inside.lt_of_bounded (hs : Inside h a s (.connecting .readUpcall))
    (hm : Bounded h m s (.connecting .readUpcall)) (hmay : s.session.status.Readable) :
    s.input.delivered.length < m := by
  obtain ⟨hle, hempty⟩ := hm hmay
  apply Nat.lt_of_le_of_ne hle
  rintro rfl
  exact hempty hs.empty

theorem Inside.bounded (hs : Inside h a s k) (hm : Bounded h m s k)
    (hstep : CallStep h a s k e s' k') : Bounded h m s' k' := by
  have hin := hs.input
  have hcalling := hs.calling
  cases hstep with
  | outside | connected | connectFailed | outsideThrows => cases hcalling
  | proceed hinput hstep hidle' =>
      intro hmay
      have hidle := hs.calls.knows.1.1
      have hmay := mayRead_proceed hin hidle hstep hmay
      obtain ⟨hle, hempty⟩ := hm hmay
      refine ⟨?_, hempty⟩
      rcases delivered_proceed hinput hstep with ⟨rfl, hdelivered⟩ | ⟨-, hdelivered⟩
      · exact hdelivered.trans_le (hs.lt_of_bounded hm hmay)
      · exact (congrArg List.length hdelivered).trans_le hle
  | _ => exact False.elim

/-- The error branch does not read. -/
theorem Knows.failing_ne {k : Place β} (hk : s.Knows (.failing k)) :
    k ≠ .idle ∧ k ≠ .readProtocol ∧ k ≠ .readDone ∧ k ≠ .readUpcall := by
  rcases hk with ⟨rfl, -⟩ | ⟨hk, -⟩
  · simp
  · refine ⟨?_, ?_, ?_, ?_⟩ <;> rintro rfl <;> exact hk

theorem InputAt.ne_readDone {k : Place β} (hin : s.InputAt h (.connecting k)) :
    k ≠ .readDone := by
  rintro rfl
  exact hin

theorem left_fail {k k' : Place β} {e : SessionEvent β} {session : SessionState T β} {n : ℕ}
    (hk : s.Knows (.failing k)) (hexchanges : (ConnectPlace.failing k).Exchanges (.session e))
    (hstep : SessionState.LocalStep a s.session k e session k') :
    k'.left session.status n < k.left s.session.status n := by
  obtain ⟨hidle, -, hdone, hupcall⟩ := hk.failing_ne
  apply Place.left_localStep hstep hidle hdone _ (Nat.le_refl n)
  · exact fun h => absurd h hupcall
  · rintro rfl
    cases hexchanges rfl

theorem Inside.left_proceed {k k' : Place β} {e : SessionEvent β} {session : SessionState T β}
    {input : ReadState} (hs : Inside h a s (.connecting k)) (hm : Bounded h m s (.connecting k))
    (hexchanges : (ConnectPlace.connecting k).Exchanges (.session e))
    (hinput : s.receive h k e = some input)
    (hstep : SessionState.LocalStep a s.session k e session k') :
    k'.left session.status (m - input.delivered.length) <
      k.left s.session.status (m - s.input.delivered.length) := by
  have hmade := delivered_proceed hinput hstep
  apply Place.left_localStep hstep hs.calls.knows.1.1 hs.input.ne_readDone
  · rintro rfl
    exact ConnectPlace.connecting.inj (hexchanges rfl)
  · rcases hmade with ⟨-, hlength⟩ | ⟨-, hsame⟩
    · omega
    · rw [hsame]
  · rintro rfl hreadable
    have hlt := hs.lt_of_bounded hm hreadable
    obtain ⟨-, hlength⟩ | ⟨hne, -⟩ := hmade
    · omega
    · exact absurd rfl hne

/-- Every step inside the callback brings its end nearer. -/
theorem Inside.left_lt (hs : Inside h a s k) (hm : Bounded h m s k)
    (hstep : CallStep h a s k e s' k') (hexchanges : k.Exchanges e)
    (hcalling' : k'.calling = true) :
    k'.left s'.session.status (m - s'.input.delivered.length) <
      k.left s.session.status (m - s.input.delivered.length) := by
  have hcalling := hs.calling
  cases hstep with
  | outside | connected | connectFailed | outsideThrows => cases hcalling
  | endpointThrows | readThrows | setException | setValue => cases hcalling'
  | fail hstep => exact Nat.succ_lt_succ (left_fail hs.calls.knows hexchanges hstep)
  | failed hstep =>
      exact Nat.succ_lt_succ
        ((Nat.zero_le _).trans_lt (left_fail hs.calls.knows hexchanges hstep))
  | proceed hinput hstep => exact Nat.succ_lt_succ (hs.left_proceed hm hexchanges hinput hstep)
  | proceeded hinput hstep =>
      exact Nat.succ_lt_succ
        ((Nat.zero_le _).trans_lt (hs.left_proceed hm hexchanges hinput hstep))

theorem receive_readUpcall (hin : s.InputAt h (.connecting .readUpcall)) :
    s.receive h .readUpcall .run = some (s.input.handlerRead h 0) := by
  obtain ⟨n, t, hround, hstalls, heq⟩ := hin
  have hcontrol := (hround.next hstalls).1
  rw [← heq] at hcontrol
  simp only [receive, hcontrol]

theorem exists_receive {k : Place β} (hin : s.InputAt h (.connecting k)) (hk : k ≠ .readProtocol) :
    ∃ input, s.receive h k .run = some input := by
  by_cases hupcall : k = .readUpcall
  · subst hupcall
    exact ⟨_, receive_readUpcall hin⟩
  · exact ⟨_, receive_of_ne hk hupcall⟩

/-- The functions that read come to an end, or to an upcall, or throw. -/
theorem exists_outcome (hin : s.InputAt h (.connecting .readProtocol)) :
    s.input.call.control.resizes ∨ ∃ outcome, s.input.call.control.outcome = some outcome := by
  obtain ⟨n, hround⟩ := hin
  by_cases hstalls : s.input.Stalls
  · rw [(hround.next hstalls).1]
    exact .inr ⟨_, rfl⟩
  · rcases ReadState.outcome_of_returned (ReadState.returned_call hround.empty hstalls) with
      hthrew | ⟨outcome, -, hsome⟩
    · exact .inl (.inl hthrew)
    · exact .inr ⟨outcome, hsome⟩

theorem act_connecting {k : Place β} {e : SessionEvent β} {input : ReadState}
    {r : SessionState T β × Place β} (hinput : s.receive h k e = some input)
    (hr : s.session.act a k e = some r) : act h a s (.connecting k) (.session e) =
      some (({ s with input } : ConnectState T β).proceed r.1 k r.2) := by
  simp only [act, hinput, hr, Option.bind_some, Option.map_some]

/-- A step inside the callback is possible. -/
theorem Inside.progress (hs : Inside h a s k) :
    ∃ e s' k', k.Exchanges e ∧ act h a s k e = some (s', k') := by
  have hrun : k.Exchanges (.session .run) := ConnectPlace.exchanges_of_ne (by simp)
  have hin := hs.input
  have hknows := hs.calls.knows
  cases k with
  | outside k => cases hs.calling
  | failing k =>
      obtain ⟨hidle, hprotocol, hdone, -⟩ := hknows.failing_ne
      obtain ⟨r, hr⟩ := Option.isSome_iff_exists.mp
        (SessionState.exists_act a s.session hidle hprotocol hdone)
      exact ⟨_, _, _, hrun, congrArg (Option.map _) hr⟩
  | connecting k =>
      by_cases hprotocol : k = .readProtocol
      · subst hprotocol
        rcases exists_outcome hin with hresizes | ⟨outcome, houtcome⟩
        · exact ⟨.readThrows, _, _, ConnectPlace.exchanges_of_ne (by simp), if_pos hresizes⟩
        · obtain ⟨r, hr⟩ : ∃ r, s.session.act a .readProtocol (.read outcome) = some r := by
            cases outcome <;> exact ⟨_, rfl⟩
          exact ⟨.session (.read outcome), _, _, ConnectPlace.exchanges_of_ne (by simp),
            act_connecting (if_pos houtcome) hr⟩
      · obtain ⟨input, hinput⟩ := exists_receive hin hprotocol
        obtain ⟨r, hr⟩ := Option.isSome_iff_exists.mp
          (SessionState.exists_act a s.session hknows.1.1 hprotocol hin.ne_readDone)
        exact ⟨_, _, _, hrun, act_connecting hinput hr⟩
  | setException => exact ⟨_, _, _, hrun, rfl⟩
  | setValue => exact ⟨_, _, _, hrun, rfl⟩

/-- A handler that wants no bytes for ever keeps the callback where `read()` goes on. -/
theorem Inside.recurs (hs : Inside h a s k) (hr : Recurs h s k) :
    ∃ e s' k', k.Exchanges e ∧ act h a s k e = some (s', k') ∧ k'.calling = true ∧
      s'.MayRead k' := by
  obtain ⟨hmay, hempty⟩ := hr
  have hin := hs.input
  have hrun : k.Exchanges (.session .run) := ConnectPlace.exchanges_of_ne (by simp)
  cases k with
  | connecting k =>
      cases k with
      | storeConnected => exact ⟨_, _, _, hrun, rfl, rfl, hmay, .inl rfl⟩
      | remoteEndpoint =>
          obtain ⟨hopen, hreadable⟩ := hmay
          have hr : s.session.act a .remoteEndpoint .run = some (s.session, .connectUpcall) := by
            simp [SessionState.act, SessionState.access, hopen]
          exact ⟨_, _, _, hrun, act_connecting rfl hr, rfl, hreadable⟩
      | connectUpcall => exact ⟨_, _, _, hrun, rfl, rfl, hmay⟩
      | readExchange =>
          rcases hmay with hs | hs
          · have hr : s.session.act a .readExchange .run =
                some ({ s.session with status := .reading }, .readProtocol) := if_pos hs
            exact ⟨_, _, _, hrun, act_connecting rfl hr, rfl, .inr rfl⟩
          · have hr : s.session.act a .readExchange .run = some (s.session, .readProtocol) := by
              simp [SessionState.act, SessionState.access, hs]
            exact ⟨_, _, _, hrun, act_connecting rfl hr, rfl, .inr hs⟩
      | readProtocol =>
          obtain ⟨n, hround⟩ := hin
          have hlength : s.input.delivered.length = n := by
            rw [hround.delivered, List.length_replicate]
          have hstalls := hround.stalls_iff.mpr (hempty n (Nat.le_of_eq hlength))
          have houtcome : s.input.call.control.outcome = some .upcall := by
            rw [(hround.next hstalls).1]
            rfl
          have hr : s.session.act a .readProtocol (.read .upcall) = some (s.session, .readUpcall) :=
            rfl
          exact ⟨.session (.read .upcall), _, _, ConnectPlace.exchanges_of_ne (by simp),
            act_connecting (if_pos houtcome) hr, rfl, hmay⟩
      | readUpcall => exact ⟨_, _, _, hrun, act_connecting (receive_readUpcall hin) rfl, rfl, hmay⟩
      | _ => exact hmay.elim
  | _ => exact hmay.elim

end ConnectState

section Ends

variable [DecidableEq T] {h : ReadHandler} {c : ConnectConfig T β} {a : T}

theorem inside_of_reachable (hc : (connectSystem T β h).Reachable c)
    (ha : (c.pc a).calling = true) : ConnectState.Inside h a c.shared (c.pc a) := by
  obtain ⟨hs, hk⟩ := connect_callOk hc.restrict_true
  exact ⟨hs, hk a, ha, connect_inputAt hc a⟩

theorem inevitable_ended_iff :
    (ownSystem T β h a).Inevitable (fun d => d.shared.ended ≠ none) c ↔
      (Config.alone (ConnectState.act h) (fun _ k e => k.Exchanges e) a).Inevitable
        (fun r => r.1.ended ≠ none) (c.shared, c.pc a) :=
  Config.inevitable_alone (C := fun _ (k : ConnectPlace β) e => k.Exchanges e)
    (P := fun s : ConnectState T β => s.ended ≠ none)

/-- If the upcalls of `read()` are bounded, the callback ends. -/
theorem inevitable_ended {m : ℕ} (hs : ConnectState.Inside h a c.shared (c.pc a))
    (hm : ConnectState.Bounded h m c.shared (c.pc a)) :
    (ownSystem T β h a).Inevitable (fun d => d.shared.ended ≠ none) c := by
  apply inevitable_ended_iff.mpr
  apply TransitionSystem.Inevitable.of_rank
    (fun r => r.2.left r.1.session.status (m - r.1.input.delivered.length))
    (I := fun r => ConnectState.Inside h a r.1 r.2 ∧ ConnectState.Bounded h m r.1 r.2)
  · rintro ⟨s, k⟩ ⟨hs, -⟩ -
    obtain ⟨e, s', k', hexchanges, hact⟩ := hs.progress
    exact ⟨e, (s', k'), hexchanges, hact⟩
  · rintro ⟨s, k⟩ e ⟨s', k'⟩ ⟨hs, hm⟩ - ⟨hexchanges, hact⟩
    have hstep := ConnectState.callStep_of_act hact
    cases hcalling : k'.calling with
    | false => exact .inl (hs.ended_of_left hstep hcalling)
    | true =>
        have hlt := hs.left_lt hm hstep hexchanges hcalling
        exact .inr ⟨⟨hs.step hstep hcalling, hs.bounded hm hstep⟩, hlt⟩
  · exact ⟨hs, hm⟩

/-- While `read()` goes on for frames of no bytes, the callback need not end. -/
theorem not_inevitable_ended (hs : ConnectState.Inside h a c.shared (c.pc a))
    (hr : c.shared.Recurs h (c.pc a)) :
    ¬ (ownSystem T β h a).Inevitable (fun d => d.shared.ended ≠ none) c := by
  apply mt inevitable_ended_iff.mp
  apply TransitionSystem.not_inevitable
    (I := fun r => ConnectState.Inside h a r.1 r.2 ∧ r.1.Recurs h r.2)
  · rintro ⟨s, k⟩ ⟨hs, -⟩ hended
    exact hended hs.not_ended
  · rintro ⟨s, k⟩ ⟨hs, hr⟩
    obtain ⟨e, s', k', hexchanges, hact, hcalling, hmay⟩ := hs.recurs hr
    have hstep := ConnectState.callStep_of_act hact
    refine ⟨e, (s', k'), ⟨hexchanges, hact⟩, hs.step hstep hcalling, hmay, fun m hle => ?_⟩
    exact hr.2 m ((ConnectState.length_delivered_le hstep).trans hle)
  · exact ⟨hs, hr⟩

end Ends

/-- In every interleaving of a session with the callback of its connect, under every handler: an
activation inside the callback, left alone, comes to its end if and only if `read()` does not
call the handler without end; and once the callback has ended, the outcome is reported if and
only if `remote_endpoint` has succeeded and `read()` has not thrown. -/
theorem connect_reports_outcome [DecidableEq T] (h : ReadHandler) (c : ConnectConfig T β)
    (hc : (connectSystem T β h).Reachable c) :
    (∀ a, (c.pc a).calling = true →
      ((ownSystem T β h a).Inevitable (fun d => d.shared.ended ≠ none) c ↔
        ¬ c.shared.Recurs h (c.pc a))) ∧
    (c.shared.ended ≠ none → (c.shared.Reported ↔ (queriedSystem T β h).Reachable c)) := by
  refine ⟨fun a ha => ⟨fun hends hr => ?_, fun hr => ?_⟩,
    fun hended => ⟨fun hreported => ?_, fun hqueried => ?_⟩⟩
  · exact not_inevitable_ended (inside_of_reachable hc ha) hr hends
  · have hs := inside_of_reachable hc ha
    by_cases hmay : c.shared.MayRead (c.pc a)
    · obtain ⟨m, hle, hempty⟩ : ∃ m, c.shared.input.delivered.length ≤ m ∧ ¬ h.Empty m := by
        by_contra hall
        push Not at hall
        exact hr ⟨hmay, hall⟩
      exact inevitable_ended hs fun _ => ⟨hle, hempty⟩
    · exact inevitable_ended (m := 0) hs fun h => absurd h hmay
  · apply (queried_of_not_threw hc).resolve_left
    intro hthrew
    rcases hreported with ⟨hr, -⟩ | ⟨hr, -⟩
    · exact absurd (hthrew.symm.trans hr) (by simp)
    · exact absurd (hthrew.symm.trans hr) (by simp)
  · obtain ⟨hs, -⟩ := connect_callOk hc.restrict_true
    obtain ⟨r, hr⟩ := Option.ne_none_iff_exists'.mp hended
    apply ((hs.ended r hr).2).resolve_left
    rintro rfl
    exact not_threw_of_reachable hqueried hr

/-- A property of the state an execution ends in, each step of which meets `C`. -/
theorem ConnectConfig.exists_reachable_of_exec [DecidableEq T] (h : ReadHandler)
    (C : ConnectConfig T β → T × ConnectEvent β → Prop) [∀ c e, Decidable (C c e)]
    (accepted : Bool) (es : List (T × ConnectEvent β)) (p : ConnectConfig T β → Bool)
    (hp : (TransitionSystem.exec
      (TransitionSystem.guardedStep C (Config.step (ConnectState.act h)))
      (initial T β h accepted) es).map p = some true) :
    ∃ c, ((connectSystem T β h).restrict C).Reachable c ∧ p c = true := by
  obtain ⟨c, hr, hp⟩ := TransitionSystem.exists_run_restrict_of_exec C (IsInitial h) _ _ es p hp
  exact ⟨c, ⟨_, es, ⟨accepted, rfl⟩, hr⟩, hp⟩

/-- The connect succeeds, the socket is still open, and the connect upcall returns. -/
def connects (a : T) : List (T × ConnectEvent ℕ) :=
  [(a, .session .connect), (a, .session (.connectDone true)), (a, .session .run),
    (a, .session .run), (a, .session .run)]

/-- A handler that wants frames of no bytes. -/
def emptyHandler : ReadHandler := fun _ => ⟨[], ⟨.fixed, 0, 0, []⟩⟩

/-- A handler that wants two frames of no bytes, and then whatever arrives. -/
def twoEmptyHandler : ReadHandler := fun segments =>
  ⟨[], if segments.length < 2 then ⟨.fixed, 0, 0, []⟩ else ⟨.any, 0, 16, []⟩⟩

/-- An open session reports its connect, and what follows the upcall ends if the handler asks for
bytes at some time; if it does not, the promise stays unset. -/
theorem connect_reports_outcome_connected :
    (∃ c : ConnectConfig (Fin 2) ℕ, (connectSystem (Fin 2) ℕ twoEmptyHandler).Reachable c ∧
      c.shared.ended = some (.returned true) ∧ c.shared.promise = some .value ∧
      c.shared.Reported) ∧
    (∃ c : ConnectConfig (Fin 2) ℕ, (connectSystem (Fin 2) ℕ twoEmptyHandler).Reachable c ∧
      c.pc 0 = .connecting .readExchange ∧
      (ownSystem (Fin 2) ℕ twoEmptyHandler 0).Inevitable (fun d => d.shared.ended ≠ none) c) ∧
    ∃ c : ConnectConfig (Fin 2) ℕ, (connectSystem (Fin 2) ℕ emptyHandler).Reachable c ∧
      c.pc 0 = .connecting .readExchange ∧ c.shared.promise = some .unset ∧
      ¬ (ownSystem (Fin 2) ℕ emptyHandler 0).Inevitable (fun d => d.shared.ended ≠ none) c := by
  refine ⟨?_, ?_, ?_⟩
  · obtain ⟨c, hc, hp⟩ := ConnectConfig.exists_reachable_of_exec twoEmptyHandler
      (Queried (T := Fin 2) (β := ℕ)) false
      (connects 0 ++ [(0, .session .run), (0, .session (.read .upcall)), (0, .session .run),
        (0, .session .run), (0, .session (.read .upcall)), (0, .session .run),
        (0, .session .run), (0, .session (.read .async)), (0, .session .run)])
      (fun c => decide (c.shared.ended = some (.returned true) ∧ c.shared.promise = some .value))
      (by decide +kernel)
    obtain ⟨hended, hpromise⟩ := of_decide_eq_true hp
    exact ⟨c, hc.of_restrict, hended, hpromise,
      ((connect_reports_outcome twoEmptyHandler c hc.of_restrict).2 (by simp [hended])).mpr hc⟩
  · obtain ⟨c, hc, hp⟩ := ConnectConfig.exists_reachable_of_exec twoEmptyHandler
      (fun _ _ => True) false (connects (0 : Fin 2))
      (fun c => decide (c.pc 0 = .connecting .readExchange ∧ c.shared.input.delivered = []))
      (by decide +kernel)
    obtain ⟨hpc, hdelivered⟩ := of_decide_eq_true hp
    have hreach := hc.of_restrict
    refine ⟨c, hreach, hpc, ((connect_reports_outcome twoEmptyHandler c hreach).1 0 ?_).mpr ?_⟩
    · rw [hpc]
      rfl
    · rintro ⟨-, hempty⟩
      have hfixed := (hempty 2 (by simp [hdelivered])).1
      exact absurd hfixed (by decide)
  · obtain ⟨c, hc, hp⟩ := ConnectConfig.exists_reachable_of_exec emptyHandler (fun _ _ => True)
      false (connects (0 : Fin 2)) (fun c => decide (c.pc 0 = .connecting .readExchange ∧
        c.shared.session.status = .connected ∧ c.shared.promise = some .unset))
      (by decide +kernel)
    obtain ⟨hpc, hstatus, hpromise⟩ := of_decide_eq_true hp
    have hreach := hc.of_restrict
    refine ⟨c, hreach, hpc, hpromise, ?_⟩
    apply mt ((connect_reports_outcome emptyHandler c hreach).1 0 _).mp
    · rw [hpc]
      exact not_not_intro ⟨.inl hstatus, fun m _ => ⟨rfl, rfl⟩⟩
    · rw [hpc]
      rfl

/-- The session is closed while its connect callback is queued with success. -/
def closeThenConnects (a b : T) : List (T × ConnectEvent ℕ) :=
  [(a, .session .connect), (b, .session (.close true)), (b, .session .run), (b, .session .run),
    (b, .session .run), (b, .session .run), (a, .session (.connectDone true)),
    (a, .session .run), (a, .session .run)]

/-- `remote_endpoint` throws out of the callback, no upcall made and the promise unset. -/
theorem not_connect_reports_outcome : ¬ ∀ (h : ReadHandler) (c : ConnectConfig (Fin 2) ℕ),
    (connectSystem (Fin 2) ℕ h).Reachable c → c.shared.ended ≠ none → c.shared.Reported := by
  intro hreported
  obtain ⟨c, hc, hp⟩ := ConnectConfig.exists_reachable_of_exec emptyHandler (fun _ _ => True) false
    (closeThenConnects (0 : Fin 2) 1) (fun c => decide (c.shared.ended = some .threw ∧
      c.shared.reported = [] ∧ c.shared.promise = some .unset)) (by decide +kernel)
  obtain ⟨hended, -, -⟩ := of_decide_eq_true hp
  rcases hreported emptyHandler c hc.of_restrict (by simp [hended]) with ⟨hr, -⟩ | ⟨hr, -⟩
  · exact absurd (hended.symm.trans hr) (by simp)
  · exact absurd (hended.symm.trans hr) (by simp)

end Minapp
