import Minapp.Verification.Forward.Reader
import Minapp.Verification.Session.Status
import Minapp.Verification.Session.WriteQueue

/-! # What is forwarded

However the two sessions are interleaved, the peer is handed what the other session receives, in
order and without a gap, and as long as it is not closing all of it. -/

namespace Minapp

/-! ## The calls of `write` -/

/-- The buffers of a call that has not appended them yet. -/
def Place.unmanaged {β : Type*} : Place β → Option (List β)
  | .testClosing buffers | .manage buffers => some buffers
  | _ => none

/-- What a step that is not the call of `write` does to a call. -/
theorem unmanaged_localStep {T β : Type*} {a : T} {s s' : SessionState T β} {k k' : Place β}
    {e : SessionEvent β} (hwrite : ∀ buffers, e ≠ .write buffers)
    (hstep : SessionState.LocalStep a s k e s' k') :
    (∃ buffers, k = .manage buffers ∧ k' = .testClosed ∧ s'.calls = s.calls ++ [buffers]) ∨
    (∃ buffers, k = .testClosing buffers ∧ k' = .manage buffers ∧ s' = s ∧
      ¬ Status.closing ≤ s.status) ∨
    (∃ buffers, k = .testClosing buffers ∧ k' = .idle ∧ s' = s ∧ Status.closing ≤ s.status) ∨
    k.unmanaged = none ∧ k'.unmanaged = none ∧ s'.calls = s.calls := by
  cases hstep with
  | write => exact absurd rfl (hwrite _)
  | manage => exact .inl ⟨_, rfl, rfl, rfl⟩
  | accept hs => exact .inr (.inl ⟨_, rfl, rfl, rfl, hs⟩)
  | refuse hs => exact .inr (.inr (.inl ⟨_, rfl, rfl, rfl, hs⟩))
  | _ => exact .inr (.inr (.inr ⟨rfl, rfl, rfl⟩))

theorem write_of_act {T β : Type*} {a : T} {s s' : SessionState T β} {k k' : Place β}
    {buffers : List β} (h : s.act a k (.write buffers) = some (s', k')) :
    s' = s ∧ k' = .testClosing buffers := by
  cases k <;> simp only [SessionState.act, Bool.false_eq_true, if_false, if_true,
    reduceCtorEq] at h
  obtain ⟨rfl, rfl⟩ := Prod.mk.inj (Option.some.inj h)
  exact ⟨rfl, rfl⟩

/-! ## The two sessions -/

namespace Relay

variable {T : Type*}

/-- What the peer has taken over. -/
def relayed (r : Relay T) : List Byte := r.peer.shared.calls.flatten.flatten

/-- What the call of an upcall has not appended yet. -/
def pending (r : Relay T) : List Byte :=
  match r.writing with
  | some a => ((r.peer.pc a).unmanaged.getD []).flatten
  | none => []

/-- What is to be taken over: all that the upcalls have been shown since there is a peer. -/
def due (r : Relay T) : List Byte :=
  match r.writing with
  | some _ => r.reader.received
  | none => r.reader.given

/-- Up to the end of the call in progress all buffers are appended. -/
def Accepting (r : Relay T) : Prop :=
  ¬ Status.closing ≤ r.peer.shared.status ∨ ∃ a buffers, r.peer.pc a = .manage buffers

structure Inv [DecidableEq T] (r : Relay T) : Prop where
  reader : r.reader.Forwards
  peer : (sessionSystem T (List Byte)).Reachable r.peer
  connected : r.peered = true → r.peer.Connected
  first : r.peered = false → r.peer.shared.calls = [] ∧ r.writing = none ∧
    (r.reader.settings.doNotConsume = true ∨ r.reader.delivered = [])
  writing : ∀ a, r.writing = some a → ∃ tail, r.reader.control = .upcall tail
  writers : ∀ a buffers, (r.peer.pc a).unmanaged = some buffers →
    r.writing = some a ∧ buffers = [r.reader.buf.whole]
  exact : r.reader.control ≠ .idle → r.Accepting → r.relayed ++ r.pending = r.due
  relayed_isPrefix : r.relayed <+: r.reader.received

variable [DecidableEq T] {r r' : Relay T}

/-- Nothing is due before the peer is connected. -/
theorem Inv.exact_of_first (hr : r.Inv) (h : r.peered = false) :
    r.relayed ++ r.pending = r.due := by
  obtain ⟨hcalls, hwriting, hkept⟩ := hr.first h
  have hgiven : r.reader.given = [] := by
    rw [ReadState.given]
    rcases hkept with hdnc | hnil
    · rw [if_pos hdnc]
    · rw [hnil]
      exact ite_self _
  simp only [relayed, pending, due, hcalls, hwriting, hgiven]
  rfl

theorem Inv.writing_none (hr : r.Inv) (hc : ∀ tail, r.reader.control ≠ .upcall tail) :
    r.writing = none := by
  cases hw : r.writing with
  | none => rfl
  | some a =>
      obtain ⟨tail, h⟩ := hr.writing a hw
      exact absurd h (hc tail)

theorem Inv.writing_ne_idle (hr : r.Inv) {a : T} (hw : r.writing = some a) :
    r.reader.control ≠ .idle := by
  obtain ⟨tail, hc⟩ := hr.writing a hw
  rw [hc]
  simp

/-- The buffer of the call in progress is all that the peer has not been given. -/
theorem Inv.relayed_whole (hr : r.Inv) {a : T} {buffers : List (List Byte)}
    (hk : r.peer.pc a = .manage buffers) :
    r.relayed ++ buffers.flatten = r.reader.received ∧ r.writing = some a := by
  obtain ⟨hw, hbuffers⟩ := hr.writers a buffers (by rw [hk]; rfl)
  refine ⟨?_, hw⟩
  have hexact := hr.exact (hr.writing_ne_idle hw) (.inr ⟨a, buffers, hk⟩)
  rw [pending, due, hw] at hexact
  simp only [hk, Place.unmanaged, Option.getD_some] at hexact
  exact hexact

/-- The calls still about to append after a step of `a`. -/
theorem Inv.writers_move (hr : r.Inv) {a : T} {s' : SessionState T (List Byte)}
    {k' : Place (List Byte)} (hk' : ∀ buffers, k'.unmanaged = some buffers →
      r.writing = some a ∧ buffers = [r.reader.buf.whole]) (b : T) (buffers : List (List Byte))
    (hb : ((r.peer.move a s' k').pc b).unmanaged = some buffers) :
    r.writing = some b ∧ buffers = [r.reader.buf.whole] := by
  rcases eq_or_ne b a with rfl | hne
  · rw [Config.move_pc_self] at hb
    exact hk' buffers hb
  · rw [Config.move_pc_of_ne _ hne] at hb
    exact hr.writers b buffers hb

/-- A step of the peer on its own. -/
theorem Inv.peer_step (hr : r.Inv) {a : T} {e : SessionEvent (List Byte)}
    {peer : Session T (List Byte)} (hwrite : ∀ buffers, e ≠ .write buffers)
    (hd : (sessionSystem T (List Byte)).Step r.peer (a, e) peer) {peered : Bool}
    (hpeered : peered = (r.peered || decide (r.peer.pc a = .connectUpcall))) :
    Inv { r with peer, peered } := by
  have hconnected : peered = true → peer.Connected := by
    intro h
    refine Session.Connected.step ?_ hd
    rw [hpeered, Bool.or_eq_true] at h
    rcases h with h | h
    · exact hr.connected h
    · refine Session.connected_of_connecting (a := a) hr.peer ?_
      rw [of_decide_eq_true h]
      rfl
  have hunpeered : peered = false → r.peered = false := by
    rw [hpeered, Bool.or_eq_false_iff]
    exact And.left
  have hreach := hr.peer.step hd
  have hclosing := fun h => (hr.connected h).closing_step hd
  obtain ⟨s', k', hact, rfl⟩ := Config.step_eq_some hd
  have hstep := SessionState.localStep_of_act hact
  change SessionState.LocalStep a r.peer.shared (r.peer.pc a) e s' k' at hstep
  have hself : (r.peer.move a s' k').pc a = k' := Config.move_pc_self ..
  rcases unmanaged_localStep hwrite hstep with ⟨buffers, hk, rfl, hcalls⟩ |
    ⟨buffers, hk, rfl, rfl, hopen⟩ | ⟨buffers, hk, rfl, rfl, hs⟩ | ⟨hk, hk', hcalls⟩
  · -- the buffer is appended
    obtain ⟨hwhole, hw⟩ := hr.relayed_whole hk
    have hrelayed : (s'.calls).flatten.flatten = r.reader.received := by
      rw [hcalls, List.flatten_append, List.flatten_append, List.flatten_singleton]
      exact hwhole
    refine ⟨hr.reader, hreach, hconnected, ?_, hr.writing,
      hr.writers_move fun _ h => absurd h (by simp [Place.unmanaged]), ?_, ?_⟩
    · intro h
      rw [(hr.first (hunpeered h)).2.1] at hw
      cases hw
    · intro _ _
      simp only [pending, due, hw, hself, Place.unmanaged]
      exact (List.append_nil _).trans hrelayed
    · exact hrelayed ▸ List.prefix_rfl
  · -- the session is not closing
    obtain ⟨hw, hbuffers⟩ := hr.writers a buffers (by rw [hk]; rfl)
    refine ⟨hr.reader, hreach, hconnected, ?_, hr.writing, hr.writers_move ?_, ?_,
      hr.relayed_isPrefix⟩
    · intro h
      rw [(hr.first (hunpeered h)).2.1] at hw
      cases hw
    · intro buffers' h
      obtain rfl := Option.some.inj h
      exact ⟨hw, hbuffers⟩
    · intro hidle _
      have hexact := hr.exact hidle (.inl hopen)
      simp only [pending, due, hw, hself, hk, Place.unmanaged] at hexact ⊢
      exact hexact
  · -- the session is closing, and no buffer will be appended any more
    obtain ⟨hw, -⟩ := hr.writers a buffers (by rw [hk]; rfl)
    have hwriters : ∀ b buffers,
        ((r.peer.move a r.peer.shared .idle).pc b).unmanaged = some buffers →
          r.writing = some b ∧ buffers = [r.reader.buf.whole] :=
      hr.writers_move fun _ h => absurd h (by simp [Place.unmanaged])
    refine ⟨hr.reader, hreach, hconnected, ?_, hr.writing, hwriters, ?_, hr.relayed_isPrefix⟩
    · intro h
      rw [(hr.first (hunpeered h)).2.1] at hw
      cases hw
    · rintro - (hopen | ⟨b, buffers', hb⟩)
      · exact absurd hs hopen
      · have hb' : (r.peer.move a r.peer.shared .idle).pc b = .manage buffers' := hb
        obtain ⟨hwb, -⟩ := hwriters b buffers' (by rw [hb']; rfl)
        obtain rfl := Option.some.inj (hw.symm.trans hwb)
        rw [hself] at hb'
        cases hb'
  · -- no call is involved
    have hrelayed : (s'.calls).flatten.flatten = r.relayed := by
      rw [hcalls]
      rfl
    have hpending : ∀ w, ((r.peer.move a s' k').pc w).unmanaged = (r.peer.pc w).unmanaged := by
      intro w
      rcases eq_or_ne w a with rfl | hne
      · rw [Config.move_pc_self, hk, hk']
      · rw [Config.move_pc_of_ne _ hne]
    refine ⟨hr.reader, hreach, hconnected, ?_, hr.writing,
      hr.writers_move fun _ h => absurd h (by simp [hk']), ?_, ?_⟩
    · intro h
      obtain ⟨hnil, hrest⟩ := hr.first (hunpeered h)
      exact ⟨hcalls.trans hnil, hrest⟩
    · intro hidle haccepting
      have hexact : r.relayed ++ r.pending = r.due := by
        cases hp : r.peered with
        | false => exact hr.exact_of_first hp
        | true =>
            apply hr.exact hidle
            rcases haccepting with hopen | ⟨b, buffers, hb⟩
            · exact .inl (mt (hclosing hp) hopen)
            · have hb' : (r.peer.move a s' k').pc b = .manage buffers := hb
              rcases eq_or_ne b a with rfl | hne
              · rw [hself] at hb'
                rw [hb'] at hk'
                cases hk'
              · rw [Config.move_pc_of_ne _ hne] at hb'
                exact .inr ⟨b, buffers, hb'⟩
      refine (congrArg₂ (· ++ ·) hrelayed ?_).trans hexact
      simp only [pending]
      cases r.writing with
      | none => rfl
      | some w =>
          simp only
          rw [hpending w]
    · change s'.calls.flatten.flatten <+: r.reader.received
      rw [hrelayed]
      exact hr.relayed_isPrefix

/-- The upcall calls `write`. -/
theorem Inv.write_step (hr : r.Inv) {a : T} {tail : ℕ} (hp : r.peered = true)
    (hnone : r.writing = none) (hc : r.reader.control = .upcall tail)
    {peer : Session T (List Byte)}
    (hd : (sessionSystem T (List Byte)).Step r.peer (a, .write [r.reader.buf.whole]) peer) :
    Inv { r with peer, writing := some a } := by
  have hnobody : ∀ b, (r.peer.pc b).unmanaged = none := by
    intro b
    cases hb : (r.peer.pc b).unmanaged with
    | none => rfl
    | some buffers =>
        rw [(hr.writers b buffers hb).1] at hnone
        cases hnone
  have hconnected := (hr.connected hp).step hd
  have hreach := hr.peer.step hd
  obtain ⟨s', k', hact, rfl⟩ := Config.step_eq_some hd
  obtain ⟨rfl, rfl⟩ := write_of_act hact
  refine ⟨hr.reader, hreach, fun _ => hconnected, ?_, fun _ _ => ⟨tail, hc⟩, ?_, ?_,
    hr.relayed_isPrefix⟩
  · intro h
    rw [hp] at h
    cases h
  · intro b buffers hb
    rcases eq_or_ne b a with rfl | hne
    · rw [Config.move_pc_self] at hb
      exact ⟨rfl, (Option.some.inj hb).symm⟩
    · rw [Config.move_pc_of_ne _ hne, hnobody b] at hb
      cases hb
  · intro _ haccepting
    have hopen : r.Accepting := by
      rcases haccepting with hopen | ⟨b, buffers, hb⟩
      · exact .inl hopen
      · have hb' : (r.peer.move a r.peer.shared (.testClosing _)).pc b = .manage buffers := hb
        rcases eq_or_ne b a with rfl | hne
        · rw [Config.move_pc_self] at hb'
          cases hb'
        · rw [Config.move_pc_of_ne _ hne] at hb'
          exact .inr ⟨b, buffers, hb'⟩
    have hexact := hr.exact (by rw [hc]; simp) hopen
    simp only [pending, due, hnone, List.append_nil] at hexact
    simp only [pending, due, Config.move_pc_self, Place.unmanaged, Option.getD_some,
      List.flatten_singleton]
    exact (congrArg (· ++ _) hexact).trans (hr.reader.given_whole hc)

/-- A step of the session that is read from, but for an upcall. -/
theorem Inv.read_step (hr : r.Inv) {h : ReadHandler} {e : ReadEvent} {reader : ReadState}
    (hne : ∀ tail, r.reader.control ≠ .upcall tail) (ht : r.reader.step h e = some reader) :
    Inv { r with reader } := by
  have hforwards := hr.reader.step hne ht
  have hnone := hr.writing_none hne
  have hsame := hr.reader.keeps_step hne ht
  refine ⟨hforwards, hr.peer, hr.connected, ?_, ?_, ?_, ?_, ?_⟩
  · intro h
    obtain ⟨hcalls, hw, hkept⟩ := hr.first h
    rw [← hsame.settings, ← hsame.delivered] at hkept
    exact ⟨hcalls, hw, hkept⟩
  · intro a hw
    rw [hnone] at hw
    cases hw
  · intro a buffers hb
    have hw := (hr.writers a buffers hb).1
    rw [hnone] at hw
    cases hw
  · intro _ haccepting
    have hidle : r.reader.control ≠ .idle := by
      intro hc
      cases ReadState.step_cases ht <;> simp_all [ReadState.waiting]
    have hexact : r.relayed ++ r.pending = r.due := hr.exact hidle haccepting
    refine hexact.trans ?_
    simp only [due, hnone]
    exact hsame.given.symm
  · exact hr.relayed_isPrefix.trans hsame.received

/-- An upcall that finds no `PEER`. -/
theorem Inv.upcall_step (hr : r.Inv) (hp : r.peered = false) {tail : ℕ}
    (hc : r.reader.control = .upcall tail) :
    Inv { r with reader := r.reader.handlerRead (forwardHandler false) tail } := by
  obtain ⟨hcalls, hnone, hkept⟩ := hr.first hp
  have hwriting : ∀ a, r.writing ≠ some a := by simp [hnone]
  have hrelayed : r.relayed = [] := by rw [relayed, hcalls]; rfl
  have hgiven : (r.reader.handlerRead (forwardHandler false) tail).given = [] :=
    if_pos (ReadState.doNotConsume_forwardHandler false)
  refine ⟨hr.reader.handlerRead hc fun _ => hkept, hr.peer, hr.connected,
    fun _ => ⟨hcalls, hnone, .inl (ReadState.doNotConsume_forwardHandler false)⟩,
    fun a h => absurd h (hwriting a),
    fun a buffers h => absurd (hr.writers a buffers h).1 (hwriting a), ?_, hr.relayed_isPrefix⟩
  intro _ _
  change r.relayed ++ r.pending = due _
  simp only [hrelayed, pending, due, hnone, hgiven]
  rfl

/-- All that has been received is given to the peer once its upcall has returned. -/
theorem given_handlerRead {s : ReadState} (hs : s.Forwards) {tail : ℕ}
    (hc : s.control = .upcall tail) : (s.handlerRead (forwardHandler true) tail).given =
      s.received := by
  have hshown := hs.shown
  simp only [ReadState.shown, hc] at hshown
  have hdnc : (s.handlerRead (forwardHandler true) tail).settings.doNotConsume ≠ true := by
    change (forwardHandler true []).settings.doNotConsume ≠ true
    rw [ReadState.doNotConsume_forwardHandler]
    exact Bool.false_ne_true
  rw [ReadState.given, if_neg hdnc]
  change (s.delivered ++ [s.buf.segment]).flatten = s.received
  rw [List.flatten_append, List.flatten_singleton, hshown]

/-- The call of `write` has returned. -/
theorem Inv.written_step (hr : r.Inv) {a : T} {tail : ℕ} (hw : r.writing = some a)
    (hidle : r.peer.pc a = .idle) (hc : r.reader.control = .upcall tail) :
    Inv { r with
      reader := r.reader.handlerRead (forwardHandler true) tail
      writing := none } := by
  have hpeered : r.peered = true := by
    by_contra h
    rw [(hr.first (Bool.eq_false_iff.mpr h)).2.1] at hw
    cases hw
  have hnobody : ∀ b, (r.peer.pc b).unmanaged = none := by
    intro b
    cases hb : (r.peer.pc b).unmanaged with
    | none => rfl
    | some buffers =>
        obtain rfl := Option.some.inj (hw.symm.trans (hr.writers b buffers hb).1)
        rw [hidle] at hb
        cases hb
  refine ⟨hr.reader.handlerRead hc fun h => absurd h (by simp), hr.peer, hr.connected, ?_,
    fun _ h => absurd h (by simp), ?_, ?_, hr.relayed_isPrefix⟩
  · intro h
    rw [hpeered] at h
    cases h
  · intro b buffers hb
    rw [hnobody b] at hb
    cases hb
  · intro _ haccepting
    have hexact := hr.exact (hr.writing_ne_idle hw) haccepting
    simp only [pending, due, hw, hidle, Place.unmanaged] at hexact
    exact hexact.trans (given_handlerRead hr.reader hc).symm

/-- The peer is gone. -/
theorem Inv.expired_step (hr : r.Inv) {tail : ℕ} (hp : r.peered = true) (hnone : r.writing = none)
    (hc : r.reader.control = .upcall tail) :
    Inv { r with reader :=
      { r.reader.handlerRead (forwardHandler true) tail with control := .idle } } := by
  have hwriting : ∀ a, r.writing ≠ some a := by simp [hnone]
  have hforwards : (r.reader.handlerRead (forwardHandler true) tail).Forwards :=
    hr.reader.handlerRead hc fun h => absurd h (by simp)
  refine ⟨hforwards.idle rfl, hr.peer, hr.connected, ?_, fun a h => absurd h (hwriting a),
    fun a buffers h => absurd (hr.writers a buffers h).1 (hwriting a),
    fun h => absurd rfl h, hr.relayed_isPrefix⟩
  intro h
  rw [hp] at h
  cases h

/-- Everything a step can be. -/
inductive StepCase (r : Relay T) : RelayEvent T → Relay T → Prop where
  | read {e reader} : (∀ tail, r.reader.control ≠ .upcall tail) →
      r.reader.step (forwardHandler false) e = some reader →
      StepCase r (.read e) { r with reader }
  | upcall {e tail} : r.peered = false → r.reader.control = .upcall tail →
      StepCase r (.read e) { r with reader := r.reader.handlerRead (forwardHandler false) tail }
  | write {a tail peer} : r.peered = true → r.writing = none → r.reader.control = .upcall tail →
      (sessionSystem T (List Byte)).Step r.peer (a, .write [r.reader.buf.whole]) peer →
      StepCase r (.write a) { r with peer, writing := some a }
  | written {a tail} : r.writing = some a → r.peer.pc a = .idle →
      r.reader.control = .upcall tail →
      StepCase r .written { r with
        reader := r.reader.handlerRead (forwardHandler true) tail
        writing := none }
  | expired {tail} : r.peered = true → r.writing = none → r.reader.control = .upcall tail →
      StepCase r .expired { r with reader :=
        { r.reader.handlerRead (forwardHandler true) tail with control := .idle } }
  | peer {a e peer} : (∀ buffers, e ≠ .write buffers) →
      (sessionSystem T (List Byte)).Step r.peer (a, e) peer →
      StepCase r (.peer a e) { r with
        peer
        peered := r.peered || decide (r.peer.pc a = .connectUpcall) }

theorem handlerRead_of_upcall {s t : ReadState} {h : ReadHandler}
    (ht : s.step h .upcall = some t) : ∃ tail, s.control = .upcall tail ∧
      t = s.handlerRead h tail := by
  cases ReadState.step_cases ht with
  | @upcall tail hc => exact ⟨tail, hc, rfl⟩

theorem step_cases {e : RelayEvent T} (ht : r.step e = some r') : StepCase r e r' := by
  cases e with
  | read e =>
      rw [Relay.step] at ht
      split_ifs at ht with hno
      obtain ⟨reader, hreader, rfl⟩ := Option.map_eq_some_iff.mp ht
      by_cases hup : ∃ tail, r.reader.control = .upcall tail
      · obtain ⟨tail, hc⟩ := hup
        cases ReadState.step_cases hreader with
        | upcall hc => exact .upcall (Bool.eq_false_iff.mpr fun hp => hno ⟨hp, rfl⟩) hc
        | read hc' | readPrefix hc' | completeUntil hc' _ =>
            rw [hc] at hc'
            cases hc'
        | receive hw _ _ _ => simp [ReadState.waiting, hc] at hw
      · exact .read (fun tail hc => hup ⟨tail, hc⟩) hreader
  | write a =>
      rw [Relay.step] at ht
      split_ifs at ht with hready
      obtain ⟨hp, hnone, hcontrol⟩ := hready
      obtain ⟨peer, hpeer, rfl⟩ := Option.map_eq_some_iff.mp ht
      cases hc : r.reader.control with
      | upcall tail => exact .write hp hnone hc hpeer
      | _ =>
          rw [hc] at hcontrol
          exact absurd hcontrol Bool.false_ne_true
  | written =>
      rw [Relay.step] at ht
      cases hw : r.writing with
      | none =>
          rw [hw] at ht
          cases ht
      | some a =>
          simp only [hw] at ht
          split_ifs at ht with hpc
          obtain ⟨reader, hreader, rfl⟩ := Option.map_eq_some_iff.mp ht
          obtain ⟨tail, hc, rfl⟩ := handlerRead_of_upcall hreader
          exact .written hw hpc hc
  | expired =>
      rw [Relay.step] at ht
      split_ifs at ht with hready
      obtain ⟨reader, hreader, rfl⟩ := Option.map_eq_some_iff.mp ht
      obtain ⟨tail, hc, rfl⟩ := handlerRead_of_upcall hreader
      exact .expired hready.1 hready.2 hc
  | peer a e =>
      rw [Relay.step] at ht
      split_ifs at ht with hno
      obtain ⟨peer, hpeer, rfl⟩ := Option.map_eq_some_iff.mp ht
      refine .peer ?_ hpeer
      rintro buffers rfl
      exact hno (.inl rfl)

theorem Inv.step {e : RelayEvent T} (hr : r.Inv) (ht : r.step e = some r') : r'.Inv := by
  cases step_cases ht with
  | read hne hreader => exact hr.read_step hne hreader
  | upcall hp hc => exact hr.upcall_step hp hc
  | write hp hnone hc hpeer => exact hr.write_step hp hnone hc hpeer
  | written hw hidle hc => exact hr.written_step hw hidle hc
  | expired hp hnone hc => exact hr.expired_step hp hnone hc
  | peer hwrite hpeer => exact hr.peer_step hwrite hpeer rfl

theorem inv_initial (hr : r.IsInitial) : r.Inv := by
  obtain ⟨accepted, rfl⟩ := hr
  have hnobody : ∀ a : T, ((Session.initial T (List Byte) accepted).pc a).unmanaged = none :=
    fun _ => rfl
  refine ⟨ReadState.forwards_initial, .init ⟨accepted, rfl⟩, fun h => absurd h (by simp),
    fun _ => ⟨rfl, rfl, .inr rfl⟩, fun _ h => absurd h (by simp), ?_, ?_, List.nil_prefix⟩
  · intro a buffers hb
    rw [hnobody a] at hb
    cases hb
  · intro _ _
    exact (ite_self (c := (forwardHandler true []).settings.doNotConsume = true) []).symm

end Relay

namespace Relay

variable {T : Type*}

/-- All upcalls have returned, and nothing is being written. -/
structure Settled (r : Relay T) : Prop where
  notClosing : ¬ Status.closing ≤ r.peer.shared.status
  quiet : ∀ a, (r.peer.pc a).inWrite = false
  writes : r.peer.shared.writes = []
  waiting : r.reader.waiting = true

variable [DecidableEq T] {r : Relay T}

theorem Settled.relayed (hs : r.Settled) (hr : r.Inv) : r.relayed = r.reader.given := by
  have hnone := hr.writing_none fun tail h => by
    have hw := hs.waiting
    rw [ReadState.waiting, h] at hw
    exact Bool.false_ne_true hw
  have hidle : r.reader.control ≠ .idle := by
    intro h
    have hw := hs.waiting
    rw [ReadState.waiting, h] at hw
    exact Bool.false_ne_true hw
  have hexact := hr.exact hidle (.inl hs.notClosing)
  simpa only [pending, due, hnone, List.append_nil] using hexact

end Relay

end Minapp
