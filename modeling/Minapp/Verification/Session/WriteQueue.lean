import Minapp.Verification.Session.Steps
import Mathlib.Data.List.Basic

/-! # The write queue

At most one `async_write` is outstanding, the batches handed to it are the appended
buffers in order, every batch written is reported once with its contents, and no buffer
waits without an activation or an operation that will take it. -/

namespace Minapp

namespace BufferManager

variable {β : Type*} {m : BufferManager β}

/-- A marker is the positive number of a batch, or zero before the first one. -/
structure MarkerInv (m : BufferManager β) : Prop where
  nonneg : 0 ≤ m.marker
  le_max : m.marker ≤ longMax
  pos : m.marked ≠ [] → 0 < m.marker

/-- Marking that yields no batch leaves the queue as it is: a batch is marked already, or
there is nothing to mark. -/
theorem mark_of_nonpos (hm : m.MarkerInv) (h : m.mark.1 ≤ 0) : m.mark.2 = m ∧
    (m.marked ≠ [] ∧ m.mark.1 ≠ 0 ∨ m.marked = [] ∧ m.managed = [] ∧ m.mark.1 = 0) := by
  rw [mark] at h ⊢
  cases hmarked : m.marked with
  | nil =>
      cases hmanaged : m.managed with
      | nil => simp
      | cons b bs =>
          have := hm.nonneg
          simp only [hmarked, hmanaged, List.isEmpty_nil, List.isEmpty_cons, Bool.false_eq_true,
            if_true, if_false] at h
          split at h <;> omega
  | cons b bs =>
      have := hm.pos (by simp [hmarked])
      simp only [List.isEmpty_cons, Bool.false_eq_true, if_false]
      exact ⟨trivial, .inl ⟨by simp, by omega⟩⟩

/-- Marking that yields a batch takes all managed buffers, under a positive marker. -/
theorem mark_of_pos (hm : m.MarkerInv) (h : 0 < m.mark.1) : m.marked = [] ∧ m.managed ≠ [] ∧
    m.mark.2 = { managed := [], marked := m.managed, marker := m.mark.1 } ∧
    m.mark.2.MarkerInv := by
  have hnonneg := hm.nonneg
  have hmax := hm.le_max
  rw [mark] at h ⊢
  cases hmarked : m.marked with
  | nil =>
      cases hmanaged : m.managed with
      | nil => simp [hmarked, hmanaged] at h
      | cons b bs =>
          simp only [hmarked, hmanaged, List.isEmpty_nil, List.isEmpty_cons, Bool.false_eq_true,
            if_true, if_false] at h ⊢
          refine ⟨trivial, by simp, trivial, Int.le_of_lt h, ?_, fun _ => h⟩
          rw [longMax] at *
          simp only
          split <;> omega
  | cons b bs =>
      have := hm.pos (by simp [hmarked])
      simp only [hmarked, List.isEmpty_cons, Bool.false_eq_true, if_false] at h
      omega

end BufferManager

variable {T β : Type*}

/-- The batches, as far as the owner of the marked buffers has brought them. -/
def OwnerInv (owner : Owner T) (marked : List β)
    (writes handed completed reported : List (List β)) : Prop :=
  match owner with
  | .nobody => marked = [] ∧ writes = [] ∧ handed = completed ∧ completed = reported
  | .starting _ => marked ≠ [] ∧ writes = [] ∧ handed = completed ∧ completed = reported
  | .operation =>
    marked ≠ [] ∧ writes = [marked] ∧ handed = completed ++ [marked] ∧ completed = reported
  | .reporting _ =>
    marked ≠ [] ∧ writes = [] ∧ handed = completed ∧ completed = reported ++ [marked]
  | .clearing _ => marked ≠ [] ∧ writes = [] ∧ handed = completed ∧ completed = reported
  | .failed => marked ≠ [] ∧ writes = [] ∧ handed = completed ++ [marked] ∧ completed = reported

/-- The buffers marked but not yet handed over. -/
def Owner.unhanded (owner : Owner T) (marked : List β) : List β :=
  match owner with
  | .starting _ => marked
  | _ => []

/-- The shared part of the invariant: every appended buffer is handed over, marked or
managed, in this order. -/
structure QueueInv (owner : Owner T) (queue : BufferManager β)
    (writes calls handed completed reported : List (List β)) : Prop where
  marker : queue.MarkerInv
  batches : OwnerInv owner queue.marked writes handed completed reported
  order : handed.flatten ++ (owner.unhanded queue.marked ++ queue.managed) = calls.flatten

/-- An activation is where the owner of the marked buffers says it is. -/
structure Holds (a : T) (owner : Owner T) (k : Place β) : Prop where
  starting : k = .asyncWrite ↔ owner = .starting a
  reporting : k = .writeUpcall ↔ owner = .reporting a
  clearing : k = .clearMarked ↔ owner = .clearing a

/-- A place at which no activation answers for the marked buffers. -/
def Place.Free (k : Place β) : Prop := k ≠ .asyncWrite ∧ k ≠ .writeUpcall ∧ k ≠ .clearMarked

theorem Holds.free {a : T} {owner : Owner T} {k k' : Place β} (h : Holds a owner k) (hk : k.Free)
    (hk' : k'.Free) : Holds a owner k' :=
  ⟨iff_of_false hk'.1 (mt h.starting.mpr hk.1), iff_of_false hk'.2.1 (mt h.reporting.mpr hk.2.1),
    iff_of_false hk'.2.2 (mt h.clearing.mpr hk.2.2)⟩

/-- The activations that an owner of the marked buffers can name. -/
def Owner.Names (owner : Owner T) (b : T) : Prop :=
  owner = .starting b ∨ owner = .reporting b ∨ owner = .clearing b

theorem Holds.free_of_not_names {b : T} {owner : Owner T} {k : Place β} (h : Holds b owner k)
    (hn : ¬ owner.Names b) : k.Free :=
  ⟨fun hk => hn (.inl (h.starting.mp hk)), fun hk => hn (.inr (.inl (h.reporting.mp hk))),
    fun hk => hn (.inr (.inr (h.clearing.mp hk)))⟩

theorem holds_of_free {b : T} {owner : Owner T} {k : Place β} (hk : k.Free)
    (hn : ¬ owner.Names b) : Holds b owner k :=
  ⟨iff_of_false hk.1 fun h => hn (.inl h), iff_of_false hk.2.1 fun h => hn (.inr (.inl h)),
    iff_of_false hk.2.2 fun h => hn (.inr (.inr h))⟩

/-- A change of the owner that is not about an activation keeps where it is. -/
theorem Holds.change {b : T} {owner owner' : Owner T} {k : Place β} (h : Holds b owner k)
    (hn : ¬ owner.Names b) (hn' : ¬ owner'.Names b) : Holds b owner' k :=
  holds_of_free (h.free_of_not_names hn) hn'

theorem owner_nobody {owner : Owner T} {marked : List β}
    {writes handed completed reported : List (List β)}
    (h : OwnerInv owner marked writes handed completed reported) (hm : marked = []) :
    owner = .nobody := by
  cases owner with
  | nobody => rfl
  | _ => exact absurd hm h.1

theorem owner_operation {owner : Owner T} {marked : List β}
    {writes handed completed reported : List (List β)}
    (h : OwnerInv owner marked writes handed completed reported) (hw : writes ≠ []) :
    owner = .operation := by
  cases owner with
  | operation => rfl
  | _ => exact absurd h.2.1 hw

namespace SessionState

variable {a : T} {s s' : SessionState T β} {k k' : Place β} {e : SessionEvent β}

/-- The invariant of the write queue. -/
def QueueOk (s : SessionState T β) : Prop :=
  QueueInv s.owner s.queue s.writes s.calls s.handed s.completed s.reported

theorem reported_upcall (s : SessionState T β) (u : Upcall β) :
    (s.upcall u).reported = s.reported ++ u.written.toList := by
  rw [reported, upcall]
  rw [List.filterMap_append]
  cases u <;> rfl

/-- An upcall that reports no batch leaves the write queue alone. -/
theorem QueueOk.upcall (hs : s.QueueOk) {u : Upcall β} (hu : u.written = none) :
    (s.upcall u).QueueOk := by
  have hreported := s.reported_upcall u
  rw [hu] at hreported
  rw [QueueOk]
  rw [hreported, Option.toList_none, List.append_nil]
  exact hs

theorem queue_localStep (hs : s.QueueOk) (hk : Holds a s.owner k)
    (hstep : LocalStep a s k e s' k') : s'.QueueOk ∧ Holds a s'.owner k' ∧
      ∀ b (k₂ : Place β), b ≠ a → Holds b s.owner k₂ → Holds b s'.owner k₂ := by
  have hbatches := hs.batches
  have horder := hs.order
  cases hstep with
  | manage =>
      refine ⟨⟨⟨hs.marker.nonneg, hs.marker.le_max, hs.marker.pos⟩, hs.batches, ?_⟩,
        hk.free (by simp [Place.Free]) (by simp [Place.Free]), fun _ _ _ h => h⟩
      simp only [BufferManager.manage, List.flatten_append, List.flatten_singleton, ← horder,
        List.append_assoc]
  | markBusy hle hne =>
      obtain ⟨heq, -⟩ := BufferManager.mark_of_nonpos hs.marker hle
      refine ⟨?_, hk.free (by simp [Place.Free]) (by simp [Place.Free]), fun _ _ _ h => h⟩
      rw [heq]
      exact hs
  | markEmpty hz =>
      obtain ⟨heq, -⟩ := BufferManager.mark_of_nonpos hs.marker (Int.le_of_eq hz)
      refine ⟨?_, hk.free (by simp [Place.Free]) (by simp [Place.Free]), fun _ _ _ h => h⟩
      rw [heq]
      exact hs
  | markNew hpos =>
      -- nobody answers for marked buffers, as there are none
      obtain ⟨hmarked, hmanaged, heq, hmarker⟩ := BufferManager.mark_of_pos hs.marker hpos
      have hnobody := owner_nobody hbatches hmarked
      rw [hnobody] at hbatches horder
      refine ⟨⟨hmarker, ?_, ?_⟩, ?_, ?_⟩
      · rw [heq]
        exact ⟨hmanaged, hbatches.2⟩
      · rw [heq, ← horder]
        simp [Owner.unhanded]
      · constructor <;> simp
      · intro b k₂ hb h
        rw [hnobody] at h
        exact h.change (by simp [Owner.Names]) (by simp [Owner.Names, Ne.symm hb])
  | asyncWrite =>
      have howner := hk.starting.mp rfl
      rw [howner] at hbatches horder
      obtain ⟨hmarked, hwrites, hhanded, hreported⟩ := hbatches
      refine ⟨⟨hs.marker, ⟨hmarked, ?_, ?_, hreported⟩, ?_⟩, ?_, ?_⟩
      · rw [hwrites]
        rfl
      · rw [hhanded]
      · rw [← horder]
        simp [Owner.unhanded]
      · exact holds_of_free (by simp [Place.Free]) (by simp [Owner.Names])
      · intro b k₂ hb h
        rw [howner] at h
        exact h.change (by simp [Owner.Names, Ne.symm hb]) (by simp [Owner.Names])
  | written hw =>
      have howner := owner_operation hbatches (by rw [hw]; simp)
      rw [howner] at hbatches horder
      obtain ⟨hmarked, hwrites, hhanded, hreported⟩ := hbatches
      rw [hw] at hwrites
      obtain ⟨rfl, rfl⟩ := List.cons.inj hwrites
      refine ⟨⟨hs.marker, ⟨hmarked, rfl, hhanded, ?_⟩, ?_⟩, ?_, ?_⟩
      · exact congrArg (· ++ [s.queue.marked]) hreported
      · exact horder
      · constructor <;> simp
      · intro b k₂ hb h
        rw [howner] at h
        exact h.change (by simp [Owner.Names]) (by simp [Owner.Names, Ne.symm hb])
  | writeFailed hw =>
      have howner := owner_operation hbatches (by rw [hw]; simp)
      rw [howner] at hbatches horder
      obtain ⟨hmarked, hwrites, hhanded, hreported⟩ := hbatches
      rw [hw] at hwrites
      obtain ⟨rfl, rfl⟩ := List.cons.inj hwrites
      refine ⟨⟨hs.marker, ⟨hmarked, rfl, hhanded, hreported⟩, horder⟩, ?_, ?_⟩
      · exact holds_of_free (by simp [Place.Free]) (by simp [Owner.Names])
      · intro b k₂ hb h
        rw [howner] at h
        exact h.change (by simp [Owner.Names]) (by simp [Owner.Names])
  | writeUpcall =>
      have howner := hk.reporting.mp rfl
      rw [howner] at hbatches horder
      obtain ⟨hmarked, hwrites, hhanded, hreported⟩ := hbatches
      refine ⟨⟨hs.marker, ⟨hmarked, hwrites, hhanded, ?_⟩, horder⟩, ?_, ?_⟩
      · exact hreported.trans (s.reported_upcall (.write s.queue.marked)).symm
      · constructor <;> simp
      · intro b k₂ hb h
        rw [howner] at h
        exact h.change (by simp [Owner.Names, Ne.symm hb]) (by simp [Owner.Names, Ne.symm hb])
  | closeUpcall | connectUpcall | connectError | readUpcall | readError | writeError =>
      exact ⟨hs.upcall rfl, hk.free (by simp [Place.Free]) (by simp [Place.Free]),
        fun _ _ _ h => h⟩
  | clearMarked =>
      have howner := hk.clearing.mp rfl
      rw [howner] at hbatches horder
      obtain ⟨hmarked, hwrites, hhanded, hreported⟩ := hbatches
      refine ⟨⟨?_, ⟨rfl, hwrites, hhanded, hreported⟩, horder⟩, ?_, ?_⟩
      · exact ⟨hs.marker.nonneg, hs.marker.le_max, fun h => absurd rfl h⟩
      · exact holds_of_free (by simp [Place.Free]) (by simp [Owner.Names])
      · intro b k₂ hb h
        rw [howner] at h
        exact h.change (by simp [Owner.Names, Ne.symm hb]) (by simp [Owner.Names])
  | _ => exact ⟨hs, hk.free (by simp [Place.Free]) (by simp [Place.Free]), fun _ _ _ h => h⟩

end SessionState

/-- The invariant of the write queue holds in every run. -/
theorem session_queueInv [DecidableEq T] {c : Session T β}
    {C : Session T β → T × SessionEvent β → Prop}
    (hc : ((sessionSystem T β).restrict C).Reachable c) :
    c.shared.QueueOk ∧ ∀ a, Holds a c.shared.owner (c.pc a) := by
  refine hc.interleave_invariant (L := fun a s k => Holds a s.owner k) ?_ ?_
  · rintro c ⟨accepted, rfl⟩
    have hmax : (0 : ℤ) ≤ longMax := by decide
    refine ⟨⟨⟨Int.le_refl 0, hmax, fun h => absurd rfl h⟩, ⟨rfl, rfl, rfl, rfl⟩, rfl⟩, ?_⟩
    intro a
    exact holds_of_free (by simp [Place.Free, Session.initial])
      (by simp [Owner.Names, Session.initial])
  · intro c a e s k _ hs hk _ hstep
    obtain ⟨hs', hk', hother⟩ :=
      SessionState.queue_localStep hs (hk a) (SessionState.localStep_of_act hstep)
    exact ⟨hs', hk', fun b hb => hother b _ hb (hk b)⟩

/-! ## No buffer is left behind -/

/-- The runs of a session up to the moment it is closed. -/
def openSystem (T β : Type*) [DecidableEq T] :
    TransitionSystem (Session T β) (T × SessionEvent β) :=
  (sessionSystem T β).restrict fun c _ => c.shared.status ≠ .closed

/-- A place about to look for managed buffers. -/
def Place.Looking (k : Place β) : Prop := k = .testClosed ∨ k = .mark

/-- A place on the way from a failed write to the close that follows. -/
def Place.Failing (k : Place β) : Prop :=
  k = .writeError ∨ k = .closeLoad .writeError ∨ ∃ current, k = .closeExchange .writeError current

/-- A compare-exchange of `close` does not expect a closed session. -/
def Place.ExpectsOpen (k : Place β) : Prop :=
  ∀ call current, k = .closeExchange call current → current ≠ .closed

/-- A place inside `write`, or inside the callback of `async_write`. -/
def Place.inWrite : Place β → Bool
  | .testClosing _ | .manage _ | .testClosed | .mark | .testDrained _ | .asyncWrite
  | .writeUpcall | .clearMarked | .writeError => true
  | .closeLoad call | .closeExchange call _ | .closeSocket call =>
    match call with
    | .drained _ | .writeError => true
    | _ => false
  | _ => false

/-- While the session is not closed, an activation is on its way to whatever waits. -/
structure OpenInv (c : Session T β) : Prop where
  exchange : ∀ a, (c.pc a).ExpectsOpen
  managed : c.shared.status ≠ .closed → c.shared.queue.managed ≠ [] →
    c.shared.queue.marked ≠ [] ∨ ∃ a, (c.pc a).Looking
  failed : c.shared.status ≠ .closed → c.shared.owner = .failed → ∃ a, (c.pc a).Failing

namespace Session

open SessionState

variable {c : Session T β} {a : T} {s' : SessionState T β} {k k' : Place β} {e : SessionEvent β}

theorem exchange_localStep (hopen : c.shared.status ≠ .closed)
    (hstep : LocalStep a c.shared k e s' k') : k'.ExpectsOpen := by
  cases hstep with
  | closeLoad | closeRetry =>
      rintro call' current' heq
      obtain ⟨rfl, rfl⟩ := Place.closeExchange.inj heq
      exact hopen
  | _ => simp [Place.ExpectsOpen]

theorem managed_localStep [DecidableEq T] (hopen : c.shared.status ≠ .closed)
    (hq : c.shared.queue.MarkerInv)
    (hc : c.shared.queue.managed ≠ [] →
      c.shared.queue.marked ≠ [] ∨ ∃ a, (c.pc a).Looking)
    (hk : c.pc a = k) (hstep : LocalStep a c.shared k e s' k') (hne : s'.queue.managed ≠ []) :
    s'.queue.marked ≠ [] ∨ ∃ b, ((c.move a s' k').pc b).Looking := by
  have hself : k'.Looking → ∃ b, ((c.move a s' k').pc b).Looking :=
    fun h => ⟨a, by rwa [Config.move_pc_self]⟩
  cases hstep with
  | manage | clearMarked => exact .inr (hself (.inl rfl))
  | foundOpen => exact .inr (hself (.inr rfl))
  | foundClosed hclosed => exact absurd (status_closed_of_le hclosed) hopen
  | markBusy hle hnz =>
      obtain ⟨heq, ⟨hmarked, -⟩ | ⟨-, -, hz⟩⟩ := BufferManager.mark_of_nonpos hq hle
      · rw [heq]
        exact .inl hmarked
      · exact absurd hz hnz
  | markEmpty hz =>
      obtain ⟨heq, ⟨-, hnz⟩ | ⟨-, hmanaged, -⟩⟩ :=
        BufferManager.mark_of_nonpos hq (Int.le_of_eq hz)
      · exact absurd hz hnz
      · rw [heq] at hne
        exact absurd hmanaged hne
  | markNew hpos =>
      obtain ⟨-, -, heq, -⟩ := BufferManager.mark_of_pos hq hpos
      rw [heq] at hne
      exact absurd rfl hne
  | _ =>
      refine (hc hne).imp id fun h => Config.exists_pc_move h ?_
      rw [hk]
      simp [Place.Looking]

theorem failed_localStep [DecidableEq T] (hc : c.shared.owner = .failed → ∃ a, (c.pc a).Failing)
    (hex : k.ExpectsOpen) (hk : c.pc a = k) (hstep : LocalStep a c.shared k e s' k')
    (hopen : s'.status ≠ .closed) (hf : s'.owner = .failed) :
    ∃ b, ((c.move a s' k').pc b).Failing := by
  have hself : k'.Failing → ∃ b, ((c.move a s' k').pc b).Failing :=
    fun h => ⟨a, by rwa [Config.move_pc_self]⟩
  cases hstep with
  | writeFailed => exact hself (.inl rfl)
  | writeError => exact hself (.inr (.inl rfl))
  | markNew | asyncWrite | written | writeUpcall | clearMarked => exact absurd hf (by simp)
  | closeExchanged =>
      apply Config.exists_pc_move (hc hf)
      rw [hk]
      rintro (h | h | ⟨current, h⟩)
      · exact absurd h (by simp)
      · exact absurd h (by simp)
      · obtain ⟨rfl, -⟩ := Place.closeExchange.inj h
        exact absurd rfl hopen
  | closeStop hstop =>
      apply Config.exists_pc_move (hc hf)
      rw [hk]
      rintro (h | h | ⟨current, h⟩)
      · exact absurd h (by simp)
      · exact absurd h (by simp)
      · -- the exchange of a failed write only stops at a closed session
        obtain ⟨rfl, rfl⟩ := Place.closeExchange.inj h
        exact absurd (status_closed_of_not_lt hstop) (hex _ _ rfl)
  | _ =>
      apply Config.exists_pc_move (hc hf)
      rw [hk]
      simp [Place.Failing]

theorem openInv [DecidableEq T] {c : Session T β} (hc : (openSystem T β).Reachable c) :
    OpenInv c := by
  apply hc.invariant_of_reachable
  · rintro c ⟨accepted, rfl⟩
    exact ⟨by simp [initial, Place.ExpectsOpen], fun _ h => absurd rfl h,
      fun _ h => absurd h (by simp [initial])⟩
  · rintro c ⟨a, e⟩ d hreach ho ⟨hopen, hstep⟩
    obtain ⟨s', k', hact, rfl⟩ := Config.step_eq_some hstep
    have hlocal := localStep_of_act hact
    refine ⟨?_, ?_, ?_⟩
    · exact Config.forall_pc_move (P := fun _ => Place.ExpectsOpen)
        (exchange_localStep hopen hlocal) fun b _ => ho.exchange b
    · intro _ hne
      exact managed_localStep hopen (session_queueInv hreach).1.marker (ho.managed hopen) rfl
        hlocal hne
    · intro hopen' hf
      exact failed_localStep (ho.failed hopen) (ho.exchange a) rfl hlocal hopen' hf

/-- While the session is open, no buffer waits without an operation or an activation. -/
theorem drained_of_quiet (hq : c.shared.QueueOk) (hh : ∀ a, Holds a c.shared.owner (c.pc a))
    (ho : OpenInv c) (hopen : c.shared.status ≠ .closed) (hquiet : ∀ a, (c.pc a).inWrite = false)
    (hwrites : c.shared.writes = []) :
    c.shared.queue.marked = [] ∧ c.shared.queue.managed = [] := by
  have hno : ∀ a k, c.pc a = k → k.inWrite = true → False := by
    rintro a k rfl hk
    rw [hquiet a] at hk
    exact Bool.false_ne_true hk
  have hmarked : c.shared.queue.marked = [] := by
    have hbatches := hq.batches
    cases hown : c.shared.owner with
    | nobody =>
        rw [hown] at hbatches
        exact hbatches.1
    | starting a => exact (hno a _ ((hh a).starting.mpr hown) rfl).elim
    | operation =>
        rw [hown] at hbatches
        rw [hbatches.2.1] at hwrites
        exact absurd hwrites (by simp)
    | reporting a => exact (hno a _ ((hh a).reporting.mpr hown) rfl).elim
    | clearing a => exact (hno a _ ((hh a).clearing.mpr hown) rfl).elim
    | failed =>
        obtain ⟨a, h | h | ⟨current, h⟩⟩ := ho.failed hopen hown
        · exact (hno a _ h rfl).elim
        · exact (hno a _ h rfl).elim
        · exact (hno a _ h rfl).elim
  refine ⟨hmarked, ?_⟩
  by_contra hne
  rcases ho.managed hopen hne with h | ⟨a, h | h⟩
  · exact h hmarked
  · exact hno a _ h rfl
  · exact hno a _ h rfl

end Session

/-- In every interleaving at most one `async_write` is outstanding; the batches handed
over, followed by what is marked for the next one and what is managed, are the buffers of
the calls in the order they were appended; the batches completed are handed over, and
reported in order with their contents, the last one about to be if a callback has not made
its upcall. Up to the close, once nothing is inside `write` and no `async_write` is
outstanding, every buffer appended has been written and reported. -/
theorem writes_exactly_once [DecidableEq T] (c : Session T β)
    (hc : (sessionSystem T β).Reachable c) :
    c.shared.writes.length ≤ 1 ∧
    (∃ unhanded, c.shared.handed.flatten ++ (unhanded ++ c.shared.queue.managed) =
      c.shared.calls.flatten ∧ ((∀ a, c.pc a ≠ .asyncWrite) → unhanded = [])) ∧
    c.shared.completed <+: c.shared.handed ∧
    (∀ a, c.pc a = .writeUpcall →
      c.shared.completed = c.shared.reported ++ [c.shared.queue.marked]) ∧
    ((∀ a, c.pc a ≠ .writeUpcall) → c.shared.completed = c.shared.reported) ∧
    ((openSystem T β).Reachable c → c.shared.status ≠ .closed →
      (∀ a, (c.pc a).inWrite = false) → c.shared.writes = [] →
        c.shared.queue.managed = [] ∧ c.shared.reported = c.shared.handed ∧
          c.shared.handed.flatten = c.shared.calls.flatten) := by
  have hreach : ((sessionSystem T β).restrict fun _ _ => True).Reachable c := hc.restrict_true
  obtain ⟨hq, hh⟩ := session_queueInv hreach
  have hbatches := hq.batches
  have horder := hq.order
  refine ⟨?_, ⟨_, horder, ?_⟩, ?_, ?_, ?_, ?_⟩
  · cases hown : c.shared.owner <;> rw [hown] at hbatches <;> simp [hbatches.2.1]
  · intro hno
    cases hown : c.shared.owner with
    | starting a => exact absurd ((hh a).starting.mpr hown) (hno a)
    | _ => rfl
  · cases hown : c.shared.owner <;> rw [hown] at hbatches <;> simp [hbatches.2.2.1]
  · intro a ha
    rw [(hh a).reporting.mp ha] at hbatches
    exact hbatches.2.2.2
  · intro hno
    cases hown : c.shared.owner with
    | reporting a => exact absurd ((hh a).reporting.mpr hown) (hno a)
    | _ =>
        rw [hown] at hbatches
        exact hbatches.2.2.2
  · intro hopenReach hopen hquiet hwrites
    obtain ⟨hmarked, hmanaged⟩ :=
      Session.drained_of_quiet hq hh (Session.openInv hopenReach) hopen hquiet hwrites
    have hown := owner_nobody hbatches hmarked
    rw [hown] at hbatches horder
    refine ⟨hmanaged, ?_, ?_⟩
    · rw [hbatches.2.2.1, hbatches.2.2.2]
    · rw [← horder, hmanaged]
      simp [Owner.unhanded]

/-- Two activations write; the second finds the batch of the first in flight. -/
def twoWrites (a b : T) : List (T × SessionEvent ℕ) :=
  [(a, .write [1, 2]), (a, .run), (b, .write [3]), (a, .run), (a, .run), (a, .run), (b, .run),
    (b, .run), (a, .run), (b, .run), (b, .run), (a, .writeDone true), (a, .run), (a, .run),
    (a, .run), (a, .run), (a, .run), (b, .writeDone true), (b, .run), (b, .run), (b, .run),
    (b, .run), (b, .run)]

theorem writes_exactly_once_two : ∃ c : Session (Fin 2) ℕ,
    (sessionSystem (Fin 2) ℕ).Reachable c ∧ c.shared.writes.length ≤ 1 ∧
      c.shared.reported = [[1, 2], [3]] ∧ c.shared.queue.managed = [] ∧
      c.shared.handed.flatten = c.shared.calls.flatten := by
  obtain ⟨c, hopenReach, hp⟩ := Session.exists_reachable_of_exec
    (fun (c : Session (Fin 2) ℕ) _ => c.shared.status ≠ .closed) true (twoWrites 0 1)
    (fun c => decide (c.shared.status ≠ .closed ∧ (∀ a, (c.pc a).inWrite = false) ∧
      c.shared.writes = [] ∧ c.shared.reported = [[1, 2], [3]])) (by decide +kernel)
  obtain ⟨hopen, hquiet, hwrites, hreported⟩ := of_decide_eq_true hp
  have hc := hopenReach.of_restrict
  obtain ⟨hone, -, -, -, -, hdrained⟩ := writes_exactly_once c hc
  obtain ⟨hmanaged, -, hall⟩ := hdrained hopenReach hopen hquiet hwrites
  exact ⟨c, hc, hone, hreported, hmanaged, hall⟩

end Minapp
