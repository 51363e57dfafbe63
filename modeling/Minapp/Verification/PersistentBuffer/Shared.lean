import Minapp.Verification.PersistentBuffer.Exclusive

/-! # A shared buffer manager is the queue

Buffers are copied and cleared outside the locks, in slots that are not in the lists. So the
functions take effect one after the other, as those of the queue do. -/

namespace Minapp

open Linearization

variable {T β : Type*}

/-- The functions of the queue, with their results. -/
def BufferManager.perform (q : BufferManager β) : QueueOp β → QueueResult × BufferManager β
  | .manage buffers => (.done, q.manage buffers)
  | .mark => (.marker q.mark.1, q.mark.2)
  | .clearMarked => (.done, q.clearMarked)

/-- The history is one of the queue alone that leads to `q`. -/
abbrev QueueHistory (trace : List (Event T (QueueOp β) QueueResult)) (q : BufferManager β) : Prop :=
  Sequential (fun q _ op result q' => q.perform op = (result, q')) {} trace q

/-- How far the thread is with a function. -/
def QueuePlace.phase : QueuePlace β → Phase (QueueOp β) QueueResult
  | .idle => .idle
  | .hold items | .malloc items _ | .copy items _ _ => .called (.manage items.buffers)
  | .testMarked | .swapLists => .called .mark
  | .dispose _ | .giveBack _ _ => .called .clearMarked
  | .finish op result => .effected op result

/-- The lists have the buffers of the queue. While they are cleared the marked ones have the
slots of them. -/
structure SharedManager.Represents (s : SharedManager T β) (q : BufferManager β) : Prop where
  managed : s.managed.map s.contents = q.managed.map some
  marked : s.clearer = none → s.marked.map s.contents = q.marked.map some
  nil : s.marked = [] ↔ q.marked = []
  marker : s.marker = q.marker

namespace SharedManager.Represents

variable {s s' : SharedManager T β} {q : BufferManager β}

theorem managed_nil (hq : s.Represents q) : s.managed = [] ↔ q.managed = [] := by
  rw [← List.map_eq_nil_iff (f := s.contents), hq.managed, List.map_eq_nil_iff]

/-- A change to slots that are in neither list. -/
theorem of_contents (hq : s.Represents q) (hmanaged : s'.managed = s.managed)
    (hmarked : s'.marked = s.marked) (hmarker : s'.marker = s.marker)
    (hclearer : s'.clearer = none → s.clearer = none)
    (hcontents : ∀ p ∈ s.managed, s'.contents p = s.contents p)
    (hcontents' : s'.clearer = none → ∀ p ∈ s.marked, s'.contents p = s.contents p) :
    s'.Represents q where
  managed := by
    rw [hmanaged, List.map_congr_left hcontents]
    exact hq.managed
  marked hnone := by
    rw [hmarked, List.map_congr_left (hcontents' hnone)]
    exact hq.marked (hclearer hnone)
  nil := by
    rw [hmarked]
    exact hq.nil
  marker := hmarker.trans hq.marker

end SharedManager.Represents

/-- The slots have the buffers that were copied into them. -/
theorem HeldBuffers.map_slots {items : HeldBuffers β} {contents : ℕ → Option β}
    (hall : ∀ item ∈ items, item.2.isSome = true)
    (hcontents : ∀ b p, (b, some p) ∈ items → contents p = some b) :
    items.slots.map contents = items.buffers.map some := by
  induction items with
  | nil => rfl
  | cons item items ih =>
      have ih := ih (fun i hi => hall i (List.mem_cons_of_mem _ hi))
        (fun b p hp => hcontents b p (List.mem_cons_of_mem _ hp))
      obtain ⟨b, _ | p⟩ := item
      · exact absurd (hall _ List.mem_cons_self) (by simp)
      · have hp := hcontents b p List.mem_cons_self
        calc (HeldBuffers.slots ((b, some p) :: items)).map contents
            = contents p :: (HeldBuffers.slots items).map contents := rfl
          _ = some b :: (HeldBuffers.buffers items).map some := by rw [hp, ih]

section Steps

variable {n : ℕ} {a : T} {s s' : SharedManager T β} {k k' : QueuePlace β} {q : BufferManager β}

/-- `mark` while a batch is marked. -/
theorem BufferManager.perform_mark_busy (h : q.marked ≠ []) :
    q.perform .mark = (.marker (-q.marker), q) := by
  rw [perform, BufferManager.mark, if_neg (by rwa [List.isEmpty_iff])]

theorem BufferManager.perform_mark_nothing (hmarked : q.marked = []) (hmanaged : q.managed = []) :
    q.perform .mark = (.marker 0, q) := by
  rw [perform, BufferManager.mark, if_pos (by rw [hmarked]; rfl), if_pos (by rw [hmanaged]; rfl)]

theorem BufferManager.perform_mark (hmarked : q.marked = []) (hmanaged : q.managed ≠ []) :
    q.perform .mark = (.marker (if q.marker = longMax then 1 else q.marker + 1),
      { managed := q.marked
        marked := q.managed
        marker := if q.marker = longMax then 1 else q.marker + 1 }) := by
  rw [perform, BufferManager.mark, if_pos (by rw [hmarked]; rfl),
    if_neg (by rwa [List.isEmpty_iff])]

/-- A step leaves the queue as it is or is the effect of a function on it. -/
theorem QueueStep.represents (hs : s.Valid) (hk : k.Valid a s) (h : QueueStep n a s k s' k')
    (hq : QueueHistory s.trace q ∧ s.Represents q) :
    ∃ q', QueueHistory s'.trace q' ∧ s'.Represents q' := by
  obtain ⟨htrace, hq⟩ := hq
  have hsame : ∀ {s' : SharedManager T β}, s'.managed = s.managed → s'.marked = s.marked →
      s'.marker = s.marker → s'.clearer = s.clearer → s'.contents = s.contents →
      s'.Represents q := by
    intro s' hmanaged hmarked hmarker hclearer hcontents
    exact hq.of_contents hmanaged hmarked hmarker (fun h => hclearer ▸ h)
      (fun p _ => by rw [hcontents]) fun _ p _ => by rw [hcontents]
  cases h with
  | callManage | callMark => exact ⟨q, .call htrace, hsame rfl rfl rfl rfl rfl⟩
  | callClear _ _ hnone =>
      refine ⟨q, .call htrace, ?_⟩
      exact hq.of_contents rfl rfl rfl (fun _ => hnone) (fun _ _ => rfl) fun _ _ _ => rfl
  | pop | noCached | malloc | markFree | giveCached | giveFree =>
      exact ⟨q, htrace, hsame rfl rfl rfl rfl rfl⟩
  | ret => exact ⟨q, .ret htrace, hsame rfl rfl rfl rfl rfl⟩
  | @copy items j p item hplace =>
      subst hplace
      have hheld : s.slots p = .held a := (hk.held p).mp List.mem_cons_self
      have hother : ∀ q ≠ p, Function.update s.contents p (some item.1) q = s.contents q :=
        fun q hne => Function.update_of_ne hne _ _
      refine ⟨q, htrace, hq.of_contents rfl rfl rfl id (fun q hmem => hother q ?_)
        fun hnone q hmem => hother q ?_⟩
      · rintro rfl
        cases hheld.symm.trans ((hs.managed q).mp hmem)
      · rintro rfl
        cases hheld.symm.trans ((hs.marked hnone q).mp hmem)
  | @append items hplace hall =>
      subst hplace
      refine ⟨q.manage items.buffers, .effect htrace rfl, ?_⟩
      exact
        { managed := by
            have hslots := HeldBuffers.map_slots hall hk.contents
            have happend := congrArg₂ (· ++ ·) hq.managed hslots
            exact List.map_append.trans (happend.trans List.map_append.symm)
          marked := hq.marked
          nil := hq.nil
          marker := hq.marker }
  | markBusy _ hmarked =>
      have hmark := BufferManager.perform_mark_busy (mt hq.nil.mpr hmarked)
      rw [← hq.marker] at hmark
      exact ⟨q, .effect htrace hmark, hsame rfl rfl rfl rfl rfl⟩
  | markNothing hplace hmanaged =>
      have hmarked : s.marked = [] := hs.swapping (by rw [hk.guard.mpr hplace]; simp)
      have hmark := BufferManager.perform_mark_nothing (hq.nil.mp hmarked)
        (hq.managed_nil.mp hmanaged)
      exact ⟨q, .effect htrace hmark, hsame rfl rfl rfl rfl rfl⟩
  | @swap marker hplace hmanaged hmarker =>
      have hmarked : s.marked = [] := hs.swapping (by rw [hk.guard.mpr hplace]; simp)
      have hnil := hq.nil.mp hmarked
      have hmark := BufferManager.perform_mark hnil (mt hq.managed_nil.mpr hmanaged)
      rw [← hq.marker, ← hmarker] at hmark
      refine ⟨_, .effect htrace hmark, ?_⟩
      exact
        { managed := hq.marked (hs.clearer_eq_none hmarked)
          marked := fun _ => hq.managed
          nil := hq.managed_nil
          marker := rfl }
  | @dispose p rest hplace =>
      subst hplace
      have hsome : s.clearer ≠ none := by
        rw [hk.clearer.mpr rfl]
        simp
      have hp : s.slots p = .marked := ((hk.rest _ rfl).2 p).mp List.mem_cons_self
      refine ⟨q, htrace, hq.of_contents rfl rfl rfl id (fun q hmem => ?_)
        fun hnone => absurd hnone hsome⟩
      apply Function.update_of_ne
      rintro rfl
      cases hp.symm.trans ((hs.managed q).mp hmem)
  | cleared =>
      refine ⟨q.clearMarked, .effect htrace rfl, ?_⟩
      exact ⟨hq.managed, fun _ => rfl, ⟨fun _ => rfl, fun _ => rfl⟩, hq.marker⟩

/-- A step goes on with the function of its thread, at the events it records. -/
theorem QueueStep.progress (hk : k.Valid a s) (h : QueueStep n a s k s' k')
    (hprogress : Progress a s.trace k.phase) : Progress a s'.trace k'.phase := by
  cases h with
  | @callManage buffers hplace =>
      subst hplace
      have hbuffers : HeldBuffers.buffers (buffers.map (·, none)) = buffers := by
        rw [HeldBuffers.buffers, List.map_map]
        exact List.map_id buffers
      rw [QueuePlace.phase, hbuffers]
      exact .call hprogress
  | callMark hplace | callClear hplace =>
      subst hplace
      exact .call hprogress
  | pop hplace | noCached hplace | malloc hplace | markFree hplace | dispose hplace
  | giveCached hplace | giveFree hplace =>
      subst hplace
      exact hprogress
  | @copy items j p item hplace hitem =>
      subst hplace
      obtain ⟨buffer, hbuffer⟩ := hk.awaits
      obtain rfl : item = (buffer, none) := Option.some.inj (hitem.symm.trans hbuffer)
      rw [QueuePlace.phase, HeldBuffers.buffers_set hitem]
      exact hprogress
  | append hplace | markBusy hplace | markNothing hplace | swap hplace | cleared hplace =>
      subst hplace
      exact .effect hprogress
  | ret hplace =>
      subst hplace
      exact .ret hprogress

/-- The events of a step are its thread's. -/
theorem QueueStep.trace_eq (h : QueueStep n a s k s' k') :
    s'.trace = s.trace ∨ ∃ e, e.thread = a ∧ s'.trace = s.trace ++ [e] := by
  cases h with
  | pop | noCached | malloc | copy | markFree | dispose | giveCached | giveFree => exact .inl rfl
  | callManage | callMark | callClear | append | markBusy | markNothing | swap | cleared | ret =>
      exact .inr ⟨_, rfl, rfl⟩

end Steps

variable [DecidableEq T] {n : ℕ} {c : Config T (SharedManager T β) (QueuePlace β)}

theorem SharedManager.history_of_reachable (h : (sharedManagerSystem T β n).Reachable c) :
    (∃ q, QueueHistory c.shared.trace q ∧ c.shared.Represents q) ∧
      ∀ a, Progress a c.shared.trace (c.pc a).phase := by
  apply h.invariant_of_reachable
    (I := fun c => (∃ q, QueueHistory c.shared.trace q ∧ c.shared.Represents q) ∧
      ∀ a, Progress a c.shared.trace (c.pc a).phase)
  · rintro _ rfl
    exact ⟨⟨{}, .nil, ⟨rfl, fun _ => rfl, ⟨fun _ => rfl, fun _ => rfl⟩, rfl⟩⟩, fun _ => .nil⟩
  · rintro c ⟨a, e⟩ d hreach ⟨⟨q, hq⟩, hthreads⟩ hd
    obtain ⟨⟨hs, -⟩, hvalid⟩ := SharedManager.valid_of_reachable hreach
    obtain ⟨s, k, hact, rfl⟩ := Config.step_eq_some hd
    have hstep := SharedManager.act_cases hact
    refine ⟨hstep.represents hs (hvalid a) hq, ?_⟩
    refine Config.forall_pc_move (P := fun b (k : QueuePlace β) => Progress b s.trace k.phase)
      (hstep.progress (hvalid a) (hthreads a)) fun b hne => ?_
    rcases hstep.trace_eq with htrace | ⟨e', hthread, htrace⟩
    · rw [htrace]
      exact hthreads b
    · rw [htrace]
      exact .other (by rw [hthread]; exact hne.symm) (hthreads b)

/-- The functions that threads call on one buffer manager, interleaved at every section under a
lock and every copy or clearing of a buffer, take effect one after the other, each between its call
and its return, as those of the queue: the lists have its buffers, in their order, the marked one
but while it is cleared, and every thread is returned what the queue gives. -/
theorem shared_manager_linearizable (h : (sharedManagerSystem T β n).Reachable c) :
    (∃ q, QueueHistory c.shared.trace q ∧
      c.shared.managed.map c.shared.contents = q.managed.map some ∧
      (c.shared.clearer = none → c.shared.marked.map c.shared.contents = q.marked.map some) ∧
      c.shared.marker = q.marker) ∧
    ∀ a, Progress a c.shared.trace (c.pc a).phase ∧
      effects a c.shared.trace = returns a c.shared.trace ++ (c.pc a).phase.pending := by
  obtain ⟨⟨q, htrace, hq⟩, hthreads⟩ := SharedManager.history_of_reachable h
  exact ⟨⟨q, htrace, hq.managed, hq.marked, hq.marker⟩,
    fun a => ⟨hthreads a, (hthreads a).effects_eq⟩⟩

/-- One thread manages while another, which has found nothing marked, is about to swap the
lists. -/
def manageDuringMark : List (Bool × QueueEvent ℕ) :=
  [(true, .call .mark), (true, .run), (false, .call (.manage [5, 6])), (false, .hold 1),
    (false, .run), (false, .hold 0), (false, .malloc 1), (false, .run), (false, .run),
    (false, .run), (true, .run), (true, .run)]

theorem shared_manager_linearizable_manageDuringMark :
    ∃ (c : Config Bool (SharedManager Bool ℕ) (QueuePlace ℕ)) (q : BufferManager ℕ),
      (c.shared.marked = [1, 0] ∧ returns true c.shared.trace = [(.mark, .marker 1)]) ∧
        QueueHistory c.shared.trace q ∧ q.marked.map some = [some 5, some 6] := by
  obtain ⟨c, hc, hp⟩ := TransitionSystem.exists_reachable_of_exec
    (s := ⟨.construct Bool ℕ 1, fun _ => .idle⟩)
    (· = ⟨.construct Bool ℕ 1, fun _ => .idle⟩) (Config.step (SharedManager.act 1))
    manageDuringMark
    (fun c => decide ((c.shared.marked = [1, 0] ∧
        returns true c.shared.trace = [(.mark, .marker 1)]) ∧
      c.shared.clearer = none ∧ c.shared.marked.map c.shared.contents = [some 5, some 6])) rfl
    (by decide +kernel)
  obtain ⟨hp, hnone, hcontents⟩ := of_decide_eq_true hp
  obtain ⟨⟨q, hq, -, hmarked, -⟩, -⟩ := shared_manager_linearizable hc
  exact ⟨c, q, hp, hq, (hmarked hnone).symm.trans hcontents⟩

end Minapp
