import Minapp.Verification.Atomic.Counts

/-! # The cells are linearizable

The functions take effect at `store_and_unlock`, and the operations of the lock at their last
access to the word, as on plain variables that can be locked. -/

namespace Minapp

open Linearization

variable {T ι : Type*}

/-- An object variable that can be locked: what a cell is meant to be. -/
structure ObjectVariable (T : Type*) where
  value : Handle := none
  lockedBy : Option T := none

/-- The operations on the variable, one at a time, with their results. -/
inductive ObjectVariable.Step :
    ObjectVariable T → T → AtomicOp → AtomicResult → ObjectVariable T → Prop
  | load {v a} : Step ⟨v, none⟩ a (.access .load) (.handle v) ⟨v, none⟩
  | store {v a desired} : Step ⟨v, none⟩ a (.access (.store desired)) .done ⟨desired, none⟩
  | exchange {v a desired} :
      Step ⟨v, none⟩ a (.access (.exchange desired)) (.handle v) ⟨desired, none⟩
  | compareEqual {expected a desired} :
      Step ⟨expected, none⟩ a (.access (.compareExchange expected desired))
        (.compared true expected) ⟨desired, none⟩
  | compareOther {v a expected desired} : v ≠ expected →
      Step ⟨v, none⟩ a (.access (.compareExchange expected desired)) (.compared false v) ⟨v, none⟩
  | lock {v a} : Step ⟨v, none⟩ a .lock .done ⟨v, some a⟩
  | tryLock {v a} : Step ⟨v, none⟩ a .tryLock (.succeeded true) ⟨v, some a⟩
  | tryFail {x a} : Step x a .tryLock (.succeeded false) x
  | unlock {v a} : Step ⟨v, some a⟩ a .unlock .done ⟨v, none⟩
  | get {v a} : Step ⟨v, some a⟩ a .get (.handle v) ⟨v, some a⟩
  | set {v a obj} : Step ⟨v, some a⟩ a (.set obj) (.handle v) ⟨obj, some a⟩

def CellOwner.lockedBy : CellOwner T → Option T
  | .user a => some a
  | _ => none

/-- The variables that the cells stand for. -/
def AtomicState.contents (s : AtomicState T ι) : ι → ObjectVariable T :=
  fun i => ⟨(s.words i).handle, (s.owner i).lockedBy⟩

/-- How far the thread is with an operation. -/
def AtomicPlace.phase : AtomicPlace ι → Phase (ι × AtomicOp) AtomicResult
  | .lockLoad i x | .lockTry i x _ => .called (i, x.elim .lock .access)
  | .addref i x _ | .storeUnlock i x _ => .called (i, .access x)
  | .tryLoad i | .tryExchange i _ => .called (i, .tryLock)
  | .unlockLoad i | .unlockStore i _ => .called (i, .unlock)
  | .getLoad i | .getAddref i _ => .called (i, .get)
  | .setLoad i obj | .setExchange i obj _ => .called (i, .set obj)
  | .finish ret _ | .delete ret _ _ => ret.elim .idle fun r => .effected (r.1, r.2.1) r.2.2
  | .idle | .terminated => .idle

section Places

theorem AtomicPlace.phase_start (i : ι) (op : AtomicOp) : (op.start i).phase = .called (i, op) := by
  cases op <;> rfl

theorem AtomicPlace.phase_afterLock (i : ι) (x : Access) (p : Handle) :
    (x.afterLock i p).phase = .called (i, .access x) := by
  cases p with
  | none => rfl
  | some holder =>
      rw [Access.afterLock]
      cases x.keeps (some holder) <;> rfl

/-- What a function does to the cell is what it is to do to the variable. -/
theorem Access.variable_step (a : T) (x : Access) (p : Handle) :
    ObjectVariable.Step ⟨p, none⟩ a (.access x) (x.result p) ⟨x.stored p, none⟩ := by
  cases x with
  | load => exact .load
  | store desired => exact .store
  | exchange desired => exact .exchange
  | compareExchange expected desired =>
      by_cases hp : p = expected
      · subst hp
        simpa [result, stored] using ObjectVariable.Step.compareEqual
      · simpa [result, stored, hp] using ObjectVariable.Step.compareOther hp

end Places

namespace AtomicState

theorem contents_eq {s : AtomicState T ι} {i : ι} {o : CellOwner T} (h : s.owner i = o) :
    s.contents i = ⟨(s.words i).handle, o.lockedBy⟩ := by rw [contents, h]

variable [DecidableEq ι] {a : T} {s s' : AtomicState T ι} {l l' : AtomicThread ι}
  {e : AtomicEvent ι} {i : ι} {op : AtomicOp} {r : AtomicResult}

theorem contents_setOwner (s : AtomicState T ι) (i : ι) (v : Word) (o : CellOwner T) :
    ((s.setWord i v).setOwner i o).contents =
      Function.update s.contents i ⟨v.handle, o.lockedBy⟩ := by
  funext j
  rcases eq_or_ne j i with rfl | hne
  · simp [contents, setWord, setOwner]
  · simp [contents, setWord, setOwner, hne]

theorem contents_setWord (s : AtomicState T ι) (i : ι) (v : Word) :
    (s.setWord i v).contents = Function.update s.contents i ⟨v.handle, (s.owner i).lockedBy⟩ := by
  funext j
  rcases eq_or_ne j i with rfl | hne
  · simp [contents, setWord]
  · simp [contents, setWord, hne]

/-- A history whose effects so far lead to the contents of the cells. -/
def Explained (s : AtomicState T ι) : Prop :=
  Sequential (stepAt ObjectVariable.Step) (fun _ => {}) s.trace s.contents

/-- One more effect explains what the step does to one cell. -/
theorem Explained.effect (hs : s.Explained) {x : ObjectVariable T}
    (hx : ObjectVariable.Step (s.contents i) a op r x)
    (hcontents : s'.contents = Function.update s.contents i x)
    (htrace : s'.trace = s.trace ++ [.effect a (i, op) r]) : s'.Explained := by
  rw [Explained, hcontents, htrace]
  exact Sequential.effect hs ⟨x, hx, rfl⟩

theorem Explained.of_eq (hs : s.Explained) (hcontents : s'.contents = s.contents)
    (htrace : s'.trace = s.trace) : s'.Explained := by
  rw [Explained, hcontents, htrace]
  exact hs

/-- Every step keeps the history explained. -/
theorem explained_localStep (hs : ∀ i, (s.owner i).Fits (s.words i)) (hl : HoldsLocks a s l)
    (hseq : s.Explained) (h : LocalStep a s l e s' l') : s'.Explained := by
  have hknows := hl.knows
  have huser : ∀ i, l.place.user = some i → s.owner i = .user a :=
    fun i hi => (hl.user i).mpr (hl.uses i hi)
  cases h with
  | makeNull | makeHolder | copyNull | copyHolder | drop | lockLoad | lockAgain | terminate
  | addref | tryLoad | unlockLoad | getLoad | setLoad | setAgain | release | releaseLast
  | dropNull | finished | delete => exact hseq
  | call => exact Sequential.call hseq
  | ret => exact Sequential.ret hseq
  | @lockFunction i x v hk hlocked hwaiting hword =>
      subst hword
      -- to the variables a function that holds the lock has not begun
      have hfree := (hs i).free hlocked hwaiting
      have hsame : _ = s.contents i := (contents_eq hfree).symm
      refine hseq.of_eq ?_ rfl
      rw [contents_setOwner]
      exact (congrArg _ hsame).trans (Function.update_eq_self i s.contents)
  | @wait i x v hk _ _ hword =>
      subst hword
      refine hseq.of_eq ?_ rfl
      rw [contents_setWord]
      exact Function.update_eq_self i s.contents
  | @lockUser i v hk hlocked hwaiting hword =>
      subst hword
      refine hseq.effect ?_ (s.contents_setOwner i _ _) rfl
      rw [contents_eq ((hs i).free hlocked hwaiting)]
      exact .lock
  | @tryExchange i v hk hword =>
      rw [hk] at hknows
      subst hword
      refine hseq.effect ?_ (s.contents_setOwner i _ _) rfl
      rw [contents_eq ((hs i).free hknows.1 hknows.2)]
      exact .tryLock
  | @tryFail i v e hk =>
      exact hseq.effect .tryFail (Function.update_eq_self i s.contents).symm rfl
  | @storeUnlock i x p hk =>
      rw [hk] at hknows
      obtain rfl : (s.words i).handle = p := hknows
      have howner : s.owner i = .function a := (hl.function i).mpr (by rw [hk]; rfl)
      refine hseq.effect ?_ (s.contents_setOwner i _ _) rfl
      rw [contents_eq howner]
      exact x.variable_step a _
  | @unlockStore i v hk =>
      rw [hk] at hknows
      obtain rfl := hknows
      refine hseq.effect ?_ (s.contents_setOwner i _ _) rfl
      rw [contents_eq (huser i (by rw [hk]; rfl))]
      exact .unlock
  | @getNull i hk hhandle =>
      refine hseq.effect (x := s.contents i) ?_ (Function.update_eq_self i s.contents).symm rfl
      rw [contents_eq (huser i (by rw [hk]; rfl)), hhandle]
      exact .get
  | @getAddref i h hk =>
      rw [hk] at hknows
      have hhandle : (s.words i).handle = some h := hknows
      refine hseq.effect (x := s.contents i) ?_ (Function.update_eq_self i s.contents).symm rfl
      rw [contents_eq (huser i (by rw [hk]; rfl)), hhandle]
      exact .get
  | @setExchange i obj v hk hword =>
      subst hword
      have howner := huser i (by rw [hk]; rfl)
      refine hseq.effect ?_ (s.contents_setWord i _) rfl
      rw [contents_eq howner, howner]
      exact .set

/-- A step of a thread goes on with its operation, at the events it records. -/
theorem progress_localStep (hl : HoldsLocks a s l) (hprogress : Progress a s.trace l.place.phase)
    (h : LocalStep a s l e s' l') : Progress a s'.trace l'.place.phase := by
  have hknows := hl.knows
  cases h with
  | makeNull | makeHolder | copyNull | copyHolder => exact hprogress
  | call hk =>
      rw [hk] at hprogress
      rw [AtomicPlace.phase_start]
      exact .call hprogress
  | lockFunction hk =>
      rw [hk] at hprogress
      rw [AtomicPlace.phase_afterLock]
      exact hprogress
  | terminate hk hlocked hwaiting =>
      rw [hk] at hknows
      exact absurd ⟨hlocked, hwaiting⟩ hknows
  | drop hk | lockLoad hk | lockAgain hk | wait hk | addref hk | tryLoad hk | unlockLoad hk
  | getLoad hk | setLoad hk | setAgain hk | release hk | releaseLast hk | dropNull hk | finished hk
  | delete hk =>
      rw [hk] at hprogress
      exact hprogress
  | lockUser hk | storeUnlock hk | tryExchange hk | tryFail hk | unlockStore hk | getNull hk
  | getAddref hk | setExchange hk =>
      rw [hk] at hprogress
      exact .effect hprogress
  | ret hk =>
      rw [hk] at hprogress
      exact .ret hprogress

/-- The events of a step are its thread's. -/
theorem trace_localStep (h : LocalStep a s l e s' l') :
    s'.trace = s.trace ∨ ∃ e, Event.thread e = a ∧ s'.trace = s.trace ++ [e] := by
  cases h with
  | call | lockUser | storeUnlock | tryExchange | tryFail | unlockStore | getNull | getAddref
  | setExchange | ret => exact .inr ⟨_, rfl, rfl⟩
  | _ => exact .inl rfl

end AtomicState

variable [DecidableEq T] [DecidableEq ι]

theorem atomic_explained {c : Atomic T ι} (h : (atomicSystem T ι).Reachable c) :
    c.shared.Explained ∧ ∀ a, Progress a c.shared.trace (c.pc a).place.phase := by
  refine h.restrict_true.interleave_invariant (C := fun _ _ => True)
    (G := AtomicState.Explained) (L := fun a s l => Progress a s.trace l.place.phase) ?_ ?_
  · rintro c rfl
    exact ⟨.nil, fun a => .nil⟩
  · intro c a e s l hc hseq hprogress _ hact
    obtain ⟨hs, hl⟩ := atomic_locks hc.of_restrict
    have hstep := AtomicState.localStep_of_act hact
    refine ⟨AtomicState.explained_localStep hs (hl a) hseq hstep,
      AtomicState.progress_localStep (hl a) (hprogress a) hstep, fun b hne => ?_⟩
    rcases AtomicState.trace_localStep hstep with htrace | ⟨e', rfl, htrace⟩ <;> rw [htrace]
    · exact hprogress b
    · exact .other hne.symm (hprogress b)

/-- At every point of every interleaving: a cell is not locked and waited for at once, and one
thread at most has locked it. The effects of the operations, each between its call and its
return, are a sequential history of plain variables, which to every thread gives what the
operations have returned. Every count is the number of objects and cells that designate the
holder; these are there, and the others are gone, or about to be deleted. -/
theorem atomic_linearizable [Fintype T] [Fintype ι] {c : Atomic T ι}
    (h : (atomicSystem T ι).Reachable c) :
    (∀ i, ¬((c.shared.words i).locked = true ∧ (c.shared.words i).waiting = true)) ∧
    (∀ i a b, (c.pc a).HasLocked i → (c.pc b).HasLocked i → a = b) ∧
    Sequential (stepAt ObjectVariable.Step) (fun _ => {}) c.shared.trace c.shared.contents ∧
    (∀ a, Progress a c.shared.trace (c.pc a).place.phase ∧
      effects a c.shared.trace = returns a c.shared.trace ++ (c.pc a).place.phase.pending) ∧
    (∀ holder, c.shared.counts holder = c.designations holder) ∧
    (∀ holder, 0 < c.designations holder → c.shared.alive holder = true) ∧
    (∀ holder, c.shared.alive holder = true →
      0 < c.designations holder ∨ ∃ a, (c.pc a).place.deleting = some holder) := by
  obtain ⟨hs, hl⟩ := atomic_locks h
  obtain ⟨hseq, hprogress⟩ := atomic_explained h
  have hc := Atomic.counted h
  refine ⟨fun i => (hs i).not_both, fun i a b ha hb => ((hl a).has ha).unique ((hl b).has hb),
    hseq, fun a => ⟨hprogress a, (hprogress a).effects_eq⟩, hc.balance, fun holder hpos => ?_,
    fun holder halive => ?_⟩
  · by_contra halive
    have hzero := hc.dead holder (Bool.eq_false_of_not_eq_true halive)
    have hbalance := hc.balance holder
    omega
  · rcases Nat.eq_zero_or_pos (c.designations holder) with hzero | hpos
    · exact .inr (hc.deleted holder halive ((hc.balance holder).trans (by rw [hzero]; rfl)))
    · exact .inl hpos

/-- Thread 1 loads while thread 0 stores, and waits for it. -/
def contention (a b : T) (i : ι) : List (T × AtomicEvent ι) :=
  [(a, .make (some 7)), (a, .call i (.access (.store (some 7)))), (a, .run), (a, .run),
    (b, .call i (.access .load)), (b, .run), (b, .run), (a, .run), (a, .run), (a, .run),
    (b, .run), (b, .run), (b, .run), (b, .run), (b, .run)]

theorem atomic_linearizable_contention : ∃ c : Atomic (Fin 2) (Fin 1),
    Sequential (stepAt ObjectVariable.Step) (fun _ => {}) c.shared.trace c.shared.contents ∧
      effects 1 c.shared.trace = [((0, .access .load), .handle (some 7))] ∧
        c.designations 7 = 2 := by
  obtain ⟨c, hc, hp⟩ := TransitionSystem.exists_reachable_of_exec
    (· = Atomic.initial (Fin 2) (Fin 1)) (Config.step AtomicState.act) (contention 0 1 0)
    (fun c => decide (returns 1 c.shared.trace = [((0, .access .load), .handle (some 7))] ∧
      (c.pc 1).place = .idle ∧ c.shared.counts 7 = 2)) rfl (by decide +kernel)
  obtain ⟨hreturns, hidle, hcount⟩ := of_decide_eq_true hp
  obtain ⟨-, -, hseq, hprogress, hcounts, -, -⟩ := atomic_linearizable hc
  refine ⟨c, hseq, ?_, by exact_mod_cast (hcounts 7).symm.trans hcount⟩
  rw [(hprogress 1).2, hreturns, hidle]
  rfl

end Minapp
