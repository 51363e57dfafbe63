import Minapp.Verification.Atomic.Steps

/-! # The lock of a cell

One function, or one caller of `lock` or `try_lock`, has it, as the two bits say. Only who has
it changes the handle, so that what a thread has read under the lock stays true. -/

namespace Minapp

variable {T ι : Type*}

namespace AtomicPlace

/-- The cell that the function a thread is in has locked. -/
def function : AtomicPlace ι → Option ι
  | .addref i _ _ | .storeUnlock i _ _ => some i
  | _ => none

/-- The cell that the thread must have locked by `lock` or `try_lock`. -/
def user : AtomicPlace ι → Option ι
  | .unlockLoad i | .unlockStore i _ | .getLoad i | .getAddref i _ | .setLoad i _
  | .setExchange i _ _ => some i
  | _ => none

/-- What a thread knows of the words it has read. -/
def knows (words : ι → Word) : AtomicPlace ι → Prop
  | .lockTry _ _ v => ¬(v.locked = true ∧ v.waiting = true)
  | .addref i x holder => (words i).handle = some holder ∧ x.keeps (some holder) = true
  | .storeUnlock i _ p => (words i).handle = p
  | .tryExchange _ v => v.locked = false ∧ v.waiting = false
  | .unlockStore i v => v = (words i).unmasked
  | .getAddref i holder => (words i).handle = some holder
  | .terminated => False
  | _ => True

/-- It is about handles in cells that the thread has locked. -/
theorem knows_of_handle_eq {words words' : ι → Word} {k : AtomicPlace ι} (h : k.knows words)
    (hwords : ∀ i, k.function = some i ∨ k.user = some i → (words' i).handle = (words i).handle) :
    k.knows words' := by
  cases k with
  | addref i x holder => exact ⟨(hwords i (.inl rfl)).trans h.1, h.2⟩
  | storeUnlock i x p => exact (hwords i (.inl rfl)).trans h
  | getAddref i holder => exact (hwords i (.inr rfl)).trans h
  | unlockStore i v =>
      have hv : v = (words i).unmasked := h
      rw [hv, Word.unmasked, ← hwords i (.inr rfl)]
      rfl
  | _ => exact h

theorem user_start {i j : ι} {op : AtomicOp} (h : (op.start i).user = some j) :
    op.needsLock = true ∧ j = i := by
  cases op <;> simp_all [AtomicOp.start, AtomicPlace.user, AtomicOp.needsLock]

theorem knows_start (words : ι → Word) (i : ι) (op : AtomicOp) : (op.start i).knows words := by
  cases op <;> trivial

theorem function_start (i : ι) (op : AtomicOp) : (op.start i).function = none := by
  cases op <;> rfl

theorem function_afterLock (i : ι) (x : Access) (p : Handle) :
    (x.afterLock i p).function = some i ∧ (x.afterLock i p).user = none := by
  cases p with
  | none => exact ⟨rfl, rfl⟩
  | some holder =>
      rw [Access.afterLock]
      cases x.keeps (some holder) <;> exact ⟨rfl, rfl⟩

theorem knows_afterLock {words : ι → Word} {i : ι} {p : Handle} (x : Access)
    (h : (words i).handle = p) : (x.afterLock i p).knows words := by
  cases p with
  | none => exact h
  | some holder =>
      rw [Access.afterLock]
      cases hx : x.keeps (some holder) with
      | false => exact h
      | true => exact ⟨h, hx⟩

end AtomicPlace

namespace CellOwner

/-- Thread `a` has the lock. -/
def Has (o : CellOwner T) (a : T) : Prop := o = .function a ∨ o = .user a

/-- The bits say whether a cell is locked; waiting stands for locked too. -/
def Fits (v : Word) : CellOwner T → Prop
  | .free => v.locked = false ∧ v.waiting = false
  | .function _ | .user _ => v.locked ≠ v.waiting

theorem Has.unique {o : CellOwner T} {a b : T} (ha : o.Has a) (hb : o.Has b) : a = b := by
  rcases ha with rfl | rfl <;> rcases hb with h | h <;> cases h <;> rfl

theorem Fits.not_both {v : Word} {o : CellOwner T} (h : o.Fits v) :
    ¬(v.locked = true ∧ v.waiting = true) := by
  rintro ⟨hlocked, hwaiting⟩
  cases o with
  | free => exact absurd (hlocked.symm.trans h.1) (by decide)
  | function | user => exact h (hlocked.trans hwaiting.symm)

theorem Fits.free {v : Word} {o : CellOwner T} (h : o.Fits v) (hlocked : v.locked = false)
    (hwaiting : v.waiting = false) : o = .free := by
  cases o with
  | free => rfl
  | function | user => exact absurd (hlocked.trans hwaiting.symm) h

end CellOwner

/-- What a step of thread `a` can make of a cell. -/
inductive CellStep (a : T) (v : Word) (o : CellOwner T) : Word → CellOwner T → Prop
  | same : CellStep a v o v o
  | wait : v.locked = true → CellStep a v o { v.unmasked with waiting := true } o
  | lock {o'} : o = .free → o'.Has a → CellStep a v o { v with locked := true } o'
  | unlock {p} : o.Has a → CellStep a v o { handle := p } .free
  | set {p} : o = .user a → CellStep a v o { v with handle := p } o

namespace CellStep

variable {a b : T} {v v' : Word} {o o' : CellOwner T}

theorem fits (h : CellStep a v o v' o') (hv : o.Fits v) : o'.Fits v' := by
  cases h with
  | same => exact hv
  | wait hlocked =>
      cases o with
      | free => exact absurd (hlocked.symm.trans hv.1) (by decide)
      | function | user => exact Bool.false_ne_true
  | lock ho ho' =>
      subst ho
      rcases ho' with rfl | rfl <;> simp [CellOwner.Fits, hv.2]
  | unlock => exact ⟨rfl, rfl⟩
  | set ho =>
      subst ho
      exact hv

/-- The step of a thread neither gives another one the lock nor takes it from it. -/
theorem owner_iff (h : CellStep a v o v' o') (hne : b ≠ a) :
    (o' = .function b ↔ o = .function b) ∧ (o' = .user b ↔ o = .user b) := by
  cases h with
  | same | wait | set => exact ⟨.rfl, .rfl⟩
  | lock ho ho' =>
      subst ho
      rcases ho' with rfl | rfl <;> simp [hne.symm]
  | unlock ho => rcases ho with rfl | rfl <;> simp [hne.symm]

/-- It leaves the handle of a cell that another one has locked; a waiter writes it back. -/
theorem handle_eq (h : CellStep a v o v' o') (hne : b ≠ a) (ho : o.Has b) :
    v'.handle = v.handle := by
  cases h with
  | same | wait | lock => rfl
  | unlock ho' => exact absurd (ho.unique ho') hne
  | set ho' => exact absurd (ho.unique (.inr ho')) hne

end CellStep

/-- The thread is between the access that locks the cell and its `store_and_unlock`. -/
def AtomicThread.HasLocked (l : AtomicThread ι) (i : ι) : Prop :=
  l.place.function = some i ∨ i ∈ l.locks

/-- Thread `a` has locked the cells that its place and its variables say. -/
structure HoldsLocks (a : T) (s : AtomicState T ι) (l : AtomicThread ι) : Prop where
  function : ∀ i, s.owner i = .function a ↔ l.place.function = some i
  user : ∀ i, s.owner i = .user a ↔ i ∈ l.locks
  nodup : l.locks.Nodup
  uses : ∀ i, l.place.user = some i → i ∈ l.locks
  knows : l.place.knows s.words

namespace HoldsLocks

variable {a b : T} {s s' : AtomicState T ι} {l l' : AtomicThread ι} {i : ι}

theorem has (h : HoldsLocks a s l) (hi : l.HasLocked i) : (s.owner i).Has a :=
  hi.imp (h.function i).mpr (h.user i).mpr

/-- The step of another thread keeps it. -/
theorem of_cellStep (h : HoldsLocks b s l) (hne : b ≠ a)
    (hcell : ∀ i, CellStep a (s.words i) (s.owner i) (s'.words i) (s'.owner i)) :
    HoldsLocks b s' l where
  function i := ((hcell i).owner_iff hne).1.trans (h.function i)
  user i := ((hcell i).owner_iff hne).2.trans (h.user i)
  nodup := h.nodup
  uses := h.uses
  knows := AtomicPlace.knows_of_handle_eq h.knows fun i hi => 
    (hcell i).handle_eq hne (h.has (hi.imp_right (h.uses i)))

/-- So does a step of its own that leaves the locks alone. -/
theorem of_place (h : HoldsLocks a s l) (howner : s'.owner = s.owner) (hlocks : l'.locks = l.locks)
    (hfunction : l'.place.function = l.place.function)
    (huses : ∀ i, l'.place.user = some i → i ∈ l.locks) (hknows : l'.place.knows s'.words) :
    HoldsLocks a s' l' where
  function i := by rw [howner, hfunction]; exact h.function i
  user i := by rw [howner, hlocks]; exact h.user i
  nodup := by rw [hlocks]; exact h.nodup
  uses i hi := by rw [hlocks]; exact huses i hi
  knows := hknows

/-- A cell that is free is locked by no call of `lock` or `try_lock`. -/
theorem notMem_of_free (h : HoldsLocks a s l) (hi : s.owner i = .free) : i ∉ l.locks :=
  fun hmem => absurd ((h.user i).mpr hmem) (by simp [hi])

variable [DecidableEq ι]

/-- A step that is about one cell is to keep it for that cell. -/
theorem of_update {o : CellOwner T} (h : HoldsLocks a s l)
    (howner : s'.owner = Function.update s.owner i o)
    (hfunction : ∀ j, j ≠ i → (l'.place.function = some j ↔ l.place.function = some j))
    (huser : ∀ j, j ≠ i → (j ∈ l'.locks ↔ j ∈ l.locks))
    (hi : o = .function a ↔ l'.place.function = some i) (hi' : o = .user a ↔ i ∈ l'.locks)
    (hnodup : l'.locks.Nodup) (huses : l'.place.user = none) (hknows : l'.place.knows s'.words) :
    HoldsLocks a s' l' where
  function j := by
    rw [howner]
    rcases eq_or_ne j i with rfl | hne
    · rw [Function.update_self, hi]
    · rw [Function.update_of_ne hne, h.function j, hfunction j hne]
  user j := by
    rw [howner]
    rcases eq_or_ne j i with rfl | hne
    · rw [Function.update_self, hi']
    · rw [Function.update_of_ne hne, h.user j, huser j hne]
  nodup := hnodup
  uses j hj := absurd (huses.symm.trans hj) (by simp)
  knows := hknows

/-- A function locks a free cell. -/
theorem lockFunction (h : HoldsLocks a s l) (hi : s.owner i = .free)
    (howner : s'.owner = Function.update s.owner i (.function a)) (hlocks : l'.locks = l.locks)
    (hoff : l.place.function = none) (hon : l'.place.function = some i)
    (huser : l'.place.user = none) (hknows : l'.place.knows s'.words) : HoldsLocks a s' l' := by
  refine h.of_update howner (fun j hne => ?_) (fun j _ => by rw [hlocks]) ?_ ?_ ?_ huser hknows
  · simp [hoff, hon, hne.symm]
  · simp [hon]
  · simp [hlocks, h.notMem_of_free hi]
  · rw [hlocks]
    exact h.nodup

/-- `lock` or `try_lock` locks a free cell. -/
theorem lockUser (h : HoldsLocks a s l) (hi : s.owner i = .free)
    (howner : s'.owner = Function.update s.owner i (.user a)) (hlocks : l'.locks = i :: l.locks)
    (hoff : l.place.function = none) (hoff' : l'.place.function = none)
    (huser : l'.place.user = none) (hknows : l'.place.knows s'.words) : HoldsLocks a s' l' := by
  refine h.of_update howner (fun j _ => by rw [hoff, hoff']) (fun j hne => ?_) ?_ ?_ ?_ huser hknows
  · simp [hlocks, hne]
  · simp [hoff']
  · simp [hlocks]
  · rw [hlocks]
    exact List.nodup_cons.mpr ⟨h.notMem_of_free hi, h.nodup⟩

/-- `store_and_unlock` at the end of a function. -/
theorem unlockFunction (h : HoldsLocks a s l)
    (howner : s'.owner = Function.update s.owner i .free) (hlocks : l'.locks = l.locks)
    (hon : l.place.function = some i) (hoff : l'.place.function = none)
    (huser : l'.place.user = none) (hknows : l'.place.knows s'.words) : HoldsLocks a s' l' := by
  have hnot : i ∉ l.locks := by
    rw [← h.user i, (h.function i).mpr hon]
    exact nofun
  refine h.of_update howner (fun j hne => ?_) (fun j _ => by rw [hlocks]) ?_ ?_ ?_ huser hknows
  · simp [hon, hoff, hne.symm]
  · simp [hoff]
  · simp [hlocks, hnot]
  · rw [hlocks]
    exact h.nodup

/-- `store_and_unlock` in `unlock`. -/
theorem unlockUser (h : HoldsLocks a s l)
    (howner : s'.owner = Function.update s.owner i .free) (hlocks : l'.locks = l.locks.erase i)
    (hoff : l.place.function = none) (hoff' : l'.place.function = none)
    (huser : l'.place.user = none) (hknows : l'.place.knows s'.words) : HoldsLocks a s' l' := by
  refine h.of_update howner (fun j _ => by rw [hoff, hoff']) (fun j hne => ?_) ?_ ?_ ?_ huser hknows
  · simp [hlocks, h.nodup.mem_erase_iff, hne]
  · simp [hoff']
  · simp [hlocks, h.nodup.mem_erase_iff]
  · rw [hlocks]
    exact h.nodup.erase i

end HoldsLocks

namespace AtomicState

variable [DecidableEq ι] {a : T} {s s' : AtomicState T ι} {l l' : AtomicThread ι}
  {e : AtomicEvent ι}

theorem cellStep_update {i : ι} {v : Word} {o : CellOwner T}
    (h : CellStep a (s.words i) (s.owner i) v o) (j : ι) :
    CellStep a (s.words j) (s.owner j) (Function.update s.words i v j)
      (Function.update s.owner i o j) := by
  rcases eq_or_ne j i with rfl | hne
  · rw [Function.update_self, Function.update_self]
    exact h
  · rw [Function.update_of_ne hne, Function.update_of_ne hne]
    exact .same

theorem cellStep_setWord {i : ι} {v : Word} (h : CellStep a (s.words i) (s.owner i) v (s.owner i))
    (j : ι) : CellStep a (s.words j) (s.owner j) ((s.setWord i v).words j) (s.owner j) := by
  have hj := cellStep_update h j
  rwa [Function.update_eq_self] at hj

/-- What a step makes of every cell. -/
theorem cellStep_localStep (hs : ∀ i, (s.owner i).Fits (s.words i)) (hl : HoldsLocks a s l)
    (h : LocalStep a s l e s' l') (i : ι) :
    CellStep a (s.words i) (s.owner i) (s'.words i) (s'.owner i) := by
  cases h with
  | lockFunction hk hlocked hwaiting hword =>
      subst hword
      exact cellStep_update (.lock ((hs _).free hlocked hwaiting) (.inl rfl)) i
  | lockUser hk hlocked hwaiting hword =>
      subst hword
      exact cellStep_update (.lock ((hs _).free hlocked hwaiting) (.inr rfl)) i
  | wait hk hlocked _ hword =>
      subst hword
      exact cellStep_setWord (.wait hlocked) i
  | storeUnlock hk => exact cellStep_update (.unlock (hl.has (.inl (by rw [hk]; rfl)))) i
  | tryExchange hk hword =>
      have hv := hl.knows
      rw [hk] at hv
      subst hword
      exact cellStep_update (.lock ((hs _).free hv.1 hv.2) (.inr rfl)) i
  | unlockStore hk =>
      have hv := hl.knows
      rw [hk] at hv
      obtain rfl := hv
      exact cellStep_update (.unlock (hl.has (.inr (hl.uses _ (by rw [hk]; rfl))))) i
  | setExchange hk hword =>
      subst hword
      exact cellStep_setWord (.set ((hl.user _).mpr (hl.uses _ (by rw [hk]; rfl)))) i
  | _ => exact .same

theorem holdsLocks_localStep (hs : ∀ i, (s.owner i).Fits (s.words i)) (hl : HoldsLocks a s l)
    (h : LocalStep a s l e s' l') : HoldsLocks a s' l' := by
  have hknows := hl.knows
  cases h with
  | makeNull | makeHolder | copyNull | copyHolder => exact hl.of_place rfl rfl rfl hl.uses hl.knows
  | @call i op vars hk hlock =>
      refine hl.of_place rfl rfl ?_ (fun j hj => ?_) (AtomicPlace.knows_start _ i op)
      · rw [hk]
        exact AtomicPlace.function_start i op
      · obtain ⟨hop, rfl⟩ := AtomicPlace.user_start hj
        exact hlock hop
  | lockLoad hk | lockAgain hk =>
      exact hl.of_place rfl rfl (by rw [hk]; rfl) nofun (hs _).not_both
  | @lockFunction i x v hk hlocked hwaiting hword =>
      subst hword
      obtain ⟨hon, huser⟩ := AtomicPlace.function_afterLock i x (s.words i).handle
      exact hl.lockFunction ((hs _).free hlocked hwaiting) rfl rfl (by rw [hk]; rfl) hon huser
        (AtomicPlace.knows_afterLock x (by simp [setWord, setOwner]))
  | lockUser hk hlocked hwaiting hword =>
      subst hword
      exact hl.lockUser ((hs _).free hlocked hwaiting) rfl rfl (by rw [hk]; rfl) rfl rfl trivial
  | wait hk => exact hl.of_place rfl rfl (by rw [hk]; rfl) nofun trivial
  | terminate hk hlocked hwaiting =>
      -- no word that was read has both bits
      rw [hk] at hknows
      exact absurd ⟨hlocked, hwaiting⟩ hknows
  | addref hk =>
      rw [hk] at hknows
      exact hl.of_place rfl rfl (by rw [hk]; rfl) nofun hknows.1
  | storeUnlock hk => exact hl.unlockFunction rfl rfl (by rw [hk]; rfl) rfl rfl trivial
  | tryLoad hk => exact hl.of_place rfl rfl (by rw [hk]; rfl) nofun ⟨rfl, rfl⟩
  | tryExchange hk hword =>
      rw [hk] at hknows
      subst hword
      exact hl.lockUser ((hs _).free hknows.1 hknows.2) rfl rfl (by rw [hk]; rfl) rfl rfl trivial
  | unlockLoad hk | getLoad hk | setLoad hk | setAgain hk =>
      refine hl.of_place rfl rfl (by rw [hk]; rfl) (fun j hj => ?_) ?_
      · exact hl.uses j (by rw [hk]; exact hj)
      · first | assumption | trivial
  | unlockStore hk =>
      exact hl.unlockUser rfl rfl (by rw [hk]; rfl) rfl rfl trivial
  | drop hk | tryFail hk | getNull hk | getAddref hk | setExchange hk | release hk
  | releaseLast hk | dropNull hk | ret hk | finished hk | delete hk =>
      exact hl.of_place rfl rfl (by rw [hk]; rfl) nofun trivial

end AtomicState

section Reachable

variable [DecidableEq T] [DecidableEq ι] {c : Atomic T ι}

/-- In every reachable state the bits fit the owners, and every thread has locked what its
place and its variables say. -/
theorem atomic_locks (h : (atomicSystem T ι).Reachable c) :
    (∀ i, (c.shared.owner i).Fits (c.shared.words i)) ∧
      ∀ a, HoldsLocks a c.shared (c.pc a) := by
  refine h.restrict_true.interleave_invariant (C := fun _ _ => True)
    (G := fun s => ∀ i, (s.owner i).Fits (s.words i)) ?_ ?_
  · rintro c rfl
    refine ⟨fun i => ⟨rfl, rfl⟩, fun a => ⟨?_, ?_, List.nodup_nil, nofun, trivial⟩⟩
    · simp [Atomic.initial, AtomicPlace.function]
    · simp [Atomic.initial]
  · intro c a e s l _ hs hl _ hact
    have hstep := AtomicState.localStep_of_act hact
    have hcell := AtomicState.cellStep_localStep hs (hl a) hstep
    exact ⟨fun i => (hcell i).fits (hs i), AtomicState.holdsLocks_localStep hs (hl a) hstep,
      fun b hne => (hl b).of_cellStep hne hcell⟩

end Reachable

end Minapp
