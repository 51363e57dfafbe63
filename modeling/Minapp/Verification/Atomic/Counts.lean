import Minapp.Verification.Atomic.Lock
import Minapp.Library.References

/-! # The reference counts

Every count is the number of the objects and cells that designate the holder. What a function
has loaded under the lock designates nothing of its own: the reference is the cell's, until it
is counted again by `addref` or something else is stored. -/

namespace Minapp

variable {T ι : Type*}

/-- The objects of a function: its arguments, what it has counted, and what it destroys. -/
def AtomicPlace.held : AtomicPlace ι → List Handle
  | .lockLoad _ x | .lockTry _ x _ => x.elim [] Access.args
  | .addref _ x _ => x.args
  | .storeUnlock _ x p => x.args ++ if x.keeps p then [p] else []
  | .setLoad _ obj | .setExchange _ obj _ => [obj]
  | .finish _ drops | .delete _ drops _ => drops
  | _ => []

def AtomicThread.held (l : AtomicThread ι) : List Handle := l.vars ++ l.place.held

/-- The cell, as an owner of references. -/
def Word.held (v : Word) : List Handle := [v.handle]

/-- How many objects and cells designate a holder. -/
def Atomic.designations [Fintype T] [Fintype ι] (c : Atomic T ι) (holder : ℕ) : ℕ :=
  references (fun a => (c.pc a).held) (some holder) +
    references (fun i => (c.shared.words i).held) (some holder)

/-- The holder that a thread is about to delete. -/
def AtomicPlace.deleting : AtomicPlace ι → Option ℕ
  | .delete _ _ holder => some holder
  | _ => none

section Balance

/-- What a function has got, what it has stored and what it drops add up. -/
theorem Access.balance (x : Access) (p q : Handle) :
    (x.args ++ if x.keeps p then [p] else []).count q + [p].count q =
      (x.left p).count q + (x.drops p).count q + [x.stored p].count q := by
  cases x with
  | load => simp [args, keeps, left, drops, stored]
  | store desired | exchange desired =>
      simp [args, keeps, left, drops, stored]
      omega
  | compareExchange expected desired =>
      by_cases hp : p = expected
      · simp [args, keeps, left, drops, stored, hp, List.count_cons]
        omega
      · simp [args, keeps, left, drops, stored, hp, List.count_cons]
        omega

theorem count_takeArgs {vars args vars' : List Handle} (h : takeArgs vars args = some vars')
    (p : Handle) : vars.count p = vars'.count p + args.count p := by
  induction args generalizing vars with
  | nil =>
      obtain rfl := Option.some.inj h
      rfl
  | cons q args ih =>
      rw [takeArgs] at h
      split at h
      · rename_i hmem
        rw [(List.perm_cons_erase hmem).count_eq p, List.count_cons, List.count_cons, ih h]
        omega
      · exact absurd h (by simp)

theorem AtomicPlace.held_start (i : ι) (op : AtomicOp) : (op.start i).held = op.args := by
  cases op <;> rfl

theorem AtomicPlace.count_held_afterLock (i : ι) (x : Access) (p : Handle) (holder : ℕ) :
    (x.afterLock i p).held.count (some holder) = x.args.count (some holder) := by
  cases p with
  | none =>
      cases hx : x.keeps none <;> simp [Access.afterLock, AtomicPlace.held, hx]
  | some holder =>
      rw [Access.afterLock]
      cases hx : x.keeps (some holder) <;> simp [AtomicPlace.held, hx]

theorem AtomicPlace.deleting_start (i : ι) (op : AtomicOp) : (op.start i).deleting = none := by
  cases op <;> rfl

theorem AtomicPlace.deleting_afterLock (i : ι) (x : Access) (p : Handle) :
    (x.afterLock i p).deleting = none := by
  cases p with
  | none => rfl
  | some holder =>
      rw [Access.afterLock]
      cases x.keeps (some holder) <;> rfl

end Balance

namespace AtomicState

theorem addCount_self (s : AtomicState T ι) (holder : ℕ) (c : ℤ) :
    (s.addCount holder c).counts holder = s.counts holder + c := Function.update_self ..

theorem addCount_of_ne (s : AtomicState T ι) {holder h : ℕ} (hne : h ≠ holder) (c : ℤ) :
    (s.addCount holder c).counts h = s.counts h := Function.update_of_ne hne ..

/-- A count changes by what is added for every reference. -/
theorem addCount_counts (s : AtomicState T ι) (h holder : ℕ) (c : ℤ) :
    (s.addCount h c).counts holder = s.counts holder + c * [some h].count (some holder) := by
  rcases eq_or_ne holder h with rfl | hne
  · rw [addCount_self]
    simp
  · rw [addCount_of_ne s hne]
    simp [hne.symm]

/-- The references of the cells. -/
def cells [Fintype ι] (s : AtomicState T ι) (holder : ℕ) : ℕ :=
  references (fun i => (s.words i).held) (some holder)

variable {a : T} {s s' : AtomicState T ι} {l l' : AtomicThread ι} {e : AtomicEvent ι}

theorem balance_of_eq [Fintype ι] {holder : ℕ} (hcounts : s'.counts holder = s.counts holder)
    (hheld : l'.held.count (some holder) = l.held.count (some holder))
    (hcells : s'.cells holder = s.cells holder) :
    s'.counts holder + (l.held.count (some holder) + s.cells holder : ℕ) =
      s.counts holder + (l'.held.count (some holder) + s'.cells holder : ℕ) := by
  rw [hcounts, hheld, hcells]

variable [DecidableEq ι]

section Cells

variable [Fintype ι]

theorem cells_update (s : AtomicState T ι) (i : ι) (v : Word) (holder : ℕ) :
    references (fun j => (Function.update s.words i v j).held) (some holder) +
        [(s.words i).handle].count (some holder) =
      s.cells holder + [v.handle].count (some holder) :=
  references_update s.words Word.held i v (some holder)

/-- The bits of a cell are no references. -/
theorem cells_relock (s : AtomicState T ι) (i : ι) (locked waiting : Bool) (holder : ℕ) :
    (s.setWord i { s.words i with locked, waiting }).cells holder = s.cells holder := by
  have hupdate := s.cells_update i { s.words i with locked, waiting } holder
  simp only [cells, setWord] at hupdate ⊢
  omega

end Cells

/-- What a step counts is what the thread and the cells get or lose. -/
theorem balance_localStep [Fintype ι] (hdead : ∀ h, s.alive h = false → s.counts h = 0)
    (hl : HoldsLocks a s l) (h : LocalStep a s l e s' l') (holder : ℕ) :
    s'.counts holder + (l.held.count (some holder) + s.cells holder : ℕ) =
      s.counts holder + (l'.held.count (some holder) + s'.cells holder : ℕ) := by
  have hknows := hl.knows
  cases h with
  | makeNull hk | copyNull hk | lockLoad hk | lockAgain hk | tryLoad hk | tryFail hk
  | unlockLoad hk | getLoad hk | getNull hk | setLoad hk | setAgain hk | dropNull hk | ret hk
  | finished hk | delete hk =>
      exact balance_of_eq rfl (by simp [AtomicThread.held, hk, AtomicPlace.held]) rfl
  | @makeHolder h hk halive =>
      rcases eq_or_ne holder h with rfl | hne
      · -- nothing refers to an address that is not taken
        simp [AtomicThread.held, hk, AtomicPlace.held, cells, hdead holder halive]
        omega
      · exact balance_of_eq (Function.update_of_ne hne ..)
          (by simp [AtomicThread.held, hk, AtomicPlace.held, hne.symm]) rfl
  | @copyHolder h hk _ =>
      have hcount := s.addCount_counts h holder 1
      have hcells : (s.addCount h 1).cells holder = s.cells holder := rfl
      simp only [AtomicThread.held, List.count_append] at hcount hcells ⊢
      omega
  | @drop p hk hmem =>
      have hcount := (List.perm_cons_erase hmem).count_eq (some holder)
      simp only [AtomicThread.held, hk, AtomicPlace.held, List.count_append, List.count_cons,
        List.count_nil] at hcount ⊢
      omega
  | @call i op vars hk _ hvars =>
      have hcount := count_takeArgs hvars (some holder)
      have hstart := AtomicPlace.held_start i op
      refine balance_of_eq rfl ?_ rfl
      simp only [AtomicThread.held, hk, hstart, hcount, List.count_append]
      rfl
  | @lockFunction i x _ hk _ _ hword =>
      -- the function has the handle, and the reference is still the cell's
      subst hword
      have hheld := AtomicPlace.count_held_afterLock i x (s.words i).handle holder
      refine balance_of_eq rfl ?_ (s.cells_relock i true _ holder)
      simp only [AtomicThread.held, hk, hheld, List.count_append]
      rfl
  | lockUser hk _ _ hword | tryExchange hk hword =>
      subst hword
      exact balance_of_eq rfl (by simp [AtomicThread.held, hk, AtomicPlace.held])
        (s.cells_relock _ true _ holder)
  | wait hk _ _ hword =>
      subst hword
      exact balance_of_eq rfl (by simp [AtomicThread.held, hk, AtomicPlace.held])
        (s.cells_relock _ false true holder)
  | terminate hk hlocked hwaiting =>
      rw [hk] at hknows
      exact absurd ⟨hlocked, hwaiting⟩ hknows
  | @addref i x h hk =>
      rw [hk] at hknows
      have hcount := s.addCount_counts h holder 1
      have hcells : (s.addCount h 1).cells holder = s.cells holder := rfl
      simp only [AtomicThread.held, hk, AtomicPlace.held, hknows.2, if_true, List.count_append]
      omega
  | @storeUnlock i x p hk =>
      -- the reference that was the cell's is taken over by the function
      rw [hk] at hknows
      obtain rfl : (s.words i).handle = p := hknows
      have hbalance := x.balance (s.words i).handle (some holder)
      have hcells := s.cells_update i { handle := x.stored (s.words i).handle } holder
      simp only [AtomicThread.held, hk, AtomicPlace.held, List.count_append, cells, setOwner,
        setWord, record] at hbalance hcells ⊢
      omega
  | unlockStore hk =>
      rw [hk] at hknows
      obtain rfl := hknows
      exact balance_of_eq rfl (by simp [AtomicThread.held, hk, AtomicPlace.held])
        (s.cells_relock _ false false holder)
  | @getAddref i h hk =>
      have hcount : _ = _ := s.addCount_counts h holder 1
      have hcells : (s.addCount h 1).cells holder = s.cells holder := rfl
      simp only [AtomicThread.held, hk, AtomicPlace.held, List.count_append, List.count_nil]
      simp only [cells, record] at hcells hcount ⊢
      omega
  | @setExchange i obj _ hk hword =>
      subst hword
      have hcells := s.cells_update i { s.words i with handle := obj } holder
      simp only [AtomicThread.held, hk, AtomicPlace.held, List.count_append, List.count_nil, cells,
        setWord, record] at hcells ⊢
      omega
  | @release ret h drops hk _ | @releaseLast ret h drops hk _ =>
      have hcount := s.addCount_counts h holder (-1)
      have hcells : (s.addCount h (-1)).cells holder = s.cells holder := rfl
      simp only [AtomicThread.held, hk, AtomicPlace.held, List.count_append, List.count_cons,
        List.count_nil, cells] at hcount hcells ⊢
      omega

/-- What a step can do to a holder. -/
inductive HolderStep (a : T) (s : AtomicState T ι) (l : AtomicThread ι) (s' : AtomicState T ι)
    (l' : AtomicThread ι) (h : ℕ) : Prop
  | same : s'.counts h = s.counts h → s'.alive h = s.alive h →
      s'.releasedBy h = s.releasedBy h → l.place.deleting ≠ some h →
      l'.place.deleting ≠ some h → HolderStep a s l s' l' h
  | make : s.alive h = false → s'.counts h = 1 → s'.alive h = true →
      l'.place.deleting ≠ some h → HolderStep a s l s' l' h
  /-- Who counts a reference knows the holder from an object or from a cell. -/
  | acquire : (some h ∈ l.held ∨ ∃ i, some h ∈ (s.words i).held) →
      s'.counts h = s.counts h + 1 → s'.alive h = s.alive h →
      l'.place.deleting ≠ some h → HolderStep a s l s' l' h
  | release : some h ∈ l.held → s'.counts h ≠ 0 → s'.alive h = s.alive h →
      l'.place.deleting ≠ some h → HolderStep a s l s' l' h
  | releaseLast : some h ∈ l.held → s'.counts h = 0 → s'.alive h = s.alive h →
      s'.releasedBy h = some a → l'.place.deleting = some h → HolderStep a s l s' l' h
  | delete : s'.counts h = s.counts h → s'.alive h = false → l.place.deleting = some h →
      l'.place.deleting ≠ some h → HolderStep a s l s' l' h

theorem holderStep_localStep (hl : HoldsLocks a s l) (hstep : LocalStep a s l e s' l') (h : ℕ) :
    HolderStep a s l s' l' h := by
  have hknows := hl.knows
  cases hstep with
  | makeNull hk | copyNull hk _ | drop hk _ | lockLoad hk | lockAgain hk | lockUser hk | wait hk
  | terminate hk | storeUnlock hk | tryLoad hk | tryExchange hk | tryFail hk | unlockLoad hk
  | unlockStore hk | getLoad hk | getNull hk | setLoad hk | setExchange hk | setAgain hk
  | dropNull hk | ret hk | finished hk =>
      exact .same rfl rfl rfl (by rw [hk]; nofun) (by simp [hk, AtomicPlace.deleting])
  | call hk =>
      exact .same rfl rfl rfl (by rw [hk]; nofun) (by simp [AtomicPlace.deleting_start])
  | lockFunction hk =>
      exact .same rfl rfl rfl (by rw [hk]; nofun) (by simp [AtomicPlace.deleting_afterLock])
  | @makeHolder h' hk halive =>
      rcases eq_or_ne h h' with rfl | hne
      · exact .make halive (Function.update_self ..) (Function.update_self ..) (by rw [hk]; nofun)
      · exact .same (Function.update_of_ne hne ..) (Function.update_of_ne hne ..) rfl
          (by rw [hk]; nofun) (by rw [hk]; nofun)
  | @copyHolder h' hk hmem =>
      rcases eq_or_ne h h' with rfl | hne
      · exact .acquire (.inl (List.mem_append_left _ hmem)) (s.addCount_self h 1) rfl
          (by rw [hk]; nofun)
      · exact .same (s.addCount_of_ne hne 1) rfl rfl (by rw [hk]; nofun) (by rw [hk]; nofun)
  | @addref i x h' hk =>
      rw [hk] at hknows
      rcases eq_or_ne h h' with rfl | hne
      · exact .acquire (.inr ⟨i, List.mem_singleton.mpr hknows.1.symm⟩) (s.addCount_self h 1) rfl
          nofun
      · exact .same (s.addCount_of_ne hne 1) rfl rfl (by rw [hk]; nofun) nofun
  | @getAddref i h' hk =>
      rw [hk] at hknows
      rcases eq_or_ne h h' with rfl | hne
      · exact .acquire (.inr ⟨i, List.mem_singleton.mpr (Eq.symm hknows)⟩) (s.addCount_self h 1)
          rfl nofun
      · exact .same (s.addCount_of_ne hne 1) rfl rfl (by rw [hk]; nofun) nofun
  | @release ret h' drops hk hcount =>
      rcases eq_or_ne h h' with rfl | hne
      · exact .release (by simp [AtomicThread.held, hk, AtomicPlace.held]) hcount rfl nofun
      · exact .same (s.addCount_of_ne hne (-1)) rfl rfl (by rw [hk]; nofun) nofun
  | @releaseLast ret h' drops hk hcount =>
      rcases eq_or_ne h h' with rfl | hne
      · exact .releaseLast (by simp [AtomicThread.held, hk, AtomicPlace.held]) hcount rfl
          (Function.update_self ..) rfl
      · exact .same (s.addCount_of_ne hne (-1)) rfl (Function.update_of_ne hne ..)
          (by rw [hk]; nofun) (by simp [AtomicPlace.deleting, hne.symm])
  | @delete ret drops h' hk =>
      rcases eq_or_ne h h' with rfl | hne
      · exact .delete rfl (Function.update_self ..) (by rw [hk]; rfl) nofun
      · exact .same rfl (Function.update_of_ne hne ..) rfl
          (by rw [hk]; simp [AtomicPlace.deleting, hne.symm]) nofun

end AtomicState

namespace Atomic

variable [Fintype T] [Fintype ι]

/-- The counts are right. A holder whose count is zero is gone, or about to be deleted by the
one thread that has released the last reference. -/
structure Counted (c : Atomic T ι) : Prop where
  balance : ∀ h, c.shared.counts h = c.designations h
  dead : ∀ h, c.shared.alive h = false → c.shared.counts h = 0
  deleting : ∀ a h, (c.pc a).place.deleting = some h →
    c.shared.alive h = true ∧ c.shared.counts h = 0 ∧ c.shared.releasedBy h = some a
  deleted : ∀ h, c.shared.alive h = true → c.shared.counts h = 0 →
    ∃ a, (c.pc a).place.deleting = some h

namespace Counted

variable {c : Atomic T ι} {a b : T} {s : AtomicState T ι} {l : AtomicThread ι} {h : ℕ}

theorem pos (hc : c.Counted)
    (hh : some h ∈ (c.pc a).held ∨ ∃ i, some h ∈ (c.shared.words i).held) :
    0 < c.shared.counts h := by
  rw [hc.balance h, Atomic.designations]
  rcases hh with hh | ⟨i, hh⟩
  · have hpos := references_pos (f := fun a => (c.pc a).held) hh
    omega
  · have hpos := references_pos (f := fun i => (c.shared.words i).held) hh
    omega

/-- A holder that an object or a cell designates is there. -/
theorem alive (hc : c.Counted)
    (hh : some h ∈ (c.pc a).held ∨ ∃ i, some h ∈ (c.shared.words i).held) :
    c.shared.alive h = true := by
  cases halive : c.shared.alive h with
  | true => rfl
  | false => exact absurd (hc.dead h halive) (hc.pos hh).ne'

theorem dead_step (hc : c.Counted) (hstep : AtomicState.HolderStep a c.shared (c.pc a) s l h)
    (hdead : s.alive h = false) : s.counts h = 0 := by
  cases hstep with
  | same hcounts halive =>
      rw [hcounts]
      exact hc.dead h (halive ▸ hdead)
  | make _ _ halive => exact absurd (halive.symm.trans hdead) (by decide)
  | acquire hh _ halive =>
      exact absurd ((hc.alive hh).symm.trans (halive ▸ hdead)) (by decide)
  | release hh _ halive =>
      exact absurd ((hc.alive (.inl hh)).symm.trans (halive ▸ hdead)) (by decide)
  | releaseLast _ hcounts => exact hcounts
  | delete hcounts _ hdeleting =>
      rw [hcounts]
      exact (hc.deleting a h hdeleting).2.1

/-- The thread that moves is about to delete only what it has released. -/
theorem deleting_self (hc : c.Counted)
    (hstep : AtomicState.HolderStep a c.shared (c.pc a) s l h)
    (hdeleting : l.place.deleting = some h) :
    s.alive h = true ∧ s.counts h = 0 ∧ s.releasedBy h = some a := by
  cases hstep with
  | releaseLast hh hcounts halive hreleased =>
      exact ⟨halive ▸ hc.alive (.inl hh), hcounts, hreleased⟩
  | same _ _ _ _ hnot | make _ _ _ hnot | acquire _ _ _ hnot | release _ _ _ hnot
  | delete _ _ _ hnot => exact absurd hdeleting hnot

/-- Nobody else touches a holder that is about to be deleted. -/
theorem deleting_other (hc : c.Counted)
    (hstep : AtomicState.HolderStep a c.shared (c.pc a) s l h) (hne : b ≠ a)
    (hdeleting : (c.pc b).place.deleting = some h) :
    s.alive h = true ∧ s.counts h = 0 ∧ s.releasedBy h = some b := by
  obtain ⟨halive, hzero, hreleased⟩ := hc.deleting b h hdeleting
  cases hstep with
  | same hcounts hsame hby => exact ⟨hsame ▸ halive, hcounts.trans hzero, hby.trans hreleased⟩
  | make hdead => exact absurd (halive.symm.trans hdead) (by decide)
  | acquire hh => exact absurd hzero (hc.pos hh).ne'
  | release hh | releaseLast hh => exact absurd hzero (hc.pos (.inl hh)).ne'
  | delete _ _ hdeleting' =>
      have hby := (hc.deleting a h hdeleting').2.2
      exact absurd (Option.some.inj (hreleased.symm.trans hby)) hne

variable [DecidableEq T]

theorem balance_step (hc : c.Counted)
    (hstep : s.counts h + ((c.pc a).held.count (some h) + c.shared.cells h : ℕ) =
      c.shared.counts h + (l.held.count (some h) + s.cells h : ℕ)) :
    s.counts h = designations (c.move a s l) h := by
  have hmove := references_update c.pc AtomicThread.held a l (some h)
  have hbefore := hc.balance h
  simp only [designations, Config.move, AtomicState.cells] at hmove hbefore hstep ⊢
  omega

theorem deleted_step (hc : c.Counted) (hstep : AtomicState.HolderStep a c.shared (c.pc a) s l h)
    (halive : s.alive h = true) (hzero : s.counts h = 0) :
    ∃ b, ((c.move a s l).pc b).place.deleting = some h := by
  cases hstep with
  | same hcounts hsame _ hnot =>
      obtain ⟨b, hb⟩ := hc.deleted h (hsame ▸ halive) (hcounts ▸ hzero)
      have hne : b ≠ a := by
        rintro rfl
        exact hnot hb
      exact ⟨b, by rwa [Config.move_pc_of_ne c hne]⟩
  | make _ hcounts => exact absurd (hcounts.symm.trans hzero) (by decide)
  | acquire hh hcounts =>
      have hpos := hc.pos hh
      omega
  | release _ hcounts => exact absurd hzero hcounts
  | releaseLast _ _ _ _ hdeleting => exact ⟨a, by rwa [Config.move_pc_self]⟩
  | delete _ hdead => exact absurd (hdead.symm.trans halive) (by decide)

variable [DecidableEq ι]

theorem step {e : AtomicEvent ι} (hc : c.Counted) (hl : HoldsLocks a c.shared (c.pc a))
    (hstep : AtomicState.LocalStep a c.shared (c.pc a) e s l) : Counted (c.move a s l) where
  balance h := hc.balance_step (AtomicState.balance_localStep hc.dead hl hstep h)
  dead h := hc.dead_step (AtomicState.holderStep_localStep hl hstep h)
  deleting b h hb := by
    have hholder := AtomicState.holderStep_localStep hl hstep h
    rcases eq_or_ne b a with rfl | hne
    · rw [Config.move_pc_self] at hb
      exact hc.deleting_self hholder hb
    · rw [Config.move_pc_of_ne c hne] at hb
      exact hc.deleting_other hholder hne hb
  deleted h := hc.deleted_step (AtomicState.holderStep_localStep hl hstep h)

end Counted

variable [DecidableEq T] [DecidableEq ι]

/-- In every reachable state the counts are right. -/
theorem counted {c : Atomic T ι} (h : (atomicSystem T ι).Reachable c) : c.Counted := by
  apply h.invariant_of_reachable
  · rintro c rfl
    refine ⟨fun h => ?_, fun _ _ => rfl, nofun, nofun⟩
    simp [initial, designations, references, AtomicThread.held, AtomicPlace.held, Word.held]
  · rintro c ⟨a, e⟩ d hreach hc hstep
    obtain ⟨s, l, hact, rfl⟩ := Config.step_eq_some hstep
    exact hc.step ((atomic_locks hreach).2 a) (AtomicState.localStep_of_act hact)

end Atomic

end Minapp
