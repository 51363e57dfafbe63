import Minapp.Model.Atomic

/-! Everything a step of a thread at a cell can be. -/

namespace Minapp

namespace AtomicState

variable {T ι : Type*} [DecidableEq ι]

/-- The transitions of a thread, with the state and the thread each leads to. -/
inductive LocalStep (a : T) (s : AtomicState T ι) (l : AtomicThread ι) :
    AtomicEvent ι → AtomicState T ι → AtomicThread ι → Prop where
  | makeNull : l.place = .idle → LocalStep a s l (.make none) s { l with vars := l.vars ++ [none] }
  | makeHolder {holder} : l.place = .idle → s.alive holder = false →
      LocalStep a s l (.make (some holder))
        { s with
          counts := Function.update s.counts holder 1
          alive := Function.update s.alive holder true }
        { l with vars := l.vars ++ [some holder] }
  | copyNull : l.place = .idle → none ∈ l.vars →
      LocalStep a s l (.copy none) s { l with vars := l.vars ++ [none] }
  | copyHolder {holder} : l.place = .idle → some holder ∈ l.vars →
      LocalStep a s l (.copy (some holder)) (s.addCount holder 1)
        { l with vars := l.vars ++ [some holder] }
  | drop {p} : l.place = .idle → p ∈ l.vars →
      LocalStep a s l (.drop p) s { l with vars := l.vars.erase p, place := .finish none [p] }
  | call {i op vars} : l.place = .idle → (op.needsLock = true → i ∈ l.locks) →
      takeArgs l.vars op.args = some vars → LocalStep a s l (.call i op)
        (s.record (.call a (i, op))) { l with vars, place := op.start i }
  | lockLoad {i x} : l.place = .lockLoad i x →
      LocalStep a s l .run s { l with place := .lockTry i x (s.words i) }
  | lockAgain {i x v e} : l.place = .lockTry i x v →
      LocalStep a s l e s { l with place := .lockTry i x (s.words i) }
  | lockFunction {i x v} : l.place = .lockTry i (some x) v → v.locked = false →
      v.waiting = false → s.words i = v → LocalStep a s l .run
        ((s.setWord i { v with locked := true }).setOwner i (.function a))
        { l with place := x.afterLock i v.handle }
  | lockUser {i v} : l.place = .lockTry i none v → v.locked = false → v.waiting = false →
      s.words i = v → LocalStep a s l .run
        (((s.setWord i { v with locked := true }).setOwner i (.user a)).record
          (.effect a (i, .lock) .done))
        { l with locks := i :: l.locks, place := .finish (some (i, .lock, .done)) [] }
  | wait {i x v} : l.place = .lockTry i x v → v.locked = true → v.waiting = false →
      s.words i = v → LocalStep a s l .run (s.setWord i { v.unmasked with waiting := true })
        { l with place := .lockLoad i x }
  | terminate {i x v} : l.place = .lockTry i x v → v.locked = true → v.waiting = true →
      LocalStep a s l .run s { l with place := .terminated }
  | addref {i x holder} : l.place = .addref i x holder →
      LocalStep a s l .run (s.addCount holder 1) { l with place := .storeUnlock i x (some holder) }
  | storeUnlock {i x p} : l.place = .storeUnlock i x p → LocalStep a s l .run
      (((s.setWord i { handle := x.stored p }).setOwner i .free).record
        (.effect a (i, .access x) (x.result p)))
      { l with
        vars := l.vars ++ x.left p
        place := .finish (some (i, .access x, x.result p)) (x.drops p) }
  | tryLoad {i} : l.place = .tryLoad i →
      LocalStep a s l .run s { l with place := .tryExchange i (s.words i).unmasked }
  | tryExchange {i v} : l.place = .tryExchange i v → s.words i = v → LocalStep a s l .run
      (((s.setWord i { v with locked := true }).setOwner i (.user a)).record
        (.effect a (i, .tryLock) (.succeeded true)))
      { l with
        locks := i :: l.locks
        place := .finish (some (i, .tryLock, .succeeded true)) [] }
  | tryFail {i v e} : l.place = .tryExchange i v → LocalStep a s l e
      (s.record (.effect a (i, .tryLock) (.succeeded false)))
      { l with place := .finish (some (i, .tryLock, .succeeded false)) [] }
  | unlockLoad {i} : l.place = .unlockLoad i →
      LocalStep a s l .run s { l with place := .unlockStore i (s.words i).unmasked }
  | unlockStore {i v} : l.place = .unlockStore i v → LocalStep a s l .run
      (((s.setWord i v).setOwner i .free).record (.effect a (i, .unlock) .done))
      { l with locks := l.locks.erase i, place := .finish (some (i, .unlock, .done)) [] }
  | getLoad {i holder} : l.place = .getLoad i → (s.words i).handle = some holder →
      LocalStep a s l .run s { l with place := .getAddref i holder }
  | getNull {i} : l.place = .getLoad i → (s.words i).handle = none → LocalStep a s l .run
      (s.record (.effect a (i, .get) (.handle none)))
      { l with
        vars := l.vars ++ [none]
        place := .finish (some (i, .get, .handle none)) [] }
  | getAddref {i holder} : l.place = .getAddref i holder → LocalStep a s l .run
      ((s.addCount holder 1).record (.effect a (i, .get) (.handle (some holder))))
      { l with
        vars := l.vars ++ [some holder]
        place := .finish (some (i, .get, .handle (some holder))) [] }
  | setLoad {i obj} : l.place = .setLoad i obj →
      LocalStep a s l .run s { l with place := .setExchange i obj (s.words i) }
  | setExchange {i obj v} : l.place = .setExchange i obj v → s.words i = v →
      LocalStep a s l .run
        ((s.setWord i { v with handle := obj }).record (.effect a (i, .set obj) (.handle v.handle)))
        { l with
          vars := l.vars ++ [v.handle]
          place := .finish (some (i, .set obj, .handle v.handle)) [] }
  | setAgain {i obj v e} : l.place = .setExchange i obj v →
      LocalStep a s l e s { l with place := .setExchange i obj (s.words i) }
  | release {ret holder drops} : l.place = .finish ret (some holder :: drops) →
      (s.addCount holder (-1)).counts holder ≠ 0 →
      LocalStep a s l .run (s.addCount holder (-1)) { l with place := .finish ret drops }
  | releaseLast {ret holder drops} : l.place = .finish ret (some holder :: drops) →
      (s.addCount holder (-1)).counts holder = 0 → LocalStep a s l .run
        { s.addCount holder (-1) with
          releasedBy := Function.update s.releasedBy holder (some a) }
        { l with place := .delete ret drops holder }
  | dropNull {ret drops} : l.place = .finish ret (none :: drops) →
      LocalStep a s l .run s { l with place := .finish ret drops }
  | ret {i op result} : l.place = .finish (some (i, op, result)) [] →
      LocalStep a s l .run (s.record (.ret a (i, op) result)) { l with place := .idle }
  | finished : l.place = .finish none [] → LocalStep a s l .run s { l with place := .idle }
  | delete {ret drops holder} : l.place = .delete ret drops holder → LocalStep a s l .run
      { s with alive := Function.update s.alive holder false }
      { l with place := .finish ret drops }

variable {a : T} {s s' : AtomicState T ι} {l l' : AtomicThread ι} {e : AtomicEvent ι}

theorem localStep_of_lockTry {i : ι} {x : Option Access} {v : Word} (hk : l.place = .lockTry i x v)
    (h : s.access a l = some (s', l')) : LocalStep a s l .run s' l' := by
  simp only [access, hk] at h
  split at h
  · rename_i hlocked hwaiting
    split at h
    · rename_i hword
      cases x with
      | some x =>
          obtain ⟨rfl, rfl⟩ := Prod.mk.inj (Option.some.inj h)
          exact .lockFunction hk hlocked hwaiting hword
      | none =>
          obtain ⟨rfl, rfl⟩ := Prod.mk.inj (Option.some.inj h)
          exact .lockUser hk hlocked hwaiting hword
    · obtain ⟨rfl, rfl⟩ := Prod.mk.inj (Option.some.inj h)
      exact .lockAgain hk
  · rename_i hlocked hwaiting
    split at h <;> obtain ⟨rfl, rfl⟩ := Prod.mk.inj (Option.some.inj h)
    · exact .wait hk hlocked hwaiting ‹_›
    · exact .lockAgain hk
  · obtain ⟨rfl, rfl⟩ := Prod.mk.inj (Option.some.inj h)
    exact .lockAgain hk
  · obtain ⟨rfl, rfl⟩ := Prod.mk.inj (Option.some.inj h)
    exact .terminate hk ‹_› ‹_›

theorem localStep_of_finish {ret : Option (ι × AtomicOp × AtomicResult)} {drops : List Handle}
    (hk : l.place = .finish ret drops) (h : s.access a l = some (s', l')) :
    LocalStep a s l .run s' l' := by
  cases drops with
  | nil =>
      cases ret with
      | none =>
          simp only [access, hk] at h
          obtain ⟨rfl, rfl⟩ := Prod.mk.inj (Option.some.inj h)
          exact .finished hk
      | some ret =>
          obtain ⟨i, op, result⟩ := ret
          simp only [access, hk] at h
          obtain ⟨rfl, rfl⟩ := Prod.mk.inj (Option.some.inj h)
          exact .ret hk
  | cons p drops =>
      cases p with
      | none =>
          simp only [access, hk] at h
          obtain ⟨rfl, rfl⟩ := Prod.mk.inj (Option.some.inj h)
          exact .dropNull hk
      | some holder =>
          simp only [access, hk] at h
          split at h <;> obtain ⟨rfl, rfl⟩ := Prod.mk.inj (Option.some.inj h)
          · exact .releaseLast hk ‹_›
          · exact .release hk ‹_›

theorem localStep_of_access (h : s.access a l = some (s', l')) : LocalStep a s l .run s' l' := by
  cases hk : l.place with
  | lockTry i x v => exact localStep_of_lockTry hk h
  | finish ret drops => exact localStep_of_finish hk h
  | tryExchange i v =>
      simp only [access, hk] at h
      split at h <;> obtain ⟨rfl, rfl⟩ := Prod.mk.inj (Option.some.inj h)
      · exact .tryExchange hk ‹_›
      · exact .tryFail hk
  | setExchange i obj v =>
      simp only [access, hk] at h
      split at h <;> obtain ⟨rfl, rfl⟩ := Prod.mk.inj (Option.some.inj h)
      · exact .setExchange hk ‹_›
      · exact .setAgain hk
  | getLoad i =>
      simp only [access, hk] at h
      split at h <;> obtain ⟨rfl, rfl⟩ := Prod.mk.inj (Option.some.inj h)
      · exact .getLoad hk ‹_›
      · exact .getNull hk ‹_›
  | idle | terminated => simp [access, hk] at h
  | lockLoad i x =>
      simp only [access, hk] at h
      obtain ⟨rfl, rfl⟩ := Prod.mk.inj (Option.some.inj h)
      exact .lockLoad hk
  | addref i x holder =>
      simp only [access, hk] at h
      obtain ⟨rfl, rfl⟩ := Prod.mk.inj (Option.some.inj h)
      exact .addref hk
  | storeUnlock i x p =>
      simp only [access, hk] at h
      obtain ⟨rfl, rfl⟩ := Prod.mk.inj (Option.some.inj h)
      exact .storeUnlock hk
  | tryLoad i =>
      simp only [access, hk] at h
      obtain ⟨rfl, rfl⟩ := Prod.mk.inj (Option.some.inj h)
      exact .tryLoad hk
  | unlockLoad i =>
      simp only [access, hk] at h
      obtain ⟨rfl, rfl⟩ := Prod.mk.inj (Option.some.inj h)
      exact .unlockLoad hk
  | unlockStore i v =>
      simp only [access, hk] at h
      obtain ⟨rfl, rfl⟩ := Prod.mk.inj (Option.some.inj h)
      exact .unlockStore hk
  | getAddref i holder =>
      simp only [access, hk] at h
      obtain ⟨rfl, rfl⟩ := Prod.mk.inj (Option.some.inj h)
      exact .getAddref hk
  | setLoad i obj =>
      simp only [access, hk] at h
      obtain ⟨rfl, rfl⟩ := Prod.mk.inj (Option.some.inj h)
      exact .setLoad hk
  | delete ret drops holder =>
      simp only [access, hk] at h
      obtain ⟨rfl, rfl⟩ := Prod.mk.inj (Option.some.inj h)
      exact .delete hk

theorem localStep_of_act (h : s.act a l e = some (s', l')) : LocalStep a s l e s' l' := by
  cases e with
  | make p =>
      cases p with
      | none =>
          simp only [act] at h
          split at h
          · obtain ⟨rfl, rfl⟩ := Prod.mk.inj (Option.some.inj h)
            exact .makeNull ‹_›
          · exact absurd h (by simp)
      | some holder =>
          simp only [act] at h
          split at h
          · rename_i hc
            obtain ⟨rfl, rfl⟩ := Prod.mk.inj (Option.some.inj h)
            exact .makeHolder hc.1 hc.2
          · exact absurd h (by simp)
  | copy p =>
      simp only [act] at h
      split at h
      · rename_i hc
        cases p <;> obtain ⟨rfl, rfl⟩ := Prod.mk.inj (Option.some.inj h)
        · exact .copyNull hc.1 hc.2
        · exact .copyHolder hc.1 hc.2
      · exact absurd h (by simp)
  | drop p =>
      simp only [act] at h
      split at h
      · rename_i hc
        obtain ⟨rfl, rfl⟩ := Prod.mk.inj (Option.some.inj h)
        exact .drop hc.1 hc.2
      · exact absurd h (by simp)
  | call i op =>
      simp only [act] at h
      split at h
      · rename_i hc
        obtain ⟨vars, hvars, heq⟩ := Option.map_eq_some_iff.mp h
        obtain ⟨rfl, rfl⟩ := Prod.mk.inj heq
        exact .call hc.1 hc.2 hvars
      · exact absurd h (by simp)
  | run => exact localStep_of_access h
  | spurious =>
      simp only [act] at h
      split at h
      · rename_i hk
        split at h
        · exact absurd h (by simp)
        · obtain ⟨rfl, rfl⟩ := Prod.mk.inj (Option.some.inj h)
          exact .lockAgain hk
      · rename_i hk
        obtain ⟨rfl, rfl⟩ := Prod.mk.inj (Option.some.inj h)
        exact .tryFail hk
      · rename_i hk
        obtain ⟨rfl, rfl⟩ := Prod.mk.inj (Option.some.inj h)
        exact .setAgain hk
      · exact absurd h (by simp)

end AtomicState

end Minapp
