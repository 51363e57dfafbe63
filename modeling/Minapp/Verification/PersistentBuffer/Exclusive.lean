import Minapp.Model.SharedManager
import Mathlib.Data.List.Nodup
import Mathlib.Data.List.Perm.Basic

/-! # No slot of a shared buffer manager is in two places

The threads that use a manager copy and clear buffers without any lock. Each of them does so in
slots that no list has and no other thread. -/

namespace Minapp

open Linearization

variable {T β : Type*}

/-! ## What a step can do -/

section Steps

variable [DecidableEq T] {n : ℕ} {a : T} {s s' : SharedManager T β} {k k' : QueuePlace β}

variable (n) in
inductive QueueStep (a : T) (s : SharedManager T β) (k : QueuePlace β) :
    SharedManager T β → QueuePlace β → Prop
  | callManage {buffers} : k = .idle → QueueStep a s k
      (s.record (.call a (.manage buffers))) (.hold (buffers.map (·, none)))
  | callMark : k = .idle → QueueStep a s k (s.record (.call a .mark)) .testMarked
  | callClear : k = .idle → s.marked ≠ [] → s.clearer = none → QueueStep a s k
      ({ s with clearer := some a }.record (.call a .clearMarked)) (.dispose s.marked)
  | pop {items j b p cached} : k = .hold items → items[j]? = some (b, none) →
      s.cached = p :: cached →
      QueueStep a s k ({ s with cached }.moveSlots [p] (.held a)) (.copy items j p)
  | noCached {items j b} : k = .hold items → items[j]? = some (b, none) → s.cached = [] →
      QueueStep a s k s (.malloc items j)
  | malloc {items j q} : k = .malloc items j → n ≤ q → s.slots q = .free →
      QueueStep a s k (s.moveSlots [q] (.held a)) (.copy items j q)
  | copy {items j p item} : k = .copy items j p → items[j]? = some item → QueueStep a s k
      { s with contents := Function.update s.contents p (some item.1) }
      (.hold (items.set j (item.1, some p)))
  | append {items} : k = .hold items → (∀ item ∈ items, item.2.isSome = true) → QueueStep a s k
      (({ s with managed := s.managed ++ items.slots }.moveSlots items.slots .managed).record
        (.effect a (.manage items.buffers) .done))
      (.finish (.manage items.buffers) .done)
  | markBusy : k = .testMarked → s.marked ≠ [] → QueueStep a s k
      (s.record (.effect a .mark (.marker (-s.marker)))) (.finish .mark (.marker (-s.marker)))
  | markFree : k = .testMarked → s.markedGuard = none → s.marked = [] →
      QueueStep a s k { s with markedGuard := some a } .swapLists
  | markNothing : k = .swapLists → s.managed = [] → QueueStep a s k
      ({ s with markedGuard := none }.record (.effect a .mark (.marker 0)))
      (.finish .mark (.marker 0))
  | swap {marker} : k = .swapLists → s.managed ≠ [] →
      marker = (if s.marker = longMax then 1 else s.marker + 1) → QueueStep a s k
      (({ s with
          managed := s.marked
          marked := s.managed
          marker
          markedGuard := none }.moveSlots s.managed .marked).record
        (.effect a .mark (.marker marker)))
      (.finish .mark (.marker marker))
  | dispose {p rest} : k = .dispose (p :: rest) → QueueStep a s k
      ({ s with contents := Function.update s.contents p none }.moveSlots [p] (.held a))
      (.giveBack p rest)
  | giveCached {p rest} : k = .giveBack p rest → p < n → QueueStep a s k
      ({ s with cached := p :: s.cached }.moveSlots [p] .cached) (.dispose rest)
  | giveFree {p rest} : k = .giveBack p rest → n ≤ p →
      QueueStep a s k (s.moveSlots [p] .free) (.dispose rest)
  | cleared : k = .dispose [] → QueueStep a s k
      ({ s with marked := [], clearer := none }.record (.effect a .clearMarked .done))
      (.finish .clearMarked .done)
  | ret {op result} : k = .finish op result →
      QueueStep a s k (s.record (.ret a op result)) .idle

omit [DecidableEq T] in
theorem SharedManager.access_cases (h : s.access n a k = some (s', k')) :
    QueueStep n a s k s' k' := by
  cases k with
  | idle | malloc => cases h
  | hold items =>
      simp only [access] at h
      split at h
      · rename_i hall
        obtain ⟨rfl, rfl⟩ := Prod.mk.inj (Option.some.inj h)
        exact .append rfl (List.all_eq_true.mp hall)
      · cases h
  | copy items j p =>
      obtain ⟨item, hitem, heq⟩ := Option.map_eq_some_iff.mp h
      obtain ⟨rfl, rfl⟩ := Prod.mk.inj heq
      exact .copy rfl hitem
  | testMarked =>
      simp only [access] at h
      split at h
      · split at h <;> obtain ⟨rfl, rfl⟩ := Prod.mk.inj (Option.some.inj h)
        · exact .markBusy rfl ‹_›
        · rename_i hguard hmarked
          exact .markFree rfl hguard (not_not.mp hmarked)
      · cases h
  | swapLists =>
      simp only [access] at h
      split at h <;> obtain ⟨rfl, rfl⟩ := Prod.mk.inj (Option.some.inj h)
      · exact .markNothing rfl ‹_›
      · exact .swap rfl ‹_› rfl
  | dispose rest =>
      cases rest with
      | nil =>
          obtain ⟨rfl, rfl⟩ := Prod.mk.inj (Option.some.inj h)
          exact .cleared rfl
      | cons p rest =>
          obtain ⟨rfl, rfl⟩ := Prod.mk.inj (Option.some.inj h)
          exact .dispose rfl
  | giveBack p rest =>
      simp only [access] at h
      split at h <;> obtain ⟨rfl, rfl⟩ := Prod.mk.inj (Option.some.inj h)
      · exact .giveCached rfl ‹_›
      · exact .giveFree rfl (Nat.not_lt.mp ‹_›)
  | finish op result =>
      obtain ⟨rfl, rfl⟩ := Prod.mk.inj (Option.some.inj h)
      exact .ret rfl

theorem SharedManager.act_cases {e : QueueEvent β} (h : s.act n a k e = some (s', k')) :
    QueueStep n a s k s' k' := by
  cases e with
  | run => exact access_cases h
  | call op =>
      cases k with
      | idle =>
          cases op with
          | manage buffers =>
              obtain ⟨rfl, rfl⟩ := Prod.mk.inj (Option.some.inj h)
              exact .callManage rfl
          | mark =>
              obtain ⟨rfl, rfl⟩ := Prod.mk.inj (Option.some.inj h)
              exact .callMark rfl
          | clearMarked =>
              simp only [act] at h
              split at h
              · rename_i hc
                obtain ⟨rfl, rfl⟩ := Prod.mk.inj (Option.some.inj h)
                exact .callClear rfl hc.1 hc.2
              · cases h
      | _ => cases h
  | hold j =>
      cases k with
      | hold items =>
          simp only [act] at h
          split at h
          · rename_i b hitem
            have h := Option.some.inj h
            rw [popCached] at h
            split at h <;> obtain ⟨rfl, rfl⟩ := Prod.mk.inj h
            · exact .pop rfl hitem ‹_›
            · exact .noCached rfl hitem ‹_›
          · cases h
      | _ => cases h
  | malloc q =>
      cases k with
      | malloc items j =>
          simp only [act] at h
          split at h
          · rename_i hq
            obtain ⟨rfl, rfl⟩ := Prod.mk.inj (Option.some.inj h)
            exact .malloc rfl hq.1 hq.2
          · cases h
      | _ => cases h

end Steps

/-! ## Slots -/

namespace SharedManager

variable {s : SharedManager T β} {ps : List ℕ} {old new x : SlotPlace T} {p : ℕ}

/-- The slots that neither come from nor go to a place. -/
theorem moveSlots_other (hps : ∀ p ∈ ps, s.slots p = old) (hold : x ≠ old) (hnew : x ≠ new) :
    (s.moveSlots ps new).slots p = x ↔ s.slots p = x := by
  by_cases hp : p ∈ ps
  · simp only [moveSlots, hp, if_true, hps p hp]
    exact ⟨fun h => absurd h.symm hnew, fun h => absurd h.symm hold⟩
  · simp [moveSlots, hp]

/-- The slots where they come from. -/
theorem moveSlots_old (hne : old ≠ new) :
    (s.moveSlots ps new).slots p = old ↔ s.slots p = old ∧ p ∉ ps := by
  by_cases hp : p ∈ ps
  · simp [moveSlots, hp, hne.symm]
  · simp [moveSlots, hp]

/-- The slots where they go to. -/
theorem moveSlots_new :
    (s.moveSlots ps new).slots p = new ↔ s.slots p = new ∨ p ∈ ps := by
  by_cases hp : p ∈ ps
  · simp [moveSlots, hp]
  · simp [moveSlots, hp]

end SharedManager

namespace QueuePlace

/-- The buffers that the thread has to manage. -/
def items : QueuePlace β → HeldBuffers β
  | .hold items | .malloc items _ | .copy items _ _ => items
  | _ => []

/-- The slots that the thread holds. -/
def slots : QueuePlace β → List ℕ
  | .hold items | .malloc items _ => items.slots
  | .copy items _ p => p :: items.slots
  | .giveBack p _ => [p]
  | _ => []

/-- The slots that `clear_marked` has still to dispose of. -/
def rest : QueuePlace β → Option (List ℕ)
  | .dispose rest | .giveBack _ rest => some rest
  | _ => none

/-- The buffer that `hold_buffer` is called for has no slot yet. -/
def Awaits : QueuePlace β → Prop
  | .malloc items j | .copy items j _ => ∃ b, items[j]? = some (b, none)
  | _ => True

end QueuePlace

namespace HeldBuffers

variable {items : HeldBuffers β} {j : ℕ} {b : β} {p : ℕ}

theorem mem_slots : p ∈ items.slots ↔ ∃ b, (b, some p) ∈ items := by
  simp [slots]

/-- A buffer gets a slot. -/
theorem slots_set (h : items[j]? = some (b, none)) :
    (HeldBuffers.slots (items.set j (b, some p))).Perm (p :: items.slots) := by
  induction items generalizing j with
  | nil => simp at h
  | cons item items ih =>
      cases j with
      | zero =>
          obtain rfl : item = (b, none) := Option.some.inj h
          exact .refl _
      | succ j =>
          have hperm := ih h
          rw [List.set_cons_succ]
          rcases item with ⟨b', _ | q⟩
          · exact hperm
          · exact (hperm.cons q).trans (.swap p q _)

theorem buffers_set (h : items[j]? = some (b, none)) :
    HeldBuffers.buffers (items.set j (b, some p)) = items.buffers := by
  have hj : (items.map Prod.fst)[j]? = some b := by
    rw [List.getElem?_map, h]
    rfl
  obtain ⟨hlt, hget⟩ := List.getElem?_eq_some_iff.mp hj
  rw [buffers, List.map_set, ← hget]
  exact List.set_getElem_self hlt

theorem slots_start (buffers : List β) : HeldBuffers.slots (buffers.map (·, none)) = [] := by
  simp [slots]

end HeldBuffers

/-- Every slot is at most in one list, at most once. -/
structure SharedManager.Valid (s : SharedManager T β) : Prop where
  cached : ∀ p, p ∈ s.cached ↔ s.slots p = .cached
  cachedNodup : s.cached.Nodup
  managed : ∀ p, p ∈ s.managed ↔ s.slots p = .managed
  managedNodup : s.managed.Nodup
  marked : s.clearer = none → ∀ p, p ∈ s.marked ↔ s.slots p = .marked
  markedNodup : s.clearer = none → s.marked.Nodup
  busy : s.clearer ≠ none → s.marked ≠ []
  swapping : s.markedGuard ≠ none → s.marked = []

/-- What a thread holds, and what it has put there. -/
structure QueuePlace.Valid (a : T) (s : SharedManager T β) (k : QueuePlace β) : Prop where
  held : ∀ p, p ∈ k.slots ↔ s.slots p = .held a
  heldNodup : k.slots.Nodup
  contents : ∀ b p, (b, some p) ∈ k.items → s.contents p = some b
  awaits : k.Awaits
  clearer : s.clearer = some a ↔ k.rest.isSome = true
  rest : ∀ rest, k.rest = some rest → rest.Nodup ∧ ∀ p, p ∈ rest ↔ s.slots p = .marked
  guard : s.markedGuard = some a ↔ k = .swapLists

/-- What a step of another thread leaves to thread `b`. -/
structure SharedManager.Leaves (b : T) (s s' : SharedManager T β) : Prop where
  held : ∀ p, s'.slots p = .held b ↔ s.slots p = .held b
  contents : ∀ p, s.slots p = .held b → s'.contents p = s.contents p
  clearer : s'.clearer = some b ↔ s.clearer = some b
  marked : s.clearer = some b → ∀ p, s'.slots p = .marked ↔ s.slots p = .marked
  guard : s'.markedGuard = some b ↔ s.markedGuard = some b

theorem QueuePlace.Valid.of_leaves {b : T} {s s' : SharedManager T β} {k : QueuePlace β}
    (hk : k.Valid b s) (h : s.Leaves b s') : k.Valid b s' where
  held p := (hk.held p).trans (h.held p).symm
  heldNodup := hk.heldNodup
  contents buffer p hp := by
    have hslot : p ∈ k.slots := by
      cases k with
      | hold items | malloc items j => exact HeldBuffers.mem_slots.mpr ⟨buffer, hp⟩
      | copy items j q => exact List.mem_cons_of_mem _ (HeldBuffers.mem_slots.mpr ⟨buffer, hp⟩)
      | _ => cases hp
    rw [h.contents p ((hk.held p).mp hslot)]
    exact hk.contents buffer p hp
  awaits := hk.awaits
  clearer := h.clearer.trans hk.clearer
  rest rest hrest := by
    obtain ⟨hnodup, hmem⟩ := hk.rest rest hrest
    have hb : s.clearer = some b := hk.clearer.mpr (by rw [hrest]; rfl)
    exact ⟨hnodup, fun p => (hmem p).trans (h.marked hb p).symm⟩
  guard := h.guard.trans hk.guard

section Leaves

variable {b : T} {s s' : SharedManager T β}

/-- While some slots are disposed of the list is not empty, so that nobody marks. -/
theorem SharedManager.Valid.clearer_eq_none (hs : s.Valid) (hmarked : s.marked = []) :
    s.clearer = none := by
  by_contra hne
  exact hs.busy hne hmarked

/-- Slots that a step moves go from one place to another that other threads do not hold. -/
theorem SharedManager.Leaves.moveSlots (s₁ : SharedManager T β) (ps : List ℕ)
    (old new : SlotPlace T) (hps : ∀ p ∈ ps, s₁.slots p = old)
    (hslots : s₁.slots = s.slots) (hcontents : ∀ p ∉ ps, s₁.contents p = s.contents p)
    (hclearer : s₁.clearer = s.clearer) (hguard : s₁.markedGuard = some b ↔ s.markedGuard = some b)
    (hold : old ≠ .held b) (hnew : new ≠ .held b)
    (hmarked : s.clearer = some b → old ≠ .marked ∧ new ≠ .marked) :
    s.Leaves b (s₁.moveSlots ps new) where
  held p := by
    rw [moveSlots_other hps hold.symm hnew.symm, hslots]
  contents p hp := by
    refine hcontents p fun hmem => hold ?_
    rw [← hps p hmem, hslots]
    exact hp
  clearer := by rw [← hclearer]; rfl
  marked hb p := by
    rw [moveSlots_other hps (hmarked hb).1.symm (hmarked hb).2.symm, hslots]
  guard := hguard

/-- A step that moves no slot, and changes no contents but of a slot of its own. -/
theorem SharedManager.Leaves.of_slots (hslots : s'.slots = s.slots)
    (hcontents : ∀ p, s.slots p = .held b → s'.contents p = s.contents p)
    (hclearer : s'.clearer = some b ↔ s.clearer = some b)
    (hguard : s'.markedGuard = some b ↔ s.markedGuard = some b) : s.Leaves b s' where
  held p := by rw [hslots]
  contents := hcontents
  clearer := hclearer
  marked _ p := by rw [hslots]
  guard := hguard

theorem SharedManager.Leaves.record (h : s.Leaves b s')
    (e : Event T (QueueOp β) QueueResult) : s.Leaves b (s'.record e) :=
  ⟨h.held, h.contents, h.clearer, h.marked, h.guard⟩

end Leaves

section Preserve

variable {n : ℕ} {a b : T} {s s' : SharedManager T β} {k k' : QueuePlace β}

theorem QueueStep.leaves (hs : s.Valid) (hk : k.Valid a s) (hne : b ≠ a)
    (h : QueueStep n a s k s' k') : s.Leaves b s' := by
  have hheld : SlotPlace.held a ≠ .held b := by
    rintro ⟨⟩
    exact hne rfl
  have hclearer : ∀ {rest}, k.rest = some rest → s.clearer ≠ some b := by
    intro rest hrest hb
    have ha : s.clearer = some a := hk.clearer.mpr (by rw [hrest]; rfl)
    rw [hb] at ha
    exact hne (Option.some.inj ha)
  cases h with
  | callManage | callMark | noCached | markBusy | ret =>
      exact .of_slots rfl (fun _ _ => rfl) .rfl .rfl
  | callClear _ _ hnone =>
      refine .of_slots rfl (fun _ _ => rfl) ?_ .rfl
      rw [hnone]
      exact ⟨fun h => absurd (Option.some.inj h).symm hne, fun h => by cases h⟩
  | @pop items j buffer p cached hplace _ hcached =>
      refine .moveSlots { s with cached } [p] .cached (.held a) ?_ rfl (fun _ _ => rfl) rfl .rfl
        (by simp) hheld fun _ => ⟨by simp, by simp⟩
      intro q hq
      rw [List.mem_singleton.mp hq]
      exact (hs.cached p).mp (by rw [hcached]; exact List.mem_cons_self)
  | @malloc items j q hplace _ hq =>
      refine .moveSlots s [q] .free (.held a) ?_ rfl (fun _ _ => rfl) rfl .rfl
        (by simp) hheld fun _ => ⟨by simp, by simp⟩
      intro p hp
      rw [List.mem_singleton.mp hp]
      exact hq
  | @copy items j p item hplace =>
      refine .of_slots rfl (fun q hq => Function.update_of_ne ?_ ..) .rfl .rfl
      rintro rfl
      have hp : s.slots q = .held a := (hk.held q).mp (by rw [hplace]; exact List.mem_cons_self)
      rw [hq] at hp
      exact hheld hp.symm
  | @append items hplace =>
      apply SharedManager.Leaves.record
      refine .moveSlots { s with managed := s.managed ++ items.slots } items.slots (.held a)
        .managed ?_ rfl (fun _ _ => rfl) rfl .rfl hheld (by simp) fun _ => ⟨by simp, by simp⟩
      intro p hp
      exact (hk.held p).mp (by rw [hplace]; exact hp)
  | markFree hplace hguard =>
      refine .of_slots rfl (fun _ _ => rfl) .rfl ?_
      rw [hguard]
      exact ⟨fun h => absurd (Option.some.inj h).symm hne, fun h => by cases h⟩
  | markNothing hplace =>
      have hguard : s.markedGuard = some a := hk.guard.mpr hplace
      refine .of_slots rfl (fun _ _ => rfl) .rfl ?_
      rw [hguard]
      exact ⟨fun h => (by cases h), fun h => absurd (Option.some.inj h).symm hne⟩
  | @swap marker hplace =>
      have hguard : s.markedGuard = some a := hk.guard.mpr hplace
      have hnone := hs.clearer_eq_none (hs.swapping (by rw [hguard]; simp))
      apply SharedManager.Leaves.record
      refine .moveSlots
        { s with managed := s.marked, marked := s.managed, marker, markedGuard := none }
        s.managed .managed .marked (fun p hp => (hs.managed p).mp hp) rfl (fun _ _ => rfl) rfl ?_
        (by simp) (by simp) fun hb => ?_
      · rw [hguard]
        exact ⟨fun h => (by cases h), fun h => absurd (Option.some.inj h).symm hne⟩
      · rw [hnone] at hb
        cases hb
  | @dispose p rest hplace =>
      refine .moveSlots { s with contents := Function.update s.contents p none } [p] .marked
        (.held a) ?_ rfl ?_ rfl .rfl (by simp) hheld
        fun hb => absurd hb (hclearer (by rw [hplace]; rfl))
      · intro q hq
        rw [List.mem_singleton.mp hq]
        exact ((hk.rest _ (by rw [hplace]; rfl)).2 p).mp List.mem_cons_self
      · intro q hq
        exact Function.update_of_ne (fun h => hq (by rw [h]; exact List.mem_cons_self)) ..
  | @giveCached p rest hplace =>
      refine .moveSlots { s with cached := p :: s.cached } [p] (.held a) .cached ?_ rfl
        (fun _ _ => rfl) rfl .rfl hheld (by simp) fun _ => ⟨by simp, by simp⟩
      intro q hq
      exact (hk.held q).mp (by rw [hplace]; exact hq)
  | @giveFree p rest hplace =>
      refine .moveSlots s [p] (.held a) .free ?_ rfl (fun _ _ => rfl) rfl .rfl hheld (by simp)
        fun _ => ⟨by simp, by simp⟩
      intro q hq
      exact (hk.held q).mp (by rw [hplace]; exact hq)
  | cleared hplace =>
      refine .of_slots rfl (fun _ _ => rfl) ?_ .rfl
      exact ⟨fun h => (by cases h), fun hb => absurd hb (hclearer (by rw [hplace]; rfl))⟩

/-- The slots of a step, before it moves them. -/
theorem QueuePlace.Valid.held_of_mem (hk : k.Valid a s) (ps : List ℕ) (hps : k.slots = ps) :
    ∀ p ∈ ps, s.slots p = .held a := by
  subst hps
  exact fun p hp => (hk.held p).mp hp

theorem SharedManager.Valid.step (hs : s.Valid) (hk : k.Valid a s) (h : QueueStep n a s k s' k') :
    s'.Valid := by
  have hclearing : ∀ {rest}, k.rest = some rest → s.clearer = some a :=
    fun hrest => hk.clearer.mpr (by rw [hrest]; rfl)
  cases h with
  | callManage | callMark | noCached | copy | markBusy | ret =>
      exact ⟨hs.cached, hs.cachedNodup, hs.managed, hs.managedNodup, hs.marked, hs.markedNodup,
        hs.busy, hs.swapping⟩
  | callClear _ hmarked =>
      exact ⟨hs.cached, hs.cachedNodup, hs.managed, hs.managedNodup, fun h => (by cases h),
        fun h => (by cases h), fun _ => hmarked, hs.swapping⟩
  | @pop items j buffer p cached hplace _ hcached =>
      have hnodup : (p :: cached).Nodup := hcached ▸ hs.cachedNodup
      have hp : ∀ q ∈ [p], s.slots q = .cached := by
        intro q hq
        rw [List.mem_singleton.mp hq]
        exact (hs.cached p).mp (by rw [hcached]; exact List.mem_cons_self)
      have hmem : ∀ q, q ∈ cached ↔ s.slots q = .cached ∧ q ∉ [p] := by
        intro q
        rw [← hs.cached q, hcached, List.mem_cons, List.mem_singleton]
        refine ⟨fun hq => ⟨.inr hq, ?_⟩, fun hq => hq.1.resolve_left hq.2⟩
        rintro rfl
        exact (List.nodup_cons.mp hnodup).1 hq
      refine ⟨fun q => (hmem q).trans (moveSlots_old (by simp)).symm, (List.nodup_cons.mp hnodup).2,
        fun q => (hs.managed q).trans (moveSlots_other hp (by simp) (by simp)).symm,
        hs.managedNodup, fun hnone q => (hs.marked hnone q).trans ?_, hs.markedNodup, hs.busy,
        hs.swapping⟩
      exact (moveSlots_other hp (by simp) (by simp)).symm
  | @malloc items j q hplace _ hq =>
      have hp : ∀ p ∈ [q], s.slots p = .free := by
        intro p hp
        rw [List.mem_singleton.mp hp]
        exact hq
      refine ⟨fun p => (hs.cached p).trans (moveSlots_other hp (by simp) (by simp)).symm,
        hs.cachedNodup, fun p => (hs.managed p).trans (moveSlots_other hp (by simp) (by simp)).symm,
        hs.managedNodup, fun hnone p => (hs.marked hnone p).trans ?_, hs.markedNodup, hs.busy,
        hs.swapping⟩
      exact (moveSlots_other hp (by simp) (by simp)).symm
  | @append items hplace =>
      have hp := hk.held_of_mem items.slots (by rw [hplace]; rfl)
      have hnodup : items.slots.Nodup := by
        have h := hk.heldNodup
        rwa [hplace] at h
      refine ⟨fun p => (hs.cached p).trans (moveSlots_other hp (by simp) (by simp)).symm,
        hs.cachedNodup, fun p => ?_, hs.managedNodup.append hnodup ?_,
        fun hnone p => (hs.marked hnone p).trans (moveSlots_other hp (by simp) (by simp)).symm,
        hs.markedNodup, hs.busy, hs.swapping⟩
      · refine List.mem_append.trans ((or_congr_left (hs.managed p)).trans ?_)
        exact (moveSlots_new (s := { s with managed := s.managed ++ items.slots })).symm
      · intro p hmanaged hheld
        have h := ((hs.managed p).mp hmanaged).symm.trans (hp p hheld)
        cases h
  | markFree _ _ hmarked =>
      exact ⟨hs.cached, hs.cachedNodup, hs.managed, hs.managedNodup, hs.marked, hs.markedNodup,
        hs.busy, fun _ => hmarked⟩
  | markNothing =>
      exact ⟨hs.cached, hs.cachedNodup, hs.managed, hs.managedNodup, hs.marked, hs.markedNodup,
        hs.busy, fun h => absurd rfl h⟩
  | @swap marker hplace =>
      have hmarked : s.marked = [] := hs.swapping (by rw [hk.guard.mpr hplace]; simp)
      have hnone := hs.clearer_eq_none hmarked
      have hp : ∀ p ∈ s.managed, s.slots p = .managed := fun p hp => (hs.managed p).mp hp
      refine ⟨fun p => (hs.cached p).trans (moveSlots_other hp (by simp) (by simp)).symm,
        hs.cachedNodup, fun p => ?_, ?_, fun _ p => ?_, fun _ => hs.managedNodup,
        fun h => absurd hnone h, fun h => absurd rfl h⟩
      · refine Iff.trans ?_ (moveSlots_old (by simp)).symm
        have hnil : p ∈ s.marked ↔ p ∈ s.managed ∧ p ∉ s.managed := by simp [hmarked]
        exact hnil.trans (and_congr_left' (hs.managed p))
      · rw [hmarked]
        exact List.nodup_nil
      · refine Iff.trans ?_ moveSlots_new.symm
        have h := hs.marked hnone p
        rw [hmarked] at h
        exact ⟨.inr, fun hp => hp.elim (fun h' => absurd (h.mpr h') List.not_mem_nil) id⟩
  | @dispose p rest hplace =>
      have hp : ∀ q ∈ [p], s.slots q = .marked := by
        intro q hq
        rw [List.mem_singleton.mp hq]
        exact ((hk.rest _ (by rw [hplace]; rfl)).2 p).mp List.mem_cons_self
      have hsome : s.clearer ≠ none := by
        rw [hclearing (by rw [hplace]; rfl)]
        simp
      exact ⟨fun p => (hs.cached p).trans (moveSlots_other hp (by simp) (by simp)).symm,
        hs.cachedNodup, fun p => (hs.managed p).trans (moveSlots_other hp (by simp) (by simp)).symm,
        hs.managedNodup, fun hnone => absurd hnone hsome, fun hnone => absurd hnone hsome, hs.busy,
        hs.swapping⟩
  | @giveCached p rest hplace =>
      have hp := hk.held_of_mem [p] (by rw [hplace]; rfl)
      refine ⟨fun q => ?_, List.nodup_cons.mpr ⟨fun hmem => ?_, hs.cachedNodup⟩,
        fun p => (hs.managed p).trans (moveSlots_other hp (by simp) (by simp)).symm,
        hs.managedNodup,
        fun hnone q => (hs.marked hnone q).trans (moveSlots_other hp (by simp) (by simp)).symm,
        hs.markedNodup, hs.busy, hs.swapping⟩
      · refine List.mem_cons.trans ((or_congr_right (hs.cached q)).trans ?_)
        have hsingle : q = p ∨ s.slots q = .cached ↔ s.slots q = .cached ∨ q ∈ [p] := by
          rw [or_comm, List.mem_singleton]
        exact hsingle.trans (moveSlots_new (s := { s with cached := p :: s.cached })).symm
      · have h := ((hs.cached p).mp hmem).symm.trans (hp p List.mem_cons_self)
        cases h
  | @giveFree p rest hplace =>
      have hp := hk.held_of_mem [p] (by rw [hplace]; rfl)
      exact ⟨fun q => (hs.cached q).trans (moveSlots_other hp (by simp) (by simp)).symm,
        hs.cachedNodup, fun p => (hs.managed p).trans (moveSlots_other hp (by simp) (by simp)).symm,
        hs.managedNodup,
        fun hnone q => (hs.marked hnone q).trans (moveSlots_other hp (by simp) (by simp)).symm,
        hs.markedNodup, hs.busy, hs.swapping⟩
  | cleared hplace =>
      exact ⟨hs.cached, hs.cachedNodup, hs.managed, hs.managedNodup,
        fun _ p => (hk.rest [] (by rw [hplace]; rfl)).2 p, fun _ => List.nodup_nil,
        fun h => absurd rfl h, fun _ => rfl⟩

/-- A place with no slots, whose thread neither clears nor marks. -/
theorem QueuePlace.Valid.of_outside (hslots : k'.slots = []) (hitems : k'.items.slots = [])
    (hawaits : k'.Awaits) (hrest : k'.rest = none) (hswap : k' ≠ .swapLists)
    (hheld : ∀ p, s'.slots p ≠ .held a) (hclearer : s'.clearer ≠ some a)
    (hguard : s'.markedGuard ≠ some a) : k'.Valid a s' where
  held p := by
    rw [hslots]
    exact ⟨fun hp => absurd hp List.not_mem_nil, fun hp => absurd hp (hheld p)⟩
  heldNodup := by
    rw [hslots]
    exact List.nodup_nil
  contents b p hp := by
    have hmem : p ∈ k'.items.slots := HeldBuffers.mem_slots.mpr ⟨b, hp⟩
    rw [hitems] at hmem
    exact absurd hmem List.not_mem_nil
  awaits := hawaits
  clearer := by
    rw [hrest]
    exact ⟨fun h => absurd h hclearer, fun h => by cases h⟩
  rest rest h := by
    rw [hrest] at h
    cases h
  guard := ⟨fun h => absurd h hguard, fun h => absurd h hswap⟩

theorem QueuePlace.Valid.not_held (hk : k.Valid a s) (hslots : k.slots = []) (p : ℕ) :
    s.slots p ≠ .held a := by
  intro hp
  have h := (hk.held p).mpr hp
  rw [hslots] at h
  exact absurd h List.not_mem_nil

theorem QueuePlace.Valid.not_clearer (hk : k.Valid a s) (hrest : k.rest = none) :
    s.clearer ≠ some a := by
  intro h
  have h := hk.clearer.mp h
  rw [hrest] at h
  cases h

theorem QueuePlace.Valid.not_guard (hk : k.Valid a s) (hswap : k ≠ .swapLists) :
    s.markedGuard ≠ some a := fun h => hswap (hk.guard.mp h)

/-- `hold_buffer` gets the slot `p`, which the thread did not hold. -/
theorem QueuePlace.Valid.copy {items : HeldBuffers β} {j p : ℕ} {b : β} {old : SlotPlace T}
    {s₁ : SharedManager T β} (hk : k.Valid a s) (hk' : k.items = items)
    (hslots : k.slots = items.slots) (hrest : k.rest = none) (hswap : k ≠ .swapLists)
    (hitem : items[j]? = some (b, none))
    (hp : s.slots p = old) (hold : old ≠ .held a) (h₁ : s₁.slots = s.slots)
    (hcontents : s₁.contents = s.contents) (hclearer : s₁.clearer = s.clearer)
    (hguard : s₁.markedGuard = s.markedGuard) :
    (QueuePlace.copy items j p).Valid a (s₁.moveSlots [p] (.held a)) where
  held q := by
    refine Iff.trans ?_ SharedManager.moveSlots_new.symm
    rw [h₁, ← hk.held q, hslots, List.mem_singleton, or_comm]
    exact List.mem_cons
  heldNodup := by
    refine List.nodup_cons.mpr ⟨fun hmem => hold ?_, hslots ▸ hk.heldNodup⟩
    rw [← hp]
    exact (hk.held p).mp (hslots ▸ hmem)
  contents buffer q hq := by
    change s₁.contents q = _
    rw [hcontents]
    exact hk.contents buffer q (hk' ▸ hq)
  awaits := ⟨b, hitem⟩
  clearer := by
    change s₁.clearer = some a ↔ _
    rw [hclearer]
    exact ⟨fun h => absurd h (hk.not_clearer hrest), fun h => by cases h⟩
  rest rest h := by cases h
  guard := by
    change s₁.markedGuard = some a ↔ _
    rw [hguard]
    exact ⟨fun h => absurd h (hk.not_guard hswap), fun h => by cases h⟩

/-- Slots that the thread gives away are no longer its. -/
theorem QueuePlace.Valid.not_held_move (hk : k.Valid a s) {ps : List ℕ} {new : SlotPlace T}
    {s₁ : SharedManager T β} (hps : k.slots = ps) (h₁ : s₁.slots = s.slots)
    (hnew : .held a ≠ new) (p : ℕ) : (s₁.moveSlots ps new).slots p ≠ .held a := by
  intro hp
  obtain ⟨hheld, hmem⟩ := (SharedManager.moveSlots_old hnew).mp hp
  rw [h₁] at hheld
  exact hmem (hps ▸ (hk.held p).mpr hheld)

theorem QueuePlace.Valid.step (hs : s.Valid) (hk : k.Valid a s) (h : QueueStep n a s k s' k') :
    k'.Valid a s' := by
  cases h with
  | callManage hplace =>
      subst hplace
      exact .of_outside (HeldBuffers.slots_start _) (HeldBuffers.slots_start _) trivial rfl
        (by simp) (hk.not_held rfl) (hk.not_clearer rfl) (hk.not_guard (by simp))
  | callMark hplace | ret hplace | markBusy hplace =>
      subst hplace
      exact .of_outside rfl rfl trivial rfl (by simp) (hk.not_held rfl) (hk.not_clearer rfl)
        (hk.not_guard (by simp))
  | callClear hplace hmarked hnone =>
      subst hplace
      exact
        { held := hk.held
          heldNodup := List.nodup_nil
          contents := hk.contents
          awaits := trivial
          clearer := ⟨fun _ => rfl, fun _ => rfl⟩
          rest := by
            rintro _ ⟨⟩
            exact ⟨hs.markedNodup hnone, hs.marked hnone⟩
          guard := ⟨fun h => absurd h (hk.not_guard (by simp)), fun h => by cases h⟩ }
  | @pop items j buffer p cached hplace hitem hcached =>
      subst hplace
      have hp : s.slots p = .cached :=
        (hs.cached p).mp (by rw [hcached]; exact List.mem_cons_self)
      exact hk.copy rfl rfl rfl (by simp) hitem hp (by simp) rfl rfl rfl rfl
  | noCached hplace hitem =>
      subst hplace
      exact ⟨hk.held, hk.heldNodup, hk.contents, ⟨_, hitem⟩, hk.clearer, hk.rest,
        ⟨fun h => absurd h (hk.not_guard (by simp)), fun h => by cases h⟩⟩
  | malloc hplace _ hq =>
      subst hplace
      obtain ⟨buffer, hitem⟩ := hk.awaits
      exact hk.copy rfl rfl rfl (by simp) hitem hq (by simp) rfl rfl rfl rfl
  | @copy items j p item hplace hitem =>
      subst hplace
      obtain ⟨buffer, hbuffer⟩ := hk.awaits
      obtain rfl : item = (buffer, none) := Option.some.inj (hitem.symm.trans hbuffer)
      have hperm := HeldBuffers.slots_set (p := p) hitem
      have hnodup : (p :: items.slots).Nodup := hk.heldNodup
      exact
        { held := fun q => hperm.mem_iff.trans (hk.held q)
          heldNodup := hperm.nodup_iff.mpr hnodup
          contents := by
            intro b q hq
            rcases List.mem_or_eq_of_mem_set hq with hold | hnew
            · have hne : q ≠ p := by
                rintro rfl
                exact (List.nodup_cons.mp hnodup).1 (HeldBuffers.mem_slots.mpr ⟨b, hold⟩)
              exact (Function.update_of_ne hne _ _).trans (hk.contents b q hold)
            · cases hnew
              exact Function.update_self p _ _
          awaits := trivial
          clearer := hk.clearer
          rest := fun rest h => by cases h
          guard := ⟨fun h => absurd h (hk.not_guard (by simp)), fun h => by cases h⟩ }
  | append hplace =>
      subst hplace
      exact .of_outside rfl rfl trivial rfl (by simp) (hk.not_held_move rfl rfl (by simp))
        (hk.not_clearer rfl) (hk.not_guard (by simp))
  | markFree hplace =>
      subst hplace
      exact ⟨hk.held, hk.heldNodup, hk.contents, trivial, hk.clearer, hk.rest,
        ⟨fun _ => rfl, fun _ => rfl⟩⟩
  | markNothing hplace =>
      subst hplace
      exact .of_outside rfl rfl trivial rfl (by simp) (hk.not_held rfl) (hk.not_clearer rfl)
        (by simp [SharedManager.record])
  | swap hplace =>
      subst hplace
      have hp : ∀ p ∈ s.managed, s.slots p = .managed := fun p hp => (hs.managed p).mp hp
      refine .of_outside rfl rfl trivial rfl (by simp) ?_ (hk.not_clearer rfl)
        (by simp [SharedManager.record, SharedManager.moveSlots])
      intro p hheld
      exact hk.not_held rfl p ((SharedManager.moveSlots_other hp (by simp) (by simp)).mp hheld)
  | @dispose p rest hplace =>
      subst hplace
      obtain ⟨hnodup, hrest⟩ := hk.rest _ rfl
      exact
        { held := fun q => by
            refine Iff.trans ?_ SharedManager.moveSlots_new.symm
            exact ⟨.inr, fun hq => hq.resolve_left (hk.not_held rfl q)⟩
          heldNodup := List.nodup_singleton p
          contents := fun b q hq => by cases hq
          awaits := trivial
          clearer := hk.clearer
          rest := by
            rintro _ ⟨⟩
            refine ⟨(List.nodup_cons.mp hnodup).2, fun q => ?_⟩
            refine Iff.trans ?_ (SharedManager.moveSlots_old (by simp)).symm
            change _ ↔ s.slots q = .marked ∧ _
            rw [← hrest q, List.mem_cons, List.mem_singleton]
            refine ⟨fun hq => ⟨.inr hq, ?_⟩, fun hq => hq.1.resolve_left hq.2⟩
            rintro rfl
            exact (List.nodup_cons.mp hnodup).1 hq
          guard := ⟨fun h => absurd h (hk.not_guard (by simp)), fun h => by cases h⟩ }
  | giveCached hplace | giveFree hplace =>
      subst hplace
      have hp := hk.held_of_mem _ rfl
      exact
        { held := fun q =>
            ⟨fun hq => absurd hq List.not_mem_nil,
              fun hq => absurd hq (hk.not_held_move rfl rfl (by simp) q)⟩
          heldNodup := List.nodup_nil
          contents := fun b q hq => by cases hq
          awaits := trivial
          clearer := hk.clearer
          rest := by
            rintro _ ⟨⟩
            obtain ⟨hnodup, hrest⟩ := hk.rest _ rfl
            refine ⟨hnodup, fun q => (hrest q).trans ?_⟩
            exact (SharedManager.moveSlots_other hp (by simp) (by simp)).symm
          guard := ⟨fun h => absurd h (hk.not_guard (by simp)), fun h => by cases h⟩ }
  | cleared hplace =>
      subst hplace
      exact .of_outside rfl rfl trivial rfl (by simp) (hk.not_held rfl)
        (by simp [SharedManager.record]) (hk.not_guard (by simp))

/-- The slots of the initial block stay in use, and no others are cached. -/
structure SharedManager.Kept (n : ℕ) (s : SharedManager T β) : Prop where
  initial : ∀ p < n, s.slots p ≠ .free
  cached : ∀ p, s.slots p = .cached → p < n

theorem SharedManager.Kept.of_moveSlots (hs : s.Kept n) (ps : List ℕ) (new : SlotPlace T)
    (hslots : s'.slots = (s.moveSlots ps new).slots) (hfree : new = .free → ∀ p ∈ ps, n ≤ p)
    (hcached : new = .cached → ∀ p ∈ ps, p < n) : s'.Kept n where
  initial p hp := by
    rw [hslots]
    by_cases hmem : p ∈ ps
    · simp only [moveSlots, hmem, if_true]
      exact fun hnew => absurd hp (Nat.not_lt.mpr (hfree hnew p hmem))
    · simp only [moveSlots, hmem, if_false]
      exact hs.initial p hp
  cached p hp := by
    rw [hslots] at hp
    by_cases hmem : p ∈ ps
    · simp only [moveSlots, hmem, if_true] at hp
      exact hcached hp p hmem
    · simp only [moveSlots, hmem, if_false] at hp
      exact hs.cached p hp

theorem SharedManager.Kept.step (hs : s.Kept n) (h : QueueStep n a s k s' k') : s'.Kept n := by
  cases h with
  | callManage | callMark | callClear | noCached | copy | markBusy | markFree | markNothing
  | cleared | ret => exact ⟨hs.initial, hs.cached⟩
  | @pop items j b p => exact hs.of_moveSlots [p] (.held a) rfl (by simp) (by simp)
  | @malloc items j q => exact hs.of_moveSlots [q] (.held a) rfl (by simp) (by simp)
  | @dispose p rest => exact hs.of_moveSlots [p] (.held a) rfl (by simp) (by simp)
  | @append items => exact hs.of_moveSlots items.slots .managed rfl (by simp) (by simp)
  | swap => exact hs.of_moveSlots s.managed .marked rfl (by simp) (by simp)
  | @giveCached p rest _ hp =>
      refine hs.of_moveSlots [p] .cached rfl (by simp) fun _ q hq => ?_
      rwa [List.mem_singleton.mp hq]
  | @giveFree p rest _ hp =>
      refine hs.of_moveSlots [p] .free rfl (fun _ q hq => ?_) (by simp)
      rwa [List.mem_singleton.mp hq]

end Preserve

section Reachable

theorem SharedManager.valid_construct (n : ℕ) : (construct T β n).Valid where
  cached p := by
    by_cases hp : p < n <;> simp [construct, hp]
  cachedNodup := List.nodup_reverse.mpr List.nodup_range
  managed p := by
    by_cases hp : p < n <;> simp [construct, hp]
  managedNodup := List.nodup_nil
  marked _ p := by
    by_cases hp : p < n <;> simp [construct, hp]
  markedNodup _ := List.nodup_nil
  busy h := absurd rfl h
  swapping h := absurd rfl h

theorem SharedManager.kept_construct (n : ℕ) : (construct T β n).Kept n where
  initial p hp := by simp [construct, hp]
  cached p := by
    by_cases hp : p < n <;> simp [construct, hp]

theorem QueuePlace.valid_construct (n : ℕ) (a : T) :
    (QueuePlace.idle : QueuePlace β).Valid a (.construct T β n) := by
  have hheld : ∀ p, (SharedManager.construct T β n).slots p ≠ .held a := by
    intro p
    by_cases hp : p < n <;> simp [SharedManager.construct, hp]
  exact .of_outside rfl rfl trivial rfl (by simp) hheld (by simp [SharedManager.construct])
    (by simp [SharedManager.construct])

variable {n : ℕ}

theorem SharedManager.Valid.nodup_append {s : SharedManager T β} (hs : s.Valid) :
    (s.cached ++ s.managed).Nodup := by
  apply hs.cachedNodup.append hs.managedNodup
  intro p hcached hmanaged
  have h := ((hs.cached p).mp hcached).symm.trans ((hs.managed p).mp hmanaged)
  cases h

/-- The slots of the lists, with those that are marked or that `clear_marked` has still to
dispose of. -/
theorem SharedManager.Valid.nodup_append_marked {s : SharedManager T β} (hs : s.Valid)
    {ps : List ℕ} (hps : ps.Nodup) (hmarked : ∀ p ∈ ps, s.slots p = .marked) :
    (s.cached ++ s.managed ++ ps).Nodup := by
  apply hs.nodup_append.append hps
  intro p hp hmem
  rcases List.mem_append.mp hp with hcached | hmanaged
  · have h := ((hs.cached p).mp hcached).symm.trans (hmarked p hmem)
    cases h
  · have h := ((hs.managed p).mp hmanaged).symm.trans (hmarked p hmem)
    cases h

/-- A step writes to no buffers but those its thread holds or disposes of. -/
theorem QueueStep.contents_eq {a : T} {s s' : SharedManager T β} {k k' : QueuePlace β}
    (h : QueueStep n a s k s' k') {p : ℕ} (hp : p ∉ k.slots)
    (hrest : ∀ rest, k.rest = some rest → p ∉ rest) : s'.contents p = s.contents p := by
  cases h with
  | @copy items j q item hplace =>
      subst hplace
      have hne : p ≠ q := fun heq => hp (heq ▸ List.mem_cons_self)
      exact Function.update_of_ne hne _ _
  | @dispose q rest hplace =>
      subst hplace
      have hne : p ≠ q := fun heq => hrest _ rfl (heq ▸ List.mem_cons_self)
      exact Function.update_of_ne hne _ _
  | _ => rfl

variable [DecidableEq T] {c : Config T (SharedManager T β) (QueuePlace β)}

/-- What holds of the manager and its threads at every point. -/
theorem SharedManager.valid_of_reachable (h : (sharedManagerSystem T β n).Reachable c) :
    (c.shared.Valid ∧ c.shared.Kept n) ∧ ∀ a, (c.pc a).Valid a c.shared := by
  apply h.invariant
    (I := fun c => (c.shared.Valid ∧ c.shared.Kept n) ∧ ∀ a, (c.pc a).Valid a c.shared)
  · rintro _ rfl
    exact ⟨⟨valid_construct n, kept_construct n⟩, QueuePlace.valid_construct n⟩
  · rintro c ⟨a, e⟩ d ⟨⟨hs, hkept⟩, hthreads⟩ hd
    obtain ⟨s, k, hact, rfl⟩ := Config.step_eq_some hd
    have hstep := SharedManager.act_cases hact
    refine ⟨⟨hs.step (hthreads a) hstep, hkept.step hstep⟩, ?_⟩
    exact Config.forall_pc_move (P := fun b (k : QueuePlace β) => k.Valid b s)
      ((hthreads a).step hs hstep)
      fun b hne => (hthreads b).of_leaves (hstep.leaves hs (hthreads a) hne)

/-- However the threads are interleaved, no slot is twice in the lists, at most one thread is in
`clear_marked`, no slot that a thread holds, to copy a buffer into or to give it back, is in a
list or held by another thread, and no buffer is written but by the thread that has its slot. -/
theorem shared_slots_exclusive (h : (sharedManagerSystem T β n).Reachable c) :
    (c.shared.clearer = none → (c.shared.cached ++ c.shared.managed ++ c.shared.marked).Nodup) ∧
    (∀ a rest, (c.pc a).rest = some rest →
      (c.shared.cached ++ c.shared.managed ++ rest).Nodup ∧
        ∀ b, (c.pc b).rest.isSome = true → b = a) ∧
    (∀ a, (c.pc a).slots.Nodup ∧ ∀ p ∈ (c.pc a).slots,
      p ∉ c.shared.cached ∧ p ∉ c.shared.managed ∧
        (c.shared.clearer = none → p ∉ c.shared.marked) ∧
        (∀ b rest, (c.pc b).rest = some rest → p ∉ rest) ∧
        ∀ b, b ≠ a → p ∉ (c.pc b).slots) ∧
    ∀ a e d, (sharedManagerSystem T β n).Step c (a, e) d →
      ∀ p, d.shared.contents p ≠ c.shared.contents p →
        p ∈ (c.pc a).slots ∨ ∃ rest, (c.pc a).rest = some rest ∧ p ∈ rest := by
  obtain ⟨⟨hs, -⟩, hthreads⟩ := SharedManager.valid_of_reachable h
  refine ⟨fun hnone => ?_, fun a rest hrest => ⟨?_, fun b hb => ?_⟩, fun a => ⟨?_, ?_⟩, ?_⟩
  · exact hs.nodup_append_marked (hs.markedNodup hnone) fun p hp => (hs.marked hnone p).mp hp
  · obtain ⟨hnodup, hmem⟩ := (hthreads a).rest rest hrest
    exact hs.nodup_append_marked hnodup fun p hp => (hmem p).mp hp
  · have ha := (hthreads a).clearer.mpr (by rw [hrest]; rfl)
    have hb := (hthreads b).clearer.mpr hb
    exact Option.some.inj (hb.symm.trans ha)
  · exact (hthreads a).heldNodup
  · intro p hp
    have hheld := ((hthreads a).held p).mp hp
    refine ⟨fun hmem => ?_, fun hmem => ?_, fun hnone hmem => ?_, fun b rest hrest hmem => ?_,
      fun b hne hmem => ?_⟩
    · cases hheld.symm.trans ((hs.cached p).mp hmem)
    · cases hheld.symm.trans ((hs.managed p).mp hmem)
    · cases hheld.symm.trans ((hs.marked hnone p).mp hmem)
    · cases hheld.symm.trans ((((hthreads b).rest rest hrest).2 p).mp hmem)
    · cases hheld.symm.trans (((hthreads b).held p).mp hmem)
      exact hne rfl
  · intro a e d hd p hne
    obtain ⟨s, k, hact, rfl⟩ := Config.step_eq_some hd
    by_contra hout
    refine hne ((SharedManager.act_cases hact).contents_eq (fun hp => hout (.inl hp)) ?_)
    exact fun rest hrest hp => hout (.inr ⟨rest, hrest, hp⟩)

/-- One thread has two buffers copied, one of them into a slot of the pool, while another has
the second slot of the cache. -/
def twoThreads : List (Bool × QueueEvent ℕ) :=
  [(false, .call (.manage [5, 6])), (true, .call (.manage [7])), (false, .hold 1), (true, .hold 0),
    (false, .run), (false, .hold 0), (true, .run), (false, .malloc 2), (true, .run)]

theorem shared_slots_exclusive_twoThreads :
    ∃ c : Config Bool (SharedManager Bool ℕ) (QueuePlace ℕ),
      (c.pc false = .copy [(5, none), (6, some 1)] 0 2 ∧ c.shared.managed = [0]) ∧
        (c.shared.cached ++ c.shared.managed ++ c.shared.marked).Nodup := by
  obtain ⟨c, hc, hp⟩ := TransitionSystem.exists_reachable_of_exec
    (s := ⟨.construct Bool ℕ 2, fun _ => .idle⟩)
    (· = ⟨.construct Bool ℕ 2, fun _ => .idle⟩) (Config.step (SharedManager.act 2)) twoThreads
    (fun c => decide ((c.pc false = .copy [(5, none), (6, some 1)] 0 2 ∧ c.shared.managed = [0]) ∧
      c.shared.clearer = none)) rfl (by decide +kernel)
  have hp := of_decide_eq_true hp
  exact ⟨c, hp.1, (shared_slots_exclusive hc).1 hp.2⟩

/-- No slot of the initial block gets lost: each is in a list or with a thread, and when no
thread is in a function the cache has exactly those that are neither managed nor marked. -/
theorem initial_slots_kept (h : (sharedManagerSystem T β n).Reachable c) :
    (∀ p < n, p ∈ c.shared.cached ∨ p ∈ c.shared.managed ∨
      (c.shared.clearer = none ∧ p ∈ c.shared.marked) ∨
        ∃ a, p ∈ (c.pc a).slots ∨ ∃ rest, (c.pc a).rest = some rest ∧ p ∈ rest) ∧
    ((∀ a, c.pc a = .idle) →
      (c.shared.cached ++ (c.shared.managed ++ c.shared.marked).filter (· < n)).Perm
        (List.range n)) := by
  obtain ⟨⟨hs, hkept⟩, hthreads⟩ := SharedManager.valid_of_reachable h
  have hplaces : ∀ p < n, p ∈ c.shared.cached ∨ p ∈ c.shared.managed ∨
      (c.shared.clearer = none ∧ p ∈ c.shared.marked) ∨
        ∃ a, p ∈ (c.pc a).slots ∨ ∃ rest, (c.pc a).rest = some rest ∧ p ∈ rest := by
    intro p hp
    cases hplace : c.shared.slots p with
    | free => exact absurd hplace (hkept.initial p hp)
    | cached => exact .inl ((hs.cached p).mpr hplace)
    | managed => exact .inr (.inl ((hs.managed p).mpr hplace))
    | held a => exact .inr (.inr (.inr ⟨a, .inl (((hthreads a).held p).mpr hplace)⟩))
    | marked =>
        cases hclearer : c.shared.clearer with
        | none => exact .inr (.inr (.inl ⟨rfl, (hs.marked hclearer p).mpr hplace⟩))
        | some a =>
            obtain ⟨rest, hrest⟩ := Option.isSome_iff_exists.mp ((hthreads a).clearer.mp hclearer)
            have hmem := (((hthreads a).rest rest hrest).2 p).mpr hplace
            exact .inr (.inr (.inr ⟨a, .inr ⟨rest, hrest, hmem⟩⟩))
  refine ⟨hplaces, fun hidle => ?_⟩
  have hnone : c.shared.clearer = none := by
    by_contra hne
    obtain ⟨a, ha⟩ := Option.ne_none_iff_exists'.mp hne
    have hrest := (hthreads a).clearer.mp ha
    rw [hidle a] at hrest
    cases hrest
  have hnodup := hs.nodup_append_marked (hs.markedNodup hnone) fun p hp =>
    (hs.marked hnone p).mp hp
  rw [List.append_assoc] at hnodup
  apply (List.perm_ext_iff_of_nodup (hnodup.sublist ?_) List.nodup_range).mpr
  · intro p
    rw [List.mem_append, List.mem_filter, List.mem_append, List.mem_range, decide_eq_true_iff]
    refine ⟨fun hp => hp.elim (fun hcached => ?_) And.right, fun hp => ?_⟩
    · exact hkept.cached p ((hs.cached p).mp hcached)
    · rcases hplaces p hp with hcached | hmanaged | ⟨-, hmarked⟩ | ⟨a, ha⟩
      · exact .inl hcached
      · exact .inr ⟨.inl hmanaged, hp⟩
      · exact .inr ⟨.inr hmarked, hp⟩
      · rw [hidle a] at ha
        rcases ha with ha | ⟨rest, hrest, -⟩
        · exact absurd ha List.not_mem_nil
        · cases hrest
  · exact (List.Sublist.refl _).append List.filter_sublist

/-- One thread marks and clears what another has given to the manager. -/
def markAndClear : List (Bool × QueueEvent ℕ) :=
  [(false, .call (.manage [5, 6])), (false, .hold 0), (false, .run), (false, .hold 1),
    (false, .malloc 1), (false, .run), (false, .run), (false, .run), (true, .call .mark),
    (true, .run), (true, .run), (true, .run), (true, .call .clearMarked), (true, .run),
    (true, .run), (true, .run), (true, .run), (true, .run), (true, .run)]

theorem initial_slots_kept_markAndClear :
    ∃ c : Config Bool (SharedManager Bool ℕ) (QueuePlace ℕ),
      (c.shared.managed = [] ∧ c.shared.marker = 1) ∧
        (c.shared.cached ++ (c.shared.managed ++ c.shared.marked).filter (· < 1)).Perm
          (List.range 1) := by
  obtain ⟨c, hc, hp⟩ := TransitionSystem.exists_reachable_of_exec
    (s := ⟨.construct Bool ℕ 1, fun _ => .idle⟩)
    (· = ⟨.construct Bool ℕ 1, fun _ => .idle⟩) (Config.step (SharedManager.act 1)) markAndClear
    (fun c => decide ((c.shared.managed = [] ∧ c.shared.marker = 1) ∧ ∀ a, c.pc a = .idle)) rfl
    (by decide +kernel)
  have hp := of_decide_eq_true hp
  exact ⟨c, hp.1, (initial_slots_kept hc).2 hp.2⟩

end Reachable

end Minapp
