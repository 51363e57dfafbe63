import Minapp.Model.Guarded
import Minapp.Verification.Spinlock

/-! # Member functions under a `lock_guard`

However the threads are interleaved at the accesses to the spinlock and to the object, the
functions take effect one after the other, each as if it ran alone. -/

namespace Minapp

open Linearization

variable {T σ ω κ ρ : Type*}

namespace GuardedClass

variable (C : GuardedClass σ ω κ ρ)

/-- The accesses of a body that runs alone, up to some place in it. -/
inductive Accesses (x : σ) (k : κ) : σ → κ → Prop where
  | nil : Accesses x k x k
  | snoc {y k' z k''} : Accesses x k y k' → C.step y k' = (z, .inl k'') → Accesses x k z k''

/-- The function, executed alone. -/
inductive Call (x : σ) (op : ω) : ρ → σ → Prop where
  | mk {y k z result} : C.Accesses x (C.start op) y k → C.step y k = (z, .inr result) →
      Call x op result z

end GuardedClass

/-- How far the thread is with a function. -/
def GuardedPlace.phase : GuardedPlace ω κ ρ → Phase ω ρ
  | .idle => .idle
  | .locking op | .body op _ => .called op
  | .unlocking op result => .effected op result

def GuardedPlace.inBody : GuardedPlace ω κ ρ → Bool
  | .body _ _ => true
  | _ => false

/-- Where a thread is in the spinlock. -/
def GuardedThread.Consistent (l : GuardedThread ω κ ρ) : Prop :=
  match l.place with
  | .idle => l.spin = {}
  | .locking _ => l.spin.place.inLock = true ∧ l.spin.holds = false
  | .body _ _ => l.spin = { holds := true }
  | .unlocking _ _ =>
    l.spin = { place := .clear, holds := true } ∨ ∃ m, l.spin = { place := .notifyOne m }

/-- No thread is in a body and the effects so far lead to the object, or one thread is, and
the accesses it has made lead from there to the object. -/
def Guarded.Explained (C : GuardedClass σ ω κ ρ) (init : σ) (c : Guarded T σ ω κ ρ) : Prop :=
  ∃ x, Sequential (fun x _ op r y => C.Call x op r y) init c.shared.trace x ∧
    ((∀ a, (c.pc a).place.inBody = false) ∧ c.shared.object = x ∨
      ∃ a op k, (c.pc a).place = .body op k ∧ C.Accesses x (C.start op) c.shared.object k)

/-- A thread in its body is the one that has made accesses. -/
theorem Guarded.Explained.accesses {C : GuardedClass σ ω κ ρ} {init : σ}
    {c : Guarded T σ ω κ ρ} {a : T} {op : ω} {k : κ} (hc : c.Explained C init)
    (ha : (c.pc a).place = .body op k)
    (hunique : ∀ b, (c.pc b).place.inBody = true → b = a) :
    ∃ x, Sequential (fun x _ op r y => C.Call x op r y) init c.shared.trace x ∧
      C.Accesses x (C.start op) c.shared.object k := by
  obtain ⟨x, hx, ⟨hnone, -⟩ | ⟨b, op', k', hb, hacc⟩⟩ := hc
  · have h := hnone a
    rw [ha] at h
    cases h
  · obtain rfl := hunique b (by rw [hb]; rfl)
    rw [ha] at hb
    cases hb
    exact ⟨x, hx, hacc⟩

section Steps

variable [DecidableEq T] {C : GuardedClass σ ω κ ρ} {build : SpinBuild} {a : T}
  {s s' : GuardedState T σ ω ρ} {l l' : GuardedThread ω κ ρ}

variable (C build) in
inductive GuardedStep (a : T) (s : GuardedState T σ ω ρ) (l : GuardedThread ω κ ρ) :
    GuardedState T σ ω ρ → GuardedThread ω κ ρ → Prop
  | call {op spin thread} : l.place = .idle →
      s.spin.act build a l.spin .lock = some (spin, thread) →
      GuardedStep a s l ({ s with spin }.record (.call a op)) ⟨thread, .locking op⟩
  | lock {op e spin thread} : l.place = .locking op →
      s.spin.act build a l.spin e = some (spin, thread) → thread.holds = false →
      GuardedStep a s l { s with spin } ⟨thread, .locking op⟩
  | acquired {op e spin thread} : l.place = .locking op →
      s.spin.act build a l.spin e = some (spin, thread) → thread.holds = true →
      GuardedStep a s l { s with spin } ⟨thread, .body op (C.start op)⟩
  | unlock {op result e spin thread} : l.place = .unlocking op result →
      s.spin.act build a l.spin e = some (spin, thread) → thread.place ≠ .idle →
      GuardedStep a s l { s with spin } ⟨thread, .unlocking op result⟩
  | returned {op result e spin thread} : l.place = .unlocking op result →
      s.spin.act build a l.spin e = some (spin, thread) → thread.place = .idle →
      GuardedStep a s l ({ s with spin }.record (.ret a op result)) ⟨thread, .idle⟩
  | body {op k object k'} : l.place = .body op k → C.step s.object k = (object, .inl k') →
      GuardedStep a s l { s with object } { l with place := .body op k' }
  | ret {op k object result spin thread} : l.place = .body op k →
      C.step s.object k = (object, .inr result) →
      s.spin.act build a l.spin .unlock = some (spin, thread) →
      GuardedStep a s l ({ s with spin, object }.record (.effect a op result))
        ⟨thread, .unlocking op result⟩

theorem GuardedState.act_cases {e : GuardedEvent T ω} (h : s.act C build a l e = some (s', l')) :
    GuardedStep C build a s l s' l' := by
  cases e with
  | call op =>
      cases hplace : l.place with
      | idle =>
          simp only [act, hplace] at h
          obtain ⟨⟨spin, thread⟩, hspin, heq⟩ := Option.map_eq_some_iff.mp h
          obtain ⟨rfl, rfl⟩ := Prod.mk.inj heq
          exact .call hplace hspin
      | _ => simp [act, hplace] at h
  | spin e =>
      obtain ⟨thread₀, place⟩ := l
      cases place with
      | locking op =>
          simp only [act] at h
          split at h
          · cases h
          · obtain ⟨⟨spin, thread⟩, hspin, heq⟩ := Option.map_eq_some_iff.mp h
            cases hholds : thread.holds with
            | false =>
                simp only [afterSpin, hholds, Bool.false_eq_true, if_false] at heq
                obtain ⟨rfl, rfl⟩ := Prod.mk.inj heq
                exact .lock rfl hspin hholds
            | true =>
                simp only [afterSpin, hholds, if_true] at heq
                obtain ⟨rfl, rfl⟩ := Prod.mk.inj heq
                exact .acquired rfl hspin hholds
      | unlocking op result =>
          simp only [act] at h
          split at h
          · cases h
          · obtain ⟨⟨spin, thread⟩, hspin, heq⟩ := Option.map_eq_some_iff.mp h
            by_cases hidle : thread.place = .idle
            · simp only [afterSpin, hidle, if_true] at heq
              obtain ⟨rfl, rfl⟩ := Prod.mk.inj heq
              exact .returned rfl hspin hidle
            · simp only [afterSpin, hidle, if_false] at heq
              obtain ⟨rfl, rfl⟩ := Prod.mk.inj heq
              exact .unlock rfl hspin hidle
      | _ => simp [act] at h
  | body =>
      cases hplace : l.place with
      | body op k =>
          simp only [act, hplace] at h
          split at h
          · rename_i object k' hstep
            obtain ⟨rfl, rfl⟩ := Prod.mk.inj (Option.some.inj h)
            exact .body hplace hstep
          · rename_i object result hstep
            obtain ⟨⟨spin, thread⟩, hspin, heq⟩ := Option.map_eq_some_iff.mp h
            obtain ⟨rfl, rfl⟩ := Prod.mk.inj heq
            exact .ret hplace hstep hspin
      | _ => simp [act, hplace] at h

/-- An access to the spinlock in the constructor of the guard. -/
theorem SpinStep.of_inLock {s s' : SpinState T} {l l' : SpinThread} (h : SpinStep build a s l s' l')
    (hplace : l.place.inLock = true) (hholds : l.holds = false) :
    l' = { holds := true } ∨ l'.place.inLock = true ∧ l'.holds = false := by
  cases h with
  | enter hidle | unlock hidle | clear hidle | notify hidle =>
      rw [hidle] at hplace
      cases hplace
  | @fail locks htas hset =>
      rw [htas] at hplace
      obtain rfl : locks = true := hplace
      refine .inr ⟨?_, hholds⟩
      cases build <;> rfl
  | acquire => exact .inl rfl
  | block | poll | unblock => exact .inr ⟨hplace, hholds⟩
  | retry => exact .inr ⟨rfl, hholds⟩

/-- An access to the spinlock in the destructor of the guard. -/
theorem SpinStep.of_unlocking {s s' : SpinState T} {l l' : SpinThread}
    (h : SpinStep build a s l s' l')
    (hl : l = { place := .clear, holds := true } ∨ ∃ m, l = { place := .notifyOne m }) :
    l' = {} ∨ l' = { place := .clear, holds := true } ∨ ∃ m, l' = { place := .notifyOne m } := by
  rcases hl with rfl | ⟨m, rfl⟩
  · cases h with
    | clear =>
        cases build
        · exact .inr (.inr ⟨_, rfl⟩)
        · exact .inl rfl
        · exact .inl rfl
    | unblock => exact .inr (.inl rfl)
    | enter h | unlock h | fail h | acquire h | block h | poll h | notify h => cases h
    | retry h => rcases h with h | h <;> first | cases h.1 | cases h
  · cases h with
    | notify => exact .inl rfl
    | unblock => exact .inr (.inr ⟨m, rfl⟩)
    | enter h | unlock h | fail h | acquire h | block h | poll h | clear h => cases h
    | retry h => rcases h with h | h <;> first | cases h.1 | cases h

/-! ## The spinlock by itself -/

/-- The spinlock and its threads, without the object. -/
def Guarded.spinlock (c : Guarded T σ ω κ ρ) : Spinlock T :=
  ⟨c.shared.spin, fun a => (c.pc a).spin⟩

theorem Guarded.spinlock_move (c : Guarded T σ ω κ ρ) (a : T) (s : GuardedState T σ ω ρ)
    (l : GuardedThread ω κ ρ) :
    Guarded.spinlock (c.move a s l) = c.spinlock.move a s.spin l.spin := by
  have hpc : (fun b => ((c.move a s l).pc b).spin) = (c.spinlock.move a s.spin l.spin).pc := by
    funext b
    rcases eq_or_ne b a with rfl | hne
    · rw [Config.move_pc_self, Config.move_pc_self]
    · rw [Config.move_pc_of_ne c hne, Config.move_pc_of_ne c.spinlock hne]
      rfl
  rw [spinlock, hpc]
  rfl

/-- A step of a thread is one of the spinlock, or leaves it alone. -/
theorem GuardedStep.spin_cases (h : GuardedStep C build a s l s' l') :
    (s'.spin = s.spin ∧ l'.spin = l.spin) ∨
      ∃ e, s.spin.act build a l.spin e = some (s'.spin, l'.spin) := by
  cases h with
  | body => exact .inl ⟨rfl, rfl⟩
  | call _ hspin | lock _ hspin | acquired _ hspin | unlock _ hspin | returned _ hspin
  | ret _ _ hspin => exact .inr ⟨_, hspin⟩

theorem Guarded.reachable_spinlock {init : σ} {c : Guarded T σ ω κ ρ}
    (h : (guardedSystem T C build init).Reachable c) :
    (spinlockSystem T build).Reachable c.spinlock := by
  apply h.invariant (I := fun c => (spinlockSystem T build).Reachable c.spinlock)
  · rintro _ rfl
    exact .init rfl
  · rintro c ⟨a, e⟩ d hc hd
    obtain ⟨s, l, hact, rfl⟩ := Config.step_eq_some hd
    rw [spinlock_move]
    rcases (GuardedState.act_cases hact).spin_cases with ⟨hs, hl⟩ | ⟨e', hspin⟩
    · have hsame : c.spinlock.move a s.spin l.spin = c.spinlock := by
        rw [hs, hl, Config.move]
        exact congrArg (Config.mk _) (Function.update_eq_self a _)
      rwa [hsame]
    · exact hc.step (e := (a, e')) (congrArg (Option.map _) hspin)

/-! ## The functions take effect one after the other -/

theorem GuardedThread.Consistent.holds_of_inBody (hl : l.Consistent)
    (hbody : l.place.inBody = true) : l.spin.holds = true := by
  cases hplace : l.place with
  | body op k =>
      rw [Consistent, hplace] at hl
      have hl : l.spin = { holds := true } := hl
      rw [hl]
  | _ =>
      rw [hplace] at hbody
      cases hbody

theorem GuardedStep.consistent (hl : l.Consistent) (h : GuardedStep C build a s l s' l') :
    l'.Consistent := by
  rw [GuardedThread.Consistent] at hl
  cases h with
  | call hplace hspin =>
      rw [hplace] at hl
      have hl : l.spin = {} := hl
      rw [hl] at hspin
      simp only [SpinState.act, if_true, Option.some.injEq, Prod.mk.injEq] at hspin
      exact ⟨by rw [← hspin.2]; rfl, by rw [← hspin.2]⟩
  | @lock op e spin thread hplace hspin hholds =>
      rw [hplace] at hl
      rcases (SpinState.act_cases hspin).of_inLock hl.1 hl.2 with rfl | hthread
      · cases hholds
      · exact hthread
  | @acquired op e spin thread hplace hspin hholds =>
      rw [hplace] at hl
      rcases (SpinState.act_cases hspin).of_inLock hl.1 hl.2 with rfl | hthread
      · rfl
      · exact absurd (hholds.symm.trans hthread.2) (by decide)
  | @unlock op result e spin thread hplace hspin hidle =>
      rw [hplace] at hl
      rcases (SpinState.act_cases hspin).of_unlocking hl with rfl | hthread
      · exact absurd rfl hidle
      · exact hthread
  | @returned op result e spin thread hplace hspin hidle =>
      rw [hplace] at hl
      rcases (SpinState.act_cases hspin).of_unlocking hl with rfl | rfl | ⟨m, rfl⟩
      · rfl
      · cases hidle
      · cases hidle
  | body hplace =>
      rw [hplace] at hl
      exact hl
  | ret hplace _ hspin =>
      rw [hplace] at hl
      have hl : l.spin = { holds := true } := hl
      rw [hl] at hspin
      simp only [SpinState.act, and_self, if_true, Option.some.injEq, Prod.mk.injEq] at hspin
      exact .inl hspin.2.symm

/-- A step goes on with the function of its thread, at the events it records. -/
theorem GuardedStep.progress (h : GuardedStep C build a s l s' l')
    (hprogress : Progress a s.trace l.place.phase) : Progress a s'.trace l'.place.phase := by
  cases h with
  | call hplace =>
      rw [hplace] at hprogress
      exact .call hprogress
  | lock hplace | acquired hplace | unlock hplace | body hplace =>
      rw [hplace] at hprogress
      exact hprogress
  | returned hplace =>
      rw [hplace] at hprogress
      exact .ret hprogress
  | ret hplace =>
      rw [hplace] at hprogress
      exact .effect hprogress

/-- The events of a step are its thread's. -/
theorem GuardedStep.trace_eq (h : GuardedStep C build a s l s' l') :
    s'.trace = s.trace ∨ ∃ e, e.thread = a ∧ s'.trace = s.trace ++ [e] := by
  cases h with
  | call | returned | ret => exact .inr ⟨_, rfl, rfl⟩
  | lock | acquired | unlock | body => exact .inl rfl

namespace Guarded.Explained

variable {init : σ} {c : Guarded T σ ω κ ρ}

/-- A thread that stays outside its body records at most a call or a return. -/
theorem move_outside (hc : c.Explained C init) (hbody : (c.pc a).place.inBody = false)
    (hbody' : l.place.inBody = false) (hobject : s.object = c.shared.object)
    (htrace : ∀ x, Sequential (fun x _ op r y => C.Call x op r y) init c.shared.trace x →
      Sequential (fun x _ op r y => C.Call x op r y) init s.trace x) :
    Guarded.Explained C init (c.move a s l) := by
  obtain ⟨x, hx, ⟨hnone, hobj⟩ | ⟨b, op, k, hb, hacc⟩⟩ := hc
  · refine ⟨x, htrace x hx, .inl ⟨?_, hobject.trans hobj⟩⟩
    exact Config.forall_pc_move (P := fun _ (k : GuardedThread ω κ ρ) => k.place.inBody = false)
      hbody' fun b _ => hnone b
  · have hne : b ≠ a := by
      rintro rfl
      rw [hb] at hbody
      cases hbody
    refine ⟨x, htrace x hx, .inr ⟨b, op, k, ?_, ?_⟩⟩
    · rw [Config.move_pc_of_ne c hne]
      exact hb
    · rw [Config.move_shared, hobject]
      exact hacc

theorem step (hc : c.Explained C init) (hcons : ∀ b, (c.pc b).Consistent)
    (hexcl : c.spinlock.Exclusive) (hexcl' : (Guarded.spinlock (c.move a s l)).Exclusive)
    (h : GuardedStep C build a c.shared (c.pc a) s l) :
    Guarded.Explained C init (c.move a s l) := by
  have hholds : ∀ b, (c.pc b).place.inBody = true → (c.pc b).spin.holds = true :=
    fun b hb => (hcons b).holds_of_inBody hb
  have hunique : ∀ {op k}, (c.pc a).place = .body op k →
      ∀ b, (c.pc b).place.inBody = true → b = a := by
    intro op k ha b hb
    exact hexcl.unique b a (hholds b hb) (hholds a (by rw [ha]; rfl))
  cases h with
  | call hplace => exact hc.move_outside (by rw [hplace]; rfl) rfl rfl fun x hx => .call hx
  | lock hplace | unlock hplace =>
      exact hc.move_outside (by rw [hplace]; rfl) rfl rfl fun x hx => hx
  | returned hplace => exact hc.move_outside (by rw [hplace]; rfl) rfl rfl fun x hx => .ret hx
  | @acquired op e spin thread hplace hspin hthread =>
      have hnone : ∀ b, (c.pc b).place.inBody ≠ true := by
        intro b hb
        have hne : b ≠ a := by
          rintro rfl
          rw [hplace] at hb
          cases hb
        -- two threads would have the lock after the step
        rw [Guarded.spinlock_move] at hexcl'
        refine hne (hexcl'.unique b a ?_ ?_)
        · rw [Config.move_pc_of_ne c.spinlock hne]
          exact hholds b hb
        · rw [Config.move_pc_self]
          exact hthread
      obtain ⟨x, hx, ⟨-, hobj⟩ | ⟨b, op', k', hb, -⟩⟩ := hc
      · refine ⟨x, hx, .inr ⟨a, op, C.start op, by rw [Config.move_pc_self], ?_⟩⟩
        subst hobj
        exact .nil
      · exact absurd (by rw [hb]; rfl) (hnone b)
  | @body op k object k' hplace hstep =>
      obtain ⟨x, hx, hacc⟩ := hc.accesses hplace (hunique hplace)
      exact ⟨x, hx, .inr ⟨a, op, k', by rw [Config.move_pc_self], hacc.snoc hstep⟩⟩
  | @ret op k object result spin thread hplace hstep hspin =>
      obtain ⟨x, hx, hacc⟩ := hc.accesses hplace (hunique hplace)
      refine ⟨object, .effect hx (.mk hacc hstep), .inl ⟨?_, rfl⟩⟩
      refine Config.forall_pc_move (P := fun _ (k : GuardedThread ω κ ρ) => k.place.inBody = false)
        rfl fun b hne => ?_
      rw [← Bool.not_eq_true]
      exact fun hb => hne (hunique hplace b hb)

end Guarded.Explained

theorem Guarded.invariant_of_reachable {init : σ} {c : Guarded T σ ω κ ρ}
    (h : (guardedSystem T C build init).Reachable c) :
    c.Explained C init ∧ ∀ a, (c.pc a).Consistent ∧
      Progress a c.shared.trace (c.pc a).place.phase := by
  apply h.invariant_of_reachable (I := fun c => c.Explained C init ∧
    ∀ a, (c.pc a).Consistent ∧ Progress a c.shared.trace (c.pc a).place.phase)
  · rintro _ rfl
    exact ⟨⟨init, .nil, .inl ⟨fun _ => rfl, rfl⟩⟩, fun _ => ⟨rfl, .nil⟩⟩
  · rintro c ⟨a, e⟩ d hreach ⟨hexpl, hthreads⟩ hd
    have hreach' := hreach.step hd
    obtain ⟨s, l, hact, rfl⟩ := Config.step_eq_some hd
    have hstep := GuardedState.act_cases hact
    refine ⟨hexpl.step (fun b => (hthreads b).1)
      (exclusive_of_reachable (reachable_spinlock hreach))
      (exclusive_of_reachable (reachable_spinlock hreach')) hstep, ?_⟩
    refine Config.forall_pc_move (P := fun b (k : GuardedThread ω κ ρ) =>
      k.Consistent ∧ Progress b s.trace k.place.phase)
      ⟨hstep.consistent (hthreads a).1, hstep.progress (hthreads a).2⟩ fun b hne => ?_
    refine ⟨(hthreads b).1, ?_⟩
    rcases hstep.trace_eq with htrace | ⟨e', hthread, htrace⟩
    · rw [htrace]
      exact (hthreads b).2
    · rw [htrace]
      exact .other (by rw [hthread]; exact hne.symm) (hthreads b).2

/-- Whatever the functions do to the object, access by access, under the lock: at every point
of every interleaving at most one thread is in a body, the functions that have taken effect
are those of a sequential history, each executed alone and between its call and its return, which
leads to the object when no thread is in a body, and every thread has been returned what they
give. -/
theorem guarded_linearizable {init : σ} {c : Guarded T σ ω κ ρ}
    (h : (guardedSystem T C build init).Reachable c) :
    (∀ a b, (c.pc a).place.inBody = true → (c.pc b).place.inBody = true → a = b) ∧
    (∃ x, Sequential (fun x _ op r y => C.Call x op r y) init c.shared.trace x ∧
      ((∀ a, (c.pc a).place.inBody = false) → c.shared.object = x)) ∧
    ∀ a, Progress a c.shared.trace (c.pc a).place.phase ∧
      effects a c.shared.trace =
        returns a c.shared.trace ++ (c.pc a).place.phase.pending := by
  obtain ⟨hexpl, hthreads⟩ := Guarded.invariant_of_reachable h
  have hexcl := exclusive_of_reachable (Guarded.reachable_spinlock h)
  refine ⟨fun a b ha hb => ?_, ?_, fun a => ⟨(hthreads a).2, (hthreads a).2.effects_eq⟩⟩
  · exact hexcl.unique a b ((hthreads a).1.holds_of_inBody ha) ((hthreads b).1.holds_of_inBody hb)
  · obtain ⟨x, hx, ⟨-, hobj⟩ | ⟨b, op, k, hb, -⟩⟩ := hexpl
    · exact ⟨x, hx, fun _ => hobj⟩
    · refine ⟨x, hx, fun hnone => ?_⟩
      have h := hnone b
      rw [hb] at h
      cases h

end Steps

end Minapp
