import Minapp.Library.TransitionSystem
import Mathlib.Logic.Function.Basic

/-! Interleaved activations of one program: a shared state, a local state for every
activation, and steps of one activation at a time. -/

/-- The shared state, and where each activation is. -/
structure Config (T σ κ : Type*) where
  shared : σ
  pc : T → κ

namespace Config

variable {T σ κ ε : Type*} [DecidableEq T]

/-- The configuration after activation `a` has moved to `k`, leaving the shared state `s`. -/
def move (c : Config T σ κ) (a : T) (s : σ) (k : κ) : Config T σ κ :=
  ⟨s, Function.update c.pc a k⟩

@[simp] theorem move_shared (c : Config T σ κ) (a : T) (s : σ) (k : κ) :
    (c.move a s k).shared = s := rfl

@[simp] theorem move_pc_self (c : Config T σ κ) (a : T) (s : σ) (k : κ) :
    (c.move a s k).pc a = k := Function.update_self ..

theorem move_pc_of_ne (c : Config T σ κ) {a b : T} (h : b ≠ a) (s : σ) (k : κ) :
    (c.move a s k).pc b = c.pc b := Function.update_of_ne h ..

/-- One step of one activation, in which it sees the shared state and its own place. -/
def step (act : T → σ → κ → ε → Option (σ × κ)) (c : Config T σ κ) (e : T × ε) :
    Option (Config T σ κ) :=
  (act e.1 c.shared (c.pc e.1) e.2).map fun r => c.move e.1 r.1 r.2

theorem step_eq_some {act : T → σ → κ → ε → Option (σ × κ)} {c d : Config T σ κ}
    {e : T × ε} (h : c.step act e = some d) :
    ∃ s k, act e.1 c.shared (c.pc e.1) e.2 = some (s, k) ∧ d = c.move e.1 s k := by
  obtain ⟨⟨s, k⟩, hs, rfl⟩ := Option.map_eq_some_iff.mp h
  exact ⟨s, k, hs, rfl⟩

/-- What holds of every activation after a step: of the one that moved at its new place,
and of the others at their old one. -/
theorem forall_pc_move {c : Config T σ κ} {a : T} {s : σ} {k : κ} {P : T → κ → Prop}
    (ha : P a k) (hb : ∀ b, b ≠ a → P b (c.pc b)) : ∀ b, P b ((c.move a s k).pc b) := by
  intro b
  rcases eq_or_ne b a with rfl | hne
  · rw [move_pc_self]
    exact ha
  · rw [move_pc_of_ne c hne]
    exact hb b hne

/-- Some activation is still at a place of a kind, if the one that moves stays at such places. -/
theorem exists_pc_move {c : Config T σ κ} {a : T} {s : σ} {k : κ} {P : κ → Prop}
    (h : ∃ b, P (c.pc b)) (hk : P (c.pc a) → P k) : ∃ b, P ((c.move a s k).pc b) := by
  obtain ⟨b, hb⟩ := h
  rcases eq_or_ne b a with rfl | hne
  · exact ⟨b, by rw [move_pc_self]; exact hk hb⟩
  · exact ⟨b, by rwa [move_pc_of_ne c hne]⟩

end Config

/-- The interleavings of the activations `T` of a program. -/
def interleave {T σ κ ε : Type*} [DecidableEq T] (Init : Config T σ κ → Prop)
    (act : T → σ → κ → ε → Option (σ × κ)) : TransitionSystem (Config T σ κ) (T × ε) :=
  .ofStep Init (Config.step act)

/-- What one activation executes alone is a run, in which no other activation moves. -/
theorem Config.exists_run_of_exec_alone {T σ κ ε : Type*} [DecidableEq T]
    {Init : Config T σ κ → Prop} {act : T → σ → κ → ε → Option (σ × κ)} {a : T} {es : List ε}
    {c : Config T σ κ} {s : σ} {k : κ}
    (h : TransitionSystem.exec (fun (r : σ × κ) e => act a r.1 r.2 e) (c.shared, c.pc a) es =
      some (s, k)) :
    ∃ d, (interleave Init act).Run c (es.map fun e => (a, e)) d ∧ d.shared = s ∧ d.pc a = k ∧
      ∀ b, b ≠ a → d.pc b = c.pc b := by
  induction es generalizing c with
  | nil =>
      obtain ⟨rfl, rfl⟩ := Prod.mk.inj (Option.some.inj h)
      exact ⟨c, .nil, rfl, rfl, fun _ _ => rfl⟩
  | cons e es ih =>
      obtain ⟨⟨s₁, k₁⟩, hact, hrest⟩ := Option.bind_eq_some_iff.mp h
      obtain ⟨d, hr, hs, hk, hother⟩ := ih (c := c.move a s₁ k₁) (by rwa [move_pc_self])
      refine ⟨d, .cons ?_ hr, hs, hk, fun b hb => (hother b hb).trans (c.move_pc_of_ne hb ..)⟩
      have hact : act a c.shared (c.pc a) e = some (s₁, k₁) := hact
      change Option.map _ (act a c.shared (c.pc a) e) = _
      rw [hact]
      rfl

/-- What activation `a` does in steps that meet `C` while no other one moves. -/
def Config.alone {T σ κ ε : Type*} (act : T → σ → κ → ε → Option (σ × κ))
    (C : σ → κ → ε → Prop) (a : T) : TransitionSystem (σ × κ) ε where
  Init _ := True
  Step r e r' := C r.1 r.2 e ∧ act a r.1 r.2 e = some r'

/-- What it comes to alone is what the steps of the whole program that are its own come to. -/
theorem Config.inevitable_alone {T σ κ ε : Type*} [DecidableEq T] {Init : Config T σ κ → Prop}
    {act : T → σ → κ → ε → Option (σ × κ)} {C : σ → κ → ε → Prop} {P : σ → Prop} {a : T}
    {c : Config T σ κ} :
    ((interleave Init act).restrict fun c e => e.1 = a ∧ C c.shared (c.pc a) e.2).Inevitable
        (fun c => P c.shared) c ↔
      (alone act C a).Inevitable (fun r => P r.1) (c.shared, c.pc a) := by
  have hmove : ∀ {c : Config T σ κ} {e r}, (alone act C a).Step (c.shared, c.pc a) e r →
      ((interleave Init act).restrict fun c e => e.1 = a ∧ C c.shared (c.pc a) e.2).Step c (a, e)
        (c.move a r.1 r.2) := by
    rintro c e r ⟨hC, hact⟩
    exact ⟨⟨rfl, hC⟩, congrArg (Option.map _) hact⟩
  constructor
  · intro h
    induction h with
    | here hp => exact .here hp
    | @later c hex _ ih =>
        obtain ⟨⟨b, e⟩, d, ⟨rfl, hC⟩, hd⟩ := hex
        obtain ⟨s, k, hact, -⟩ := step_eq_some hd
        refine .later ⟨e, (s, k), hC, hact⟩ fun e' r hr => ?_
        have h := ih (b, e') _ (hmove hr)
        rwa [move_shared, move_pc_self] at h
  · intro h
    generalize hr : (c.shared, c.pc a) = r at h
    induction h generalizing c with
    | here hp =>
        subst hr
        exact .here hp
    | later hex _ ih =>
        subst hr
        obtain ⟨e, r, hr⟩ := hex
        refine .later ⟨(a, e), _, hmove hr⟩ ?_
        rintro ⟨b, e'⟩ d ⟨⟨rfl, hC⟩, hd⟩
        obtain ⟨s, k, hact, rfl⟩ := step_eq_some hd
        exact ih e' (s, k) ⟨hC, hact⟩ (by rw [move_shared, move_pc_self])

/-- The rule for an invariant made of a part about the shared state and one about each
activation: a step from a reachable state keeps the shared part, gives its own, and does
not interfere with the part of any other activation. -/
theorem TransitionSystem.Reachable.interleave_invariant {T σ κ ε : Type*} [DecidableEq T]
    {Init : Config T σ κ → Prop} {act : T → σ → κ → ε → Option (σ × κ)}
    {C : Config T σ κ → T × ε → Prop} {G : σ → Prop} {L : T → σ → κ → Prop} {c : Config T σ κ}
    (h : ((interleave Init act).restrict C).Reachable c)
    (h₀ : ∀ c, Init c → G c.shared ∧ ∀ a, L a c.shared (c.pc a))
    (hstep : ∀ c a e s k, ((interleave Init act).restrict C).Reachable c →
      G c.shared → (∀ b, L b c.shared (c.pc b)) → C c (a, e) →
      act a c.shared (c.pc a) e = some (s, k) →
        G s ∧ L a s k ∧ ∀ b, b ≠ a → L b s (c.pc b)) :
    G c.shared ∧ ∀ a, L a c.shared (c.pc a) := by
  apply h.invariant_of_reachable h₀
  rintro c ⟨a, e⟩ d hc ⟨hg, hl⟩ ⟨hC, hd⟩
  obtain ⟨s, k, hs, rfl⟩ := Config.step_eq_some hd
  obtain ⟨hg', ha, hb⟩ := hstep c a e s k hc hg hl hC hs
  exact ⟨hg', Config.forall_pc_move ha hb⟩
