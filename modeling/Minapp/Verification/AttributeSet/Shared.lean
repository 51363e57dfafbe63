import Minapp.Verification.AttributeSet.Map
import Minapp.Verification.Guarded

/-! # A shared attribute set is linearizable

The member functions look for an entry, and use what they have found, in accesses of their own.
Under the guard that is the same as the operations on a set alone, whatever other threads do. -/

namespace Minapp

open Linearization

variable {T ω ε α : Type*}

/-- An access of a member function to the map. -/
inductive AttributeAccess (ω ε α : Type*) where
  /-- `count`, `find` or `insert_check`. -/
  | find (op : AttributeOp ω ε α)
  /-- What follows, with the entry found. -/
  | use (op : AttributeOp ω ε α) (found : Option (Option ω))

def AttributeOp.key : AttributeOp ω ε α → Key
  | .contains key | .get key | .remove key | .removeValue key _ | .set key _ | .emplace key _
  | .replace key _ | .replaceValue key _ _ | .compute key _ => key

namespace AttributeSet

variable (s : AttributeSet ω)

/-- The end of `compute`. -/
def storeComputed (key : Key) (found : Option (Option ω)) (value : Option ω) : AttributeSet ω :=
  match found with
  | none => if value.isSome then s.insertCommit key value else s
  | some _ => if value.isSome then s.assign key value else s.erase key

/-- The member functions from where they have looked for the entry. -/
def useFound [DecidableEq ω] (op : AttributeOp ω ε α) (found : Option (Option ω)) :
    AttributeResult ω ε α × AttributeSet ω :=
  match op, found with
  | .contains _, found => (.bool found.isSome, s)
  | .get _, found => (.value found.join, s)
  | .remove _, none => (.value none, s)
  | .remove key, some value => (.value value, s.erase key)
  | .removeValue key value, found =>
    if found = some value then (.bool true, s.erase key) else (.bool false, s)
  | .set key value, none => (.value none, s.insertCommit key value)
  | .set key value, some old => (.value old, s.assign key value)
  | .emplace key value, none => (.value none, s.insertCommit key value)
  | .emplace _ _, some old => (.value old, s)
  | .replace _ _, none => (.value none, s)
  | .replace key value, some old => (.value old, s.assign key value)
  | .replaceValue key oldval newval, found =>
    if found = some oldval then (.bool true, s.assign key newval) else (.bool false, s)
  | .compute key f, found =>
    match f found.join with
    | .error e => (.computed (.error e), s)
    | .ok (a, value) => (.computed (.ok a), s.storeComputed key found value)

end AttributeSet

variable [DecidableEq ω]

variable (ω ε α) in
/-- The bodies of the member functions. -/
def attributeClass : GuardedClass (AttributeSet ω) (AttributeOp ω ε α) (AttributeAccess ω ε α)
    (AttributeResult ω ε α) where
  start := .find
  step s
    | .find op => (s, .inl (.use op (s.find op.key)))
    | .use op found => ((s.useFound op found).2, .inr (s.useFound op found).1)

namespace AttributeSet

/-- With the entry found in the set as it is, a function does what it does to a set alone. -/
theorem useFound_find (s : AttributeSet ω) (op : AttributeOp ω ε α) :
    s.useFound op (s.find op.key) = s.perform op := by
  cases op with
  | contains key => rfl
  | get key | remove key | set key value | emplace key value | replace key value =>
      simp only [AttributeOp.key, perform, get, remove, set, emplace, replace]
      cases s.find key <;> rfl
  | removeValue key value =>
      by_cases h : s.find key = some value <;>
        simp [AttributeOp.key, useFound, perform, removeValue, h]
  | replaceValue key oldval newval =>
      by_cases h : s.find key = some oldval <;>
        simp [AttributeOp.key, useFound, perform, replaceValue, h]
  | compute key f =>
      simp only [AttributeOp.key, useFound, perform, compute]
      cases s.find key with
      | none => cases hf : f none <;> simp [hf, storeComputed]
      | some old => cases hf : f old <;> simp [hf, storeComputed]

/-- The body of a function, executed alone, is the function. -/
theorem perform_of_call {x y : AttributeSet ω} {op : AttributeOp ω ε α}
    {r : AttributeResult ω ε α} (h : (attributeClass ω ε α).Call x op r y) :
    x.perform op = (r, y) := by
  obtain ⟨hacc, hstep⟩ := h
  -- the first access changes nothing, the second one ends the body
  have haccess : ∀ {y k}, (attributeClass ω ε α).Accesses x (.find op) y k →
      y = x ∧ (k = .find op ∨ k = .use op (x.find op.key)) := by
    intro y k hacc
    induction hacc with
    | nil => exact ⟨rfl, .inl rfl⟩
    | snoc _ hstep ih =>
        obtain ⟨rfl, rfl | rfl⟩ := ih
        · cases hstep
          exact ⟨rfl, .inr rfl⟩
        · cases hstep
  obtain ⟨rfl, rfl | rfl⟩ := haccess hacc
  · cases hstep
  · rw [← useFound_find]
    cases hstep
    rfl

end AttributeSet

variable [DecidableEq T] {build : SpinBuild}

/-- The member functions that threads call on one attribute set, in any interleaving of their
accesses to the guard and to the set, are linearizable: they take effect one after the other, each
between its call and its return, as the documented operations do on a map from keys to values,
which is that of the set when no function is being executed, and every thread is returned what
these give. -/
theorem attributes_linearizable {init : AttributeSet ω}
    {c : Guarded T (AttributeSet ω) (AttributeOp ω ε α) (AttributeAccess ω ε α)
      (AttributeResult ω ε α)}
    (h : (guardedSystem T (attributeClass ω ε α) build init).Reachable c) :
    (∃ m, Sequential (fun m _ op r m' => (Mapping.primitives ω).perform op m = (r, m'))
        init.contents c.shared.trace m ∧
      ((∀ a, (c.pc a).place.inBody = false) → c.shared.object.contents = m)) ∧
    ∀ a, Progress a c.shared.trace (c.pc a).place.phase ∧
      effects a c.shared.trace =
        returns a c.shared.trace ++ (c.pc a).place.phase.pending := by
  obtain ⟨-, ⟨x, hx, hobj⟩, hthreads⟩ := guarded_linearizable h
  refine ⟨⟨x.contents, ?_, fun hnone => by rw [hobj hnone]⟩, hthreads⟩
  apply hx.map AttributeSet.contents
  intro x a op r y hcall
  rw [← AttributeSet.perform_contents, AttributeSet.perform_of_call hcall]
  rfl

/-- One thread sets an attribute that another asks for, which has to wait for the guard. -/
def setThenGet : List (Bool × GuardedEvent Bool (AttributeOp ℕ Unit Unit)) :=
  [(false, .call (.set [107] (some 7))), (false, .spin .run), (true, .call (.get [107])),
    (true, .spin .run), (true, .spin .run), (false, .body), (false, .body), (false, .spin .run),
    (false, .spin (.notify (some true))), (true, .spin .run), (true, .spin .run), (true, .body),
    (true, .body), (true, .spin .run), (true, .spin (.notify none))]

/-- The values that a thread has been returned. -/
def returnedValues (a : Bool)
    (trace : List (Event Bool (AttributeOp ℕ Unit Unit) (AttributeResult ℕ Unit Unit))) :
    List (Option ℕ) :=
  (returns a trace).filterMap fun
    | (_, .value v) => some v
    | _ => none

theorem attributes_linearizable_setThenGet :
    ∃ (c : Guarded Bool (AttributeSet ℕ) (AttributeOp ℕ Unit Unit)
        (AttributeAccess ℕ Unit Unit) (AttributeResult ℕ Unit Unit)) (m : Mapping ℕ),
      returnedValues true c.shared.trace = [some 7] ∧
        Sequential (fun m _ op r m' => (Mapping.primitives ℕ).perform op m = (r, m'))
          (AttributeSet.contents {}) c.shared.trace m := by
  obtain ⟨c, hc, hp⟩ := TransitionSystem.exists_reachable_of_exec
    (s := ⟨{ object := {} }, fun _ => {}⟩) (· = ⟨{ object := {} }, fun _ => {}⟩)
    (Config.step (GuardedState.act (attributeClass ℕ Unit Unit) .wait)) setThenGet
    (fun c => decide (returnedValues true c.shared.trace = [some 7])) rfl (by decide +kernel)
  obtain ⟨⟨m, hm, -⟩, -⟩ := attributes_linearizable hc
  exact ⟨c, m, of_decide_eq_true hp, hm⟩

end Minapp
