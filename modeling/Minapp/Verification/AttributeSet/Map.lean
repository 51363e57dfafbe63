import Minapp.Model.AttributeSet

/-! # Attribute sets as finite maps

An attribute set is a map from keys to values that may be null, and every operation is the
program over `contains`, `get`, `set` and `remove` that documents it. -/

namespace Minapp

/-! ## The documented operations -/

/-- The operations in terms of which the others are documented, on sets `σ`. -/
structure Primitives (σ ω : Type*) where
  contains : σ → Key → Bool
  get : σ → Key → Option ω
  set : σ → Key → Option ω → Option ω × σ
  remove : σ → Key → Option ω × σ

namespace Primitives

variable {σ ω ε α : Type*} (P : Primitives σ ω) (s : σ)

/-- A map between sets that the primitive operations commute with. -/
structure Hom {τ : Type*} (P : Primitives σ ω) (Q : Primitives τ ω) (abs : σ → τ) : Prop where
  contains : ∀ s key, P.contains s key = Q.contains (abs s) key
  get : ∀ s key, P.get s key = Q.get (abs s) key
  set : ∀ s key value, (P.set s key value).map id abs = Q.set (abs s) key value
  remove : ∀ s key, (P.remove s key).map id abs = Q.remove (abs s) key

def emplace (key : Key) (value : Option ω) : Option ω × σ :=
  if !P.contains s key then P.set s key value else (P.get s key, s)

def replace (key : Key) (value : Option ω) : Option ω × σ :=
  if P.contains s key then P.set s key value else (none, s)

def compute (key : Key) (f : Option ω → Except ε (α × Option ω)) : Except ε α × σ :=
  match f (P.get s key) with
  | .error e => (.error e, s)
  | .ok (a, value) =>
    (.ok a, if value.isSome then (P.set s key value).2 else (P.remove s key).2)

variable [DecidableEq ω]

def removeValue (key : Key) (value : Option ω) : Bool × σ :=
  if P.contains s key ∧ P.get s key = value then (true, (P.remove s key).2) else (false, s)

def replaceValue (key : Key) (oldval newval : Option ω) : Bool × σ :=
  if P.contains s key ∧ P.get s key = oldval then (true, (P.set s key newval).2) else (false, s)

end Primitives

/-- A map from keys to values, null included. -/
abbrev Mapping (ω : Type*) := Key → Option (Option ω)

namespace Mapping

variable {ω : Type*}

/-- The first value given to each key. -/
def construct (list : List (Key × Option ω)) : Mapping ω :=
  fun key => (list.find? fun kv => kv.1 = key).map Prod.snd

def primitives (ω : Type*) : Primitives (Mapping ω) ω where
  contains m key := (m key).isSome
  get m key := (m key).join
  set m key value := ((m key).join, Function.update m key (some value))
  remove m key := ((m key).join, Function.update m key none)

end Mapping

namespace AttributeSet

variable {ω ε α : Type*} {s : AttributeSet ω} {key : Key} {value : Option ω}

def primitives (ω : Type*) : Primitives (AttributeSet ω) ω := ⟨contains, get, set, remove⟩

theorem emplace_eq : s.emplace key value = (primitives ω).emplace s key value := by
  cases h : s.find key <;>
    simp [emplace, Primitives.emplace, primitives, contains, get, set, h]

theorem replace_eq : s.replace key value = (primitives ω).replace s key value := by
  cases h : s.find key <;>
    simp [replace, Primitives.replace, primitives, contains, set, h]

theorem compute_eq (f : Option ω → Except ε (α × Option ω)) :
    s.compute key f = (primitives ω).compute s key f := by
  cases h : s.find key with
  | none =>
      cases hf : f none <;>
        simp [compute, Primitives.compute, primitives, get, set, remove, h, hf]
  | some old =>
      cases hf : f old <;>
        simp [compute, Primitives.compute, primitives, get, set, remove, h, hf]

/-- `compute` depends on what its function makes of the value only. -/
theorem compute_congr {f g : Option ω → Except ε (α × Option ω)}
    (h : f (s.get key) = g (s.get key)) : s.compute key f = s.compute key g := by
  have h : f ((primitives ω).get s key) = g ((primitives ω).get s key) := h
  rw [compute_eq, compute_eq, Primitives.compute, Primitives.compute, h]

theorem compute_of_error {f : Option ω → Except ε (α × Option ω)} {e : ε}
    (h : f (s.get key) = .error e) : s.compute key f = (.error e, s) :=
  (compute_congr (h.trans rfl)).trans (compute_eq fun _ => .error e)

theorem compute_of_some {f : Option ω → Except ε (α × Option ω)} {a : α} {v : ω}
    (h : f (s.get key) = .ok (a, some v)) :
    s.compute key f = (.ok a, (s.set key (some v)).2) :=
  (compute_congr (h.trans rfl)).trans (compute_eq fun _ => .ok (a, some v))

theorem compute_of_none {f : Option ω → Except ε (α × Option ω)} {a : α}
    (h : f (s.get key) = .ok (a, none)) : s.compute key f = (.ok a, (s.remove key).2) :=
  (compute_congr (h.trans rfl)).trans (compute_eq fun _ => .ok (a, none))

section Compare

variable [DecidableEq ω]

theorem removeValue_eq : s.removeValue key value = (primitives ω).removeValue s key value := by
  cases h : s.find key <;>
    simp [removeValue, Primitives.removeValue, primitives, contains, get, remove, h]

theorem replaceValue_eq (oldval newval : Option ω) :
    s.replaceValue key oldval newval = (primitives ω).replaceValue s key oldval newval := by
  cases h : s.find key <;>
    simp [replaceValue, Primitives.replaceValue, primitives, contains, get, set, h]

end Compare

/-! ## The map of a set -/

/-- The map that a set stands for. -/
def contents (s : AttributeSet ω) : Mapping ω := s.find

theorem contents_insertCommit (h : s.find key = none) :
    (s.insertCommit key value).contents = Function.update s.contents key (some value) :=
  OrderedMap.lookup_insert h

theorem contents_assign (h : s.find key ≠ none) :
    (s.assign key value).contents = Function.update s.contents key (some value) :=
  OrderedMap.lookup_assign h

theorem contents_erase : (s.erase key).contents = Function.update s.contents key none :=
  OrderedMap.lookup_erase

theorem assign_eq_self (h : s.find key = some value) : s.assign key value = s :=
  AttributeSet.ext (OrderedMap.assign_eq_self s.sorted h)

/-- The value of a key that is not null is that of its entry. -/
theorem get_eq_some {v : ω} : s.get key = some v ↔ s.find key = some (some v) := by
  cases h : s.find key <;> simp [get, h]

theorem get_eq_none : s.get key = none ↔ s.find key = none ∨ s.find key = some none := by
  cases h : s.find key <;> simp [get, h]

/-- Setting the value that a key has changes nothing. -/
theorem set_eq_self {v : ω} (h : s.get key = some v) : (s.set key (some v)).2 = s := by
  have hfind := get_eq_some.mp h
  rw [set, hfind]
  exact assign_eq_self hfind

theorem find_erase (key' : Key) :
    (s.erase key).find key' = if key' = key then none else s.find key' :=
  (congrFun contents_erase key').trans (Function.update_apply ..)

/-- Erasing an entry changes the set. -/
theorem erase_ne_self (h : s.find key ≠ none) : s.erase key ≠ s := by
  intro heq
  have hfind : (s.erase key).find key = none := by rw [find_erase, if_pos rfl]
  rw [heq] at hfind
  exact h hfind

theorem contains_contents : s.contains key = (Mapping.primitives ω).contains s.contents key := rfl

theorem get_contents : s.get key = (Mapping.primitives ω).get s.contents key := by
  cases h : s.find key <;> simp [get, Mapping.primitives, contents, h]

theorem set_contents : (s.set key value).map id contents =
    (Mapping.primitives ω).set s.contents key value := by
  rw [set]
  cases h : s.find key with
  | none =>
      refine Prod.ext ?_ (contents_insertCommit h)
      simp [Mapping.primitives, contents, h]
  | some old =>
      refine Prod.ext ?_ (contents_assign (by simp [h]))
      simp [Mapping.primitives, contents, h]

theorem find_set (key' : Key) :
    (s.set key value).2.find key' = if key' = key then some value else s.find key' :=
  (congrFun (congrArg Prod.snd set_contents) key').trans (Function.update_apply ..)

theorem remove_contents : (s.remove key).map id contents =
    (Mapping.primitives ω).remove s.contents key := by
  rw [remove]
  cases h : s.find key with
  | none => simp [Mapping.primitives, contents, h]
  | some old =>
      refine Prod.ext ?_ contents_erase
      simp [Mapping.primitives, contents, h]

theorem contents_hom : (primitives ω).Hom (Mapping.primitives ω) contents :=
  ⟨fun _ _ => contains_contents, fun _ _ => get_contents, fun _ _ _ => set_contents,
    fun _ _ => remove_contents⟩

end AttributeSet

/-! ## Any sequence of operations -/

inductive AttributeOp (ω ε α : Type*) where
  | contains (key : Key)
  | get (key : Key)
  | remove (key : Key)
  | removeValue (key : Key) (value : Option ω)
  | set (key : Key) (value : Option ω)
  | emplace (key : Key) (value : Option ω)
  | replace (key : Key) (value : Option ω)
  | replaceValue (key : Key) (oldval newval : Option ω)
  | compute (key : Key) (f : Option ω → Except ε (α × Option ω))

inductive AttributeResult (ω ε α : Type*) where
  | bool (b : Bool)
  | value (value : Option ω)
  | computed (result : Except ε α)

section Run

variable {ι σ τ ω ε α : Type*} [DecidableEq ι]

variable [DecidableEq ω]

/-- The operations of the code. -/
def AttributeSet.perform (op : AttributeOp ω ε α) (s : AttributeSet ω) :
    AttributeResult ω ε α × AttributeSet ω :=
  match op with
  | .contains key => (.bool (s.contains key), s)
  | .get key => (.value (s.get key), s)
  | .remove key => (s.remove key).map .value id
  | .removeValue key value => (s.removeValue key value).map .bool id
  | .set key value => (s.set key value).map .value id
  | .emplace key value => (s.emplace key value).map .value id
  | .replace key value => (s.replace key value).map .value id
  | .replaceValue key oldval newval => (s.replaceValue key oldval newval).map .bool id
  | .compute key f => (s.compute key f).map .computed id

/-- The operations as they are documented. -/
def Primitives.perform (P : Primitives σ ω) (op : AttributeOp ω ε α) (s : σ) :
    AttributeResult ω ε α × σ :=
  match op with
  | .contains key => (.bool (P.contains s key), s)
  | .get key => (.value (P.get s key), s)
  | .remove key => (P.remove s key).map .value id
  | .removeValue key value => (P.removeValue s key value).map .bool id
  | .set key value => (P.set s key value).map .value id
  | .emplace key value => (P.emplace s key value).map .value id
  | .replace key value => (P.replace s key value).map .value id
  | .replaceValue key oldval newval => (P.replaceValue s key oldval newval).map .bool id
  | .compute key f => (P.compute s key f).map .computed id

/-- It commutes with the documented programs as well. -/
theorem Primitives.Hom.perform {P : Primitives σ ω} {Q : Primitives τ ω} {abs : σ → τ}
    (h : P.Hom Q abs) (op : AttributeOp ω ε α) (s : σ) :
    (P.perform op s).map id abs = Q.perform op (abs s) := by
  cases op with
  | contains key => simp [Primitives.perform, h.contains]
  | get key => simp [Primitives.perform, h.get]
  | remove key =>
      rw [Primitives.perform, Primitives.perform, ← h.remove]
      rfl
  | set key value =>
      rw [Primitives.perform, Primitives.perform, ← h.set]
      rfl
  | removeValue key value =>
      rw [Primitives.perform, Primitives.perform, Primitives.removeValue, Primitives.removeValue,
        h.contains, h.get, ← h.remove]
      split <;> rfl
  | emplace key value =>
      rw [Primitives.perform, Primitives.perform, Primitives.emplace, Primitives.emplace,
        h.contains, h.get, ← h.set]
      split <;> rfl
  | replace key value =>
      rw [Primitives.perform, Primitives.perform, Primitives.replace, Primitives.replace,
        h.contains, ← h.set]
      split <;> rfl
  | replaceValue key oldval newval =>
      rw [Primitives.perform, Primitives.perform, Primitives.replaceValue,
        Primitives.replaceValue, h.contains, h.get, ← h.set]
      split <;> rfl
  | compute key f =>
      rw [Primitives.perform, Primitives.perform, Primitives.compute, Primitives.compute, h.get]
      cases f (Q.get (abs s) key) with
      | error e => rfl
      | ok r =>
          rw [← h.remove]
          simp only [← h.set]
          cases r.2.isSome <;> rfl

namespace AttributeSet

theorem perform_eq (op : AttributeOp ω ε α) (s : AttributeSet ω) :
    s.perform op = (primitives ω).perform op s := by
  cases op with
  | removeValue key value => rw [perform, removeValue_eq, Primitives.perform]
  | emplace key value => rw [perform, emplace_eq, Primitives.perform]
  | replace key value => rw [perform, replace_eq, Primitives.perform]
  | replaceValue key oldval newval => rw [perform, replaceValue_eq, Primitives.perform]
  | compute key f => rw [perform, compute_eq, Primitives.perform]
  | _ => rfl

/-- An operation does to a set what its documented program does to the map of the set. -/
theorem perform_contents (op : AttributeOp ω ε α) (s : AttributeSet ω) :
    (s.perform op).map id contents = (Mapping.primitives ω).perform op s.contents := by
  rw [perform_eq]
  exact contents_hom.perform op s

end AttributeSet

end Run

end Minapp
