import Minapp.Library.TransitionSystem
import Mathlib.Data.Finset.Basic

/-! `object` variables, which share holders through counted handles. The members of a held
value are variables as well: what its constructor and its destructor do to them are
operations of their own, before the holder is counted and after it is deleted. -/

namespace Minapp

/-- `object::placeholder`. -/
structure Holder (τ : Type*) where
  refcount : ℤ := 1
  type : τ
  deriving DecidableEq, Repr

/-- Holders of values of the types `τ` at the addresses `A`, and the variables `V`.
`released` is history: the handles released and not adopted again. -/
structure ObjectState (A V τ : Type*) where
  /-- The holders alive. -/
  holders : A → Option (Holder τ)
  /-- The variables constructed and not destroyed. -/
  vars : Finset V
  /-- The member `p` of each variable. -/
  p : V → Option A
  released : List A := []

inductive ObjectError where
  | badObjectCast
  | objectNotFn
  /-- What the constructor of a value throws, or its allocation. -/
  | construction
  deriving DecidableEq, Repr

namespace ObjectState

/-- What an operation ends in: it is undefined, or returns or throws in a state. -/
abbrev Outcome (A V τ : Type*) := Option (Except ObjectError Unit × ObjectState A V τ)

variable {A V τ : Type*} [DecidableEq A] (s : ObjectState A V τ)

def setHolder (a : A) (holder : Option (Holder τ)) : ObjectState A V τ :=
  { s with holders := Function.update s.holders a holder }

/-- `p->addref(c)`, which is undefined once the holder is deleted. -/
def addref (a : A) (c : ℤ) : Option (ℤ × ObjectState A V τ) :=
  (s.holders a).map fun holder =>
    let refcount := c + holder.refcount
    (refcount, s.setHolder a (some { holder with refcount }))

/-- `placeholder::release`. -/
def drop (a : A) : Option (ℤ × ObjectState A V τ) := s.addref a (-1)

/-- `delete p`. -/
def delete (a : A) : ObjectState A V τ := s.setHolder a none

/-- `obj.type()`, where `none` is `null_t()`. -/
def type (h : Option A) : Option (Option τ) :=
  match h with
  | none => some none
  | some a => (s.holders a).map fun holder => some holder.type

/-- `if(p) p->addref()`. -/
def copyHandle (h : Option A) : Option (ObjectState A V τ) :=
  match h with
  | none => some s
  | some a => (s.addref a 1).map fun r => r.2

/-- The destructor of an object with the handle `h`:
`if(p && p->release() == 0) delete p`. -/
def destruct (h : Option A) : Option (ObjectState A V τ) :=
  match h with
  | none => some s
  | some a => (s.drop a).map fun r => if r.1 = 0 then r.2.delete a else r.2

/-- `holder<U>::create`, once the value is constructed. -/
def create (a : A) (type : τ) : ObjectState A V τ := s.setHolder a (some { type })

variable [DecidableEq V]

/-- A variable begins its life. -/
def construct (x : V) (h : Option A) : ObjectState A V τ :=
  { s with vars := insert x s.vars, p := Function.update s.p x h }

/-- The member of a variable is assigned. -/
def assign (x : V) (h : Option A) : ObjectState A V τ := { s with p := Function.update s.p x h }

/-! ## Members of `object` -/

/-- `object(handle p)`. -/
def adopt (x : V) (h : Option A) : ObjectState A V τ :=
  construct { s with released := h.elim s.released s.released.erase } x h

/-- `object(const object& obj)`. -/
def copy (x y : V) : Option (ObjectState A V τ) :=
  (s.copyHandle (s.p y)).map fun t => t.construct x (s.p y)

/-- `object(object&& obj)`. -/
def move (x y : V) : ObjectState A V τ := (s.construct x (s.p y)).assign y none

def swap (x y : V) : ObjectState A V τ := (s.assign x (s.p y)).assign y (s.p x)

/-- `if(p != obj.p) object(obj).swap(*this)`. -/
def copyAssign (x y : V) : Option (ObjectState A V τ) :=
  if s.p x ≠ s.p y then
    (s.copyHandle (s.p y)).bind fun t => (t.assign x (s.p y)).destruct (s.p x)
  else some s

/-- `if(p != obj.p) object(std::move(obj)).swap(*this)`. -/
def moveAssign (x y : V) : Option (ObjectState A V τ) :=
  if s.p x ≠ s.p y then ((s.assign y none).assign x (s.p y)).destruct (s.p x) else some s

/-- `std::exchange(p, nullptr)`, which hands the handle to the caller. -/
def release (x : V) : ObjectState A V τ :=
  assign { s with released := (s.p x).toList ++ s.released } x none

/-- `emplace`, where `created` is the address of the holder, unless `create` throws. -/
def emplace (x : V) (type : τ) (created : Option A) : Outcome A V τ :=
  match created with
  | none => some (.error .construction, s)
  | some a => (((s.create a type).assign x (some a)).destruct (s.p x)).map (.ok (), ·)

/-- `object(ValueType&& value)`, and the constructor from `std::in_place_type`. -/
def constructFrom (x : V) (type : τ) (created : Option A) : Outcome A V τ :=
  match created with
  | none => some (.error .construction, s)
  | some a => some (.ok (), (s.create a type).construct x (some a))

/-- The destructor of a variable, which ends its life. -/
def destroy (x : V) : Option (ObjectState A V τ) :=
  destruct { s with vars := s.vars.erase x } (s.p x)

/-! ## Conversions, which construct `x` from `y` -/

section Convert

variable [DecidableEq τ]

/-- A constructor that tests the type before it takes the handle; a null object passes the
test if `nullable`. -/
def convert (nullable : Bool) (error : ObjectError) (type : τ) (x y : V)
    (take : ObjectState A V τ → Option (ObjectState A V τ)) : Outcome A V τ :=
  (s.type (s.p y)).bind fun t =>
    if nullable = true ∧ s.p y = none ∨ t = some type then
      (take (s.construct x none)).map (.ok (), ·)
    else some (.error error, s)

/-- `ptr(const object& obj)`. -/
def ptrCopy (type : τ) (x y : V) : Outcome A V τ :=
  s.convert true .badObjectCast type x y fun s => s.copyAssign x y

/-- `ptr(object&& obj)`. -/
def ptrMove (type : τ) (x y : V) : Outcome A V τ :=
  s.convert true .badObjectCast type x y fun s => some (s.swap x y)

/-- `ref(const object& obj)`. -/
def refCopy (type : τ) (x y : V) : Outcome A V τ :=
  s.convert false .badObjectCast type x y fun s => s.copyAssign x y

/-- `ref(object&& obj)`. -/
def refMove (type : τ) (x y : V) : Outcome A V τ :=
  s.convert false .badObjectCast type x y fun s => some (s.swap x y)

/-- `vec(const object& obj)`, for the type of arrays. -/
def vecCopy (type : τ) (x y : V) : Outcome A V τ :=
  s.convert true .badObjectCast type x y fun s => s.copyAssign x y

/-- `vec(object&& obj)`. -/
def vecMove (type : τ) (x y : V) : Outcome A V τ :=
  s.convert true .badObjectCast type x y fun s => some (s.swap x y)

/-- `fn(Object&& obj)` of an lvalue. -/
def fnCopy (type : τ) (x y : V) : Outcome A V τ :=
  s.convert true .objectNotFn type x y fun s => s.copyAssign x y

/-- `fn(Object&& obj)` of an rvalue, which is assigned and not swapped. -/
def fnMove (type : τ) (x y : V) : Outcome A V τ :=
  s.convert true .objectNotFn type x y fun s => s.moveAssign x y

end Convert

/-- `ref(const ptr<T>& p)`. -/
def refOfPtrCopy (x y : V) : Outcome A V τ :=
  if s.p y = none then some (.error .badObjectCast, s)
  else ((s.construct x none).copyAssign x y).map (.ok (), ·)

/-- `ref(ptr<T>&& p)`. -/
def refOfPtrMove (x y : V) : Outcome A V τ :=
  if s.p y = none then some (.error .badObjectCast, s)
  else some (.ok (), (s.construct x none).swap x y)

/-! ## Further members -/

/-- `ref::release() const`: a copy of the handle is released. -/
def refRelease (x : V) : Option (ObjectState A V τ) :=
  (s.copyHandle (s.p x)).map fun t => { t with released := (s.p x).toList ++ t.released }

/-- `vec(std::initializer_list<T> list)`, unless it is empty. An element whose assignment
throws leaves the base object to be destroyed. -/
def vecOf (x : V) (type : τ) (created : Option A) (copied : Bool) : Outcome A V τ :=
  match created with
  | none => some (.error .construction, s)
  | some a =>
    if copied then some (.ok (), (s.create a type).construct x (some a))
    else ((s.create a type).destruct (some a)).map (.error .construction, ·)

/-- `vec::emplace(n)`: `object().swap(*this)` if there are no elements. -/
def vecEmplace (x : V) (type : τ) (n : ℤ) (created : Option A) : Outcome A V τ :=
  if n ≠ 0 then s.emplace x type (if n < 1 then none else created)
  else ((s.assign x none).destruct (s.p x)).map (.ok (), ·)

end ObjectState

/-- The operations on variables `x`, constructed or assigned from `y`. -/
inductive ObjectOp (A V τ : Type*) where
  | default (x : V)
  | adopt (x : V) (h : Option A)
  | copy (x y : V)
  | move (x y : V)
  | copyAssign (x y : V)
  | moveAssign (x y : V)
  | swap (x y : V)
  | release (x : V)
  | emplace (x : V) (type : τ) (created : Option A)
  | constructFrom (x : V) (type : τ) (created : Option A)
  | destroy (x : V)
  | ptrCopy (type : τ) (x y : V)
  | ptrMove (type : τ) (x y : V)
  | refCopy (type : τ) (x y : V)
  | refMove (type : τ) (x y : V)
  | refOfPtrCopy (x y : V)
  | refOfPtrMove (x y : V)
  | vecCopy (type : τ) (x y : V)
  | vecMove (type : τ) (x y : V)
  | fnCopy (type : τ) (x y : V)
  | fnMove (type : τ) (x y : V)
  | refRelease (x : V)
  | vecOf (x : V) (type : τ) (created : Option A) (copied : Bool)
  | vecEmplace (x : V) (type : τ) (n : ℤ) (created : Option A)

namespace ObjectOp

variable {A V τ : Type*} [DecidableEq A] [DecidableEq V] [DecidableEq τ]

def perform (s : ObjectState A V τ) : ObjectOp A V τ → ObjectState.Outcome A V τ
  | .default x => some (.ok (), s.construct x none)
  | .adopt x h => some (.ok (), s.adopt x h)
  | .copy x y => (s.copy x y).map (.ok (), ·)
  | .move x y => some (.ok (), s.move x y)
  | .copyAssign x y => (s.copyAssign x y).map (.ok (), ·)
  | .moveAssign x y => (s.moveAssign x y).map (.ok (), ·)
  | .swap x y => some (.ok (), s.swap x y)
  | .release x => some (.ok (), s.release x)
  | .emplace x type created => s.emplace x type created
  | .constructFrom x type created => s.constructFrom x type created
  | .destroy x => (s.destroy x).map (.ok (), ·)
  | .ptrCopy type x y => s.ptrCopy type x y
  | .ptrMove type x y => s.ptrMove type x y
  | .refCopy type x y => s.refCopy type x y
  | .refMove type x y => s.refMove type x y
  | .refOfPtrCopy x y => s.refOfPtrCopy x y
  | .refOfPtrMove x y => s.refOfPtrMove x y
  | .vecCopy type x y => s.vecCopy type x y
  | .vecMove type x y => s.vecMove type x y
  | .fnCopy type x y => s.fnCopy type x y
  | .fnMove type x y => s.fnMove type x y
  | .refRelease x => (s.refRelease x).map (.ok (), ·)
  | .vecOf x type created copied => s.vecOf x type created copied
  | .vecEmplace x type n created => s.vecEmplace x type n created

/-- Whether the language allows an operation: constructors make new variables, everything
else is about variables alive, an adopted handle is one released, and a new holder is not
where another is alive. -/
def Allowed (s : ObjectState A V τ) : ObjectOp A V τ → Prop
  | .default x => x ∉ s.vars
  | .adopt x h => x ∉ s.vars ∧ ∀ a ∈ h, a ∈ s.released
  | .copy x y | .move x y | .ptrCopy _ x y | .ptrMove _ x y | .refCopy _ x y | .refMove _ x y
  | .refOfPtrCopy x y | .refOfPtrMove x y | .vecCopy _ x y | .vecMove _ x y
  | .fnCopy _ x y | .fnMove _ x y => x ∉ s.vars ∧ y ∈ s.vars
  | .copyAssign x y | .moveAssign x y | .swap x y => x ∈ s.vars ∧ y ∈ s.vars
  | .release x | .destroy x | .refRelease x => x ∈ s.vars
  | .emplace x _ created | .vecEmplace x _ _ created =>
    x ∈ s.vars ∧ ∀ a ∈ created, s.holders a = none
  | .constructFrom x _ created | .vecOf x _ created _ =>
    x ∉ s.vars ∧ ∀ a ∈ created, s.holders a = none

instance (s : ObjectState A V τ) (op : ObjectOp A V τ) : Decidable (op.Allowed s) :=
  match op with
  | .default x => inferInstanceAs (Decidable (x ∉ s.vars))
  | .release x | .destroy x | .refRelease x => inferInstanceAs (Decidable (x ∈ s.vars))
  | .adopt _ _ | .copy _ _ | .move _ _ | .ptrCopy _ _ _ | .ptrMove _ _ _ | .refCopy _ _ _
  | .refMove _ _ _ | .refOfPtrCopy _ _ | .refOfPtrMove _ _ | .vecCopy _ _ _ | .vecMove _ _ _
  | .fnCopy _ _ _ | .fnMove _ _ _ | .copyAssign _ _ | .moveAssign _ _ | .swap _ _
  | .emplace _ _ _ | .vecEmplace _ _ _ _ | .constructFrom _ _ _ | .vecOf _ _ _ _ =>
    inferInstanceAs (Decidable (_ ∧ _))

end ObjectOp

/-- The programs over the variables `V`, which begin without any. -/
def objectSystem (A V τ : Type*) [DecidableEq A] [DecidableEq V] [DecidableEq τ] :
    TransitionSystem (ObjectState A V τ) (ObjectOp A V τ) where
  Init s := s.holders = (fun _ => none) ∧ s.vars = ∅ ∧ s.released = []
  Step s op t := op.Allowed s ∧ ∃ r, op.perform s = some (r, t)

end Minapp
