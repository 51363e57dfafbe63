import Minapp.Library.OrderedMap
import Minapp.Library.TransitionSystem
import Minapp.Model.Protocol
import Mathlib.Algebra.Group.Int.Defs
import Mathlib.Data.List.Lex
import Mathlib.Order.Defs.LinearOrder

/-! The attributes of a service or a session: objects, null included, by their names. -/

namespace Minapp

instance : LinearOrder Byte where
  le_refl := UInt8.le_refl
  le_trans _ _ _ := UInt8.le_trans
  le_antisymm _ _ := UInt8.le_antisymm
  le_total := UInt8.le_total
  lt_iff_le_not_ge a b := by simp [UInt8.le_iff_toNat_le, UInt8.lt_iff_toNat_lt]; omega
  toDecidableLE := inferInstance

/-- `attribute_set::key_t`, ordered byte by byte. -/
abbrev Key := List Byte

/-- Converts a length difference to `int`, as far as it goes. -/
def clampInt (n : ℤ) : ℤ := max (-2 ^ 31) (min n (2 ^ 31 - 1))

/-- `std::string_view::compare`: by the first bytes that differ, else by length. -/
def Key.compare : Key → Key → ℤ
  | a :: as, b :: bs => if a = b then Key.compare as bs else (a.toNat : ℤ) - b.toNat
  | as, bs => clampInt (as.length - bs.length)

/-- `attribute_set` of values that are null or some `ω`. The entries are the `nvp` nodes of
the `boost::intrusive::set`. -/
@[ext] structure AttributeSet (ω : Type*) where
  entries : List (Key × Option ω) := []
  sorted : OrderedMap.Sorted entries := by exact List.Pairwise.nil
  deriving DecidableEq

namespace AttributeSet

variable {ω ε α : Type*} (s : AttributeSet ω)

/-- `map(attrs).find(key)`, or what `insert_check(key)` finds: the value of the entry. -/
def find (key : Key) : Option (Option ω) := OrderedMap.lookup s.entries key

/-- `nvp::create` and `insert_commit`. -/
def insertCommit (key : Key) (value : Option ω) : AttributeSet ω :=
  ⟨OrderedSet.insert Prod.fst (key, value) s.entries, s.sorted.insert⟩

/-- The entry found takes another value. -/
def assign (key : Key) (value : Option ω) : AttributeSet ω :=
  ⟨OrderedMap.assign key value s.entries, s.sorted.assign⟩

/-- `map(attrs).erase(iter)`. -/
def erase (key : Key) : AttributeSet ω :=
  ⟨OrderedMap.erase key s.entries, OrderedMap.Sorted.erase s.sorted⟩

/-- One pair of an initializer list. -/
def insertPair (kv : Key × Option ω) : AttributeSet ω :=
  match s.find kv.1 with
  | none => s.insertCommit kv.1 kv.2
  | some _ => s

/-- `attribute_set(list)`. -/
def construct (list : List (Key × Option ω)) : AttributeSet ω := list.foldl insertPair {}

def contains (key : Key) : Bool := (s.find key).isSome

def get (key : Key) : Option ω :=
  match s.find key with
  | none => none
  | some value => value

/-- `remove(key)`. -/
def remove (key : Key) : Option ω × AttributeSet ω :=
  match s.find key with
  | none => (none, s)
  | some value => (value, s.erase key)

def set (key : Key) (value : Option ω) : Option ω × AttributeSet ω :=
  match s.find key with
  | none => (none, s.insertCommit key value)
  | some old => (old, s.assign key value)

def emplace (key : Key) (value : Option ω) : Option ω × AttributeSet ω :=
  match s.find key with
  | none => (none, s.insertCommit key value)
  | some old => (old, s)

/-- `replace(key, value)`. -/
def replace (key : Key) (value : Option ω) : Option ω × AttributeSet ω :=
  match s.find key with
  | none => (none, s)
  | some old => (old, s.assign key value)

section Compare

variable [DecidableEq ω]

/-- `remove(key, value)`. -/
def removeValue (key : Key) (value : Option ω) : Bool × AttributeSet ω :=
  if s.find key = some value then (true, s.erase key) else (false, s)

/-- `replace(key, oldval, newval)`. -/
def replaceValue (key : Key) (oldval newval : Option ω) : Bool × AttributeSet ω :=
  if s.find key = some oldval then (true, s.assign key newval) else (false, s)

end Compare

/-- `compute(key, f)`. What `f` makes of the value, beside what it leaves in the variables it
refers to, or the exception it throws. -/
def compute (key : Key) (f : Option ω → Except ε (α × Option ω)) : Except ε α × AttributeSet ω :=
  match s.find key with
  | none =>
    match f none with
    | .error e => (.error e, s)
    | .ok (a, value) => (.ok a, if value.isSome then s.insertCommit key value else s)
  | some old =>
    match f old with
    | .error e => (.error e, s)
    | .ok (a, value) => (.ok a, if value.isSome then s.assign key value else s.erase key)

end AttributeSet

/-! ## Iteration -/

/-- What tells the overloads of `foreach` apart: the entry they begin at, and the keys that
end them. -/
structure Overload (ω : Type*) where
  first : List (Key × Option ω) → Option (Key × Option ω)
  stop : Key → Bool

namespace Overload

variable {ω : Type*}

/-- `foreach(f)`. -/
def foreachAll : Overload ω where
  first := List.head?
  stop _ := false

/-- `foreach(prefix, f)`. -/
def foreachPrefix (pre : Key) : Overload ω where
  first := OrderedSet.lowerBound Prod.fst pre
  stop key := key.take pre.length != pre

/-- `foreach(min, max, include_min, include_max, f)`. -/
def foreachRange (min max : Key) (includeMin includeMax : Bool) : Overload ω where
  first := if includeMin then OrderedSet.lowerBound Prod.fst min
    else OrderedSet.upperBound Prod.fst min
  stop key := (includeMax.toNat : ℤ) ≤ key.compare max

end Overload

/-- Where a call of `foreach` is. -/
inductive IterationPlace (ω : Type*) where
  /-- The guard is taken, the next entry looked for after `key`, copied, and the guard left. -/
  | seek (after : Option Key)
  /-- `f(key, value)`, without the guard. -/
  | call (key : Key) (value : Option ω)
  | done (result : ℕ)
  | threw
  deriving DecidableEq

/-- A call of `f`, with the set in which its entry was found. -/
structure Call (ω : Type*) where
  key : Key
  value : Option ω
  found : AttributeSet ω
  deriving DecidableEq

/-- A call of `foreach`. From `sets` on it is history: what the set has been since the call,
the calls of `f` and their results. -/
structure Iteration (ω : Type*) where
  set : AttributeSet ω
  /-- `c`. -/
  count : ℕ := 0
  place : IterationPlace ω := .seek none
  sets : List (AttributeSet ω) := [set]
  calls : List (Call ω) := []
  answers : List Bool := []
  deriving DecidableEq

inductive IterationEvent (ω : Type*) where
  | seek
  /-- `f` returns, or throws. -/
  | answer (more : Bool)
  | throw
  /-- The set is changed, by `f` or by another thread. -/
  | modify (set : AttributeSet ω)

namespace Iteration

variable {ω : Type*} (o : Overload ω) (it : Iteration ω)

/-- The call is just made. -/
def IsInitial : Prop := ∃ set, it = { set }

/-- The entry to go on with. -/
def next (after : Option Key) : Option (Key × Option ω) :=
  match after with
  | none => o.first it.set.entries
  | some key => OrderedSet.upperBound Prod.fst key it.set.entries

/-- The call has returned or thrown. -/
def ended : Bool := it.place matches .done _ | .threw

def step : IterationEvent ω → Option (Iteration ω)
  | .seek =>
    match it.place with
    | .seek after =>
      match it.next o after with
      | none => some { it with place := .done it.count }
      | some (key, value) =>
        if o.stop key then some { it with place := .done it.count }
        else some { it with
          place := .call key value
          calls := it.calls ++ [⟨key, value, it.set⟩] }
    | _ => none
  | .answer more =>
    match it.place with
    | .call key _ =>
      if more then some { it with
        count := it.count + 1
        place := .seek (some key)
        answers := it.answers ++ [true] }
      else some { it with place := .done it.count, answers := it.answers ++ [false] }
    | _ => none
  | .throw =>
    match it.place with
    | .call _ _ => some { it with place := .threw }
    | _ => none
  | .modify set => if it.ended then none else some { it with set, sets := it.sets ++ [set] }

end Iteration

/-- The runs of a call of `foreach` on a set that anyone may change while `f` is called, and
between the steps. -/
def iterationSystem {ω : Type*} (o : Overload ω) :
    TransitionSystem (Iteration ω) (IterationEvent ω) :=
  .ofStep Iteration.IsInitial (Iteration.step o)

end Minapp
