import Minapp.Library.IntrusiveList
import Minapp.Library.TransitionSystem
import Minapp.Model.BufferManager
import Minapp.Model.PersistentBuffer

/-! `persistent_buffer_manager`, whose nodes travel between three intrusive lists. A node is of
the initial block or of the pool, and is told by its address. -/

namespace Minapp

/-- A call of `boost::pool`, with its chunk. -/
inductive PoolCall where
  | malloc (q : ℕ)
  | free (q : ℕ)
  deriving DecidableEq, Repr

/-- The chunks in use after some calls, the last of which comes first. -/
def inUse : List PoolCall → List ℕ
  | [] => []
  | .malloc q :: calls => q :: inUse calls
  | .free q :: calls => (inUse calls).erase q

/-- `pool`, with the block it gives to the constructor. Memory does not run out: the code uses
whatever it is given. -/
structure BufferPool where
  /-- `sizeof(persistent_buffer)`. -/
  size : ℕ
  size_pos : 0 < size
  cached : ℕ
  /-- The result of `ordered_malloc(cached)`. -/
  first : ℕ
  /-- The result of `malloc` after some calls. -/
  malloc : List PoolCall → ℕ
  /-- A chunk overlaps neither the block, which is never freed, nor a chunk in use. -/
  malloc_block : ∀ calls, malloc calls + size ≤ first ∨ first + cached * size ≤ malloc calls
  malloc_inUse : ∀ calls, ∀ q ∈ inUse calls,
    malloc calls + size ≤ q ∨ q + size ≤ malloc calls

namespace BufferPool

variable (P : BufferPool)

/-- `cached_buffers_pool.second`. -/
def second : ℕ := P.first + P.cached * P.size

/-- The range test of `free_buffer`. -/
def InBlock (p : ℕ) : Prop := P.first ≤ p ∧ p < P.second

instance : DecidablePred P.InBlock := fun _ => inferInstanceAs (Decidable (_ ∧ _))

/-- The address of a slot of the block. -/
def slot (i : ℕ) : ℕ := P.first + i * P.size

def slots : List ℕ := (List.range P.cached).map P.slot

end BufferPool

/-- `persistent_buffer_manager`, with the nodes that exist and the calls of its pool so far. -/
structure PersistentBufferManager (A O : Type*) where
  heap : Heap ℕ (PersistentBuffer A O) := fun _ => none
  cached : Header ℕ := {}
  managed : Header ℕ := {}
  marked : Header ℕ := {}
  marker : ℤ := 0
  calls : List PoolCall := []

/-- A call of a member function. -/
inductive ManagerCall (A O : Type*) where
  | manage (b : PersistentBuffer A O)
  /-- `manage` of several buffers; `order` is that in which `hold_buffer` is called, as
  positions of arguments. -/
  | manageBuffers (buffers : List (PersistentBuffer A O)) (order : List ℕ)
  /-- `manage` of a list that is not of the manager. -/
  | manageList (list : List (PersistentBuffer A O))
  /-- `manage(marked())`. -/
  | manageMarked
  | mark
  | clearMarked
  deriving DecidableEq, Repr

namespace PersistentBufferManager

variable {A O : Type*} (P : BufferPool) (m : PersistentBufferManager A O)

/-- The loop of the constructor, from a slot on. -/
def fillCache : ℕ → ℕ → PersistentBufferManager A O → Option (PersistentBufferManager A O)
  | 0, _, _ => none
  | fuel + 1, p, m =>
    if p < P.second then
      (m.cached.pushFront (m.heap.construct p {}) p).bind fun (heap, cached) =>
        fillCache fuel (p + P.size) { m with heap, cached }
    else some m

/-- The constructor. -/
def construct (fuel : ℕ) : Option (PersistentBufferManager A O) := fillCache P fuel P.first {}

/-- `hold_buffer`. -/
def holdBuffer (b : PersistentBuffer A O) : Option (ℕ × PersistentBufferManager A O) :=
  match m.cached.first with
  | some p =>
    (m.cached.popFront m.heap).bind fun cached => (m.heap.setValue p b).map fun heap =>
      (p, { m with heap, cached })
  | none =>
    let q := P.malloc m.calls
    some (q, { m with heap := m.heap.construct q b, calls := .malloc q :: m.calls })

/-- `free_buffer`. A chunk that is not in use cannot be freed. -/
def freeBuffer (p : ℕ) (m : PersistentBufferManager A O) : Option (PersistentBufferManager A O) :=
  if P.InBlock p then
    (m.heap.value p).bind fun b => (m.heap.setValue p { b with storage := none }).bind fun heap =>
      (m.cached.pushFront heap p).map fun (heap, cached) => { m with heap, cached }
  else if p ∈ inUse m.calls then
    some { m with heap := m.heap.destroy p, calls := .free p :: m.calls }
  else none

/-- `manage` of one buffer. -/
def manage (b : PersistentBuffer A O) : Option (PersistentBufferManager A O) :=
  (m.holdBuffer P b).bind fun (p, m) => (m.managed.pushBack m.heap p).map fun (heap, managed) =>
    { m with heap, managed }

/-- A `persistent_buffer_list` on the stack, with the manager. -/
abbrev WithTmp (A O : Type*) := Header ℕ × PersistentBufferManager A O

def pushTmp (p : ℕ) : WithTmp A O → Option (WithTmp A O)
  | (tmp, m) => (tmp.pushBack m.heap p).map fun (heap, tmp) => (tmp, { m with heap })

/-- `managed_buffers_list.splice(managed_buffers_list.end(), tmp)`. -/
def spliceTmp : WithTmp A O → Option (PersistentBufferManager A O)
  | (tmp, m) => (m.managed.spliceBack m.heap tmp).map fun (heap, managed) =>
    { m with heap, managed }

/-- `make_list`. -/
def makeList : List ℕ → WithTmp A O → Option (WithTmp A O)
  | [], s => some s
  | p :: ps, s => (pushTmp p s).bind (makeList ps)

/-- The calls of `hold_buffer` in some order; `held` is what they return, by the position of
the argument. -/
def holdEach (buffers : List (PersistentBuffer A O)) : List ℕ → (ℕ → ℕ) →
    PersistentBufferManager A O → Option ((ℕ → ℕ) × PersistentBufferManager A O)
  | [], held, m => some (held, m)
  | i :: order, held, m =>
    buffers[i]?.bind fun b => (m.holdBuffer P b).bind fun (p, m) =>
      holdEach buffers order (Function.update held i p) m

/-- `manage` of at least two buffers, the order of evaluation being any. -/
def manageBuffers (buffers : List (PersistentBuffer A O)) (order : List ℕ) :
    Option (PersistentBufferManager A O) :=
  if 2 ≤ buffers.length ∧ order.Perm (List.range buffers.length) then
    (holdEach P buffers order (fun _ => 0) m).bind fun (held, m) =>
      (makeList ((List.range buffers.length).map held) ({}, m)).bind spliceTmp
  else none

/-- `tmp.push_back(hold_buffer(b))`. -/
def holdTmp (b : PersistentBuffer A O) : WithTmp A O → Option (WithTmp A O)
  | (tmp, m) => (m.holdBuffer P b).bind fun (p, m) => pushTmp p (tmp, m)

/-- The loop over a list whose nodes the manager does not touch. -/
def holdList : List (PersistentBuffer A O) → WithTmp A O → Option (WithTmp A O)
  | [], s => some s
  | b :: list, s => (holdTmp P b s).bind (holdList list)

def manageList (list : List (PersistentBuffer A O)) : Option (PersistentBufferManager A O) :=
  (holdList P list ({}, m)).bind spliceTmp

/-- The body of the loop over the manager's own list, whose nodes are in the same heap. -/
def holdNode (a : ℕ) (s : WithTmp A O) : Option (WithTmp A O) :=
  (s.2.heap.value a).bind fun b => holdTmp P b s

def manageMarked (fuel : ℕ) : Option (PersistentBufferManager A O) :=
  (forEach (fun s : WithTmp A O => s.2.heap) (holdNode P) fuel m.marked.first ({}, m)).bind
    spliceTmp

/-- `mark`, with its result. -/
def mark : ℤ × PersistentBufferManager A O :=
  if m.marked.first ≠ none then (-m.marker, m)
  else if m.managed.first = none then (0, m)
  else
    let marker := if m.marker = longMax then 1 else m.marker + 1
    (marker, { m with managed := m.marked, marked := m.managed, marker })

/-- `clear_marked`; the list is empty once all its nodes are disposed of. -/
def clearMarked (fuel : ℕ) : Option (PersistentBufferManager A O) :=
  (disposeEach heap (freeBuffer P) fuel m.marked.first m).map fun m => { m with marked := {} }

def step (fuel : ℕ) : ManagerCall A O → Option (PersistentBufferManager A O)
  | .manage b => m.manage P b
  | .manageBuffers buffers order => m.manageBuffers P buffers order
  | .manageList list => m.manageList P list
  | .manageMarked => m.manageMarked P fuel
  | .mark => some m.mark.2
  | .clearMarked => m.clearMarked P fuel

/-- The calls of a manager, one after the other. -/
def system : TransitionSystem (PersistentBufferManager A O) (ManagerCall A O) where
  Init m := ∃ fuel, construct P fuel = some m
  Step m call t := ∃ fuel, m.step P fuel call = some t

end PersistentBufferManager

end Minapp
