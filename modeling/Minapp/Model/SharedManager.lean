import Minapp.Library.Interleaving
import Minapp.Library.Linearization
import Minapp.Model.BufferManager

/-! A `persistent_buffer_manager` that several threads use, interleaved at every section under
one of its locks and at every access to a slot. A slot is told by a number; those below `n` are
the initial block. -/

namespace Minapp

/-- The functions that threads call, `manage` with the buffers it is given. -/
inductive QueueOp (β : Type*) where
  | manage (buffers : List β)
  | mark
  | clearMarked
  deriving DecidableEq

inductive QueueResult where
  | done
  | marker (m : ℤ)
  deriving DecidableEq

/-- Buffers to manage, each with its slot once `hold_buffer` has given it one. -/
abbrev HeldBuffers (β : Type*) := List (β × Option ℕ)

inductive QueuePlace (β : Type*) where
  | idle
  /-- `hold_buffer` is called for a buffer that has no slot, in any order; if all have one, they
  are appended to `managed_buffers_list`. -/
  | hold (items : HeldBuffers β)
  /-- There was no cached slot for the buffer at `j`: `pool.malloc()`. -/
  | malloc (items : HeldBuffers β) (j : ℕ)
  /-- The buffer at `j` is copied into the slot `p`. -/
  | copy (items : HeldBuffers β) (j p : ℕ)
  /-- `mark`: takes `marked_buffers_list_guard`. -/
  | testMarked
  /-- Takes `managed_buffers_list_guard` as well. -/
  | swapLists
  /-- `clear_marked`: the loop over the list; at its end the list is made empty. -/
  | dispose (rest : List ℕ)
  /-- `free_buffer(p)` has cleared or destroyed the buffer, and gives the slot back. -/
  | giveBack (p : ℕ) (rest : List ℕ)
  | finish (op : QueueOp β) (result : QueueResult)
  deriving DecidableEq

/-- Where a slot is. -/
inductive SlotPlace (T : Type*) where
  /-- The pool has it. -/
  | free
  | cached
  | held (a : T)
  | managed
  | marked
  deriving DecidableEq

/-- The lists, the contents of the slots and the lock that `mark` holds while it takes the other
one. From `clearer` on it is history: who is in `clear_marked`, and where every slot is. -/
structure SharedManager (T β : Type*) where
  contents : ℕ → Option β := fun _ => none
  cached : List ℕ
  managed : List ℕ := []
  marked : List ℕ := []
  marker : ℤ := 0
  markedGuard : Option T := none
  clearer : Option T := none
  slots : ℕ → SlotPlace T
  trace : List (Linearization.Event T (QueueOp β) QueueResult) := []

inductive QueueEvent (β : Type*) where
  | call (op : QueueOp β)
  /-- `hold_buffer` of the buffer at `j`. -/
  | hold (j : ℕ)
  /-- The pool gives the slot `q`. -/
  | malloc (q : ℕ)
  /-- The next access of any other kind. -/
  | run
  deriving DecidableEq

def QueueOp.start {β : Type*} (marked : List ℕ) : QueueOp β → QueuePlace β
  | .manage buffers => .hold (buffers.map (·, none))
  | .mark => .testMarked
  | .clearMarked => .dispose marked

/-- The slots of the buffers that have one. -/
def HeldBuffers.slots {β : Type*} (items : HeldBuffers β) : List ℕ := items.filterMap Prod.snd

def HeldBuffers.buffers {β : Type*} (items : HeldBuffers β) : List β := items.map Prod.fst

namespace SharedManager

variable {T β : Type*} (n : ℕ) (s : SharedManager T β)

def record (e : Linearization.Event T (QueueOp β) QueueResult) : SharedManager T β :=
  { s with trace := s.trace ++ [e] }

/-- The slots of a list go to a place. -/
def moveSlots (ps : List ℕ) (place : SlotPlace T) : SharedManager T β :=
  { s with slots := fun p => if p ∈ ps then place else s.slots p }

variable [DecidableEq T]

/-- `hold_buffer` looks for a cached slot. -/
def popCached (a : T) (items : HeldBuffers β) (j : ℕ) : SharedManager T β × QueuePlace β :=
  match s.cached with
  | p :: cached => ({ s with cached }.moveSlots [p] (.held a), .copy items j p)
  | [] => (s, .malloc items j)

/-- The next access of thread `a`, other than those of `hold_buffer`. -/
def access (a : T) : QueuePlace β → Option (SharedManager T β × QueuePlace β)
  | .copy items j p =>
    items[j]?.map fun item =>
      ({ s with contents := Function.update s.contents p (some item.1) },
        .hold (items.set j (item.1, some p)))
  | .hold items =>
    if items.all fun item => item.2.isSome then
      some (({ s with managed := s.managed ++ items.slots }.moveSlots items.slots .managed).record
          (.effect a (.manage items.buffers) .done),
        .finish (.manage items.buffers) .done)
    else none
  | .testMarked =>
    if s.markedGuard = none then
      if s.marked ≠ [] then
        some (s.record (.effect a .mark (.marker (-s.marker))), .finish .mark (.marker (-s.marker)))
      else some ({ s with markedGuard := some a }, .swapLists)
    else none
  | .swapLists =>
    if s.managed = [] then
      some ({ s with markedGuard := none }.record (.effect a .mark (.marker 0)),
        .finish .mark (.marker 0))
    else
      let marker := if s.marker = longMax then 1 else s.marker + 1
      some (({ s with
            managed := s.marked
            marked := s.managed
            marker
            markedGuard := none }.moveSlots s.managed .marked).record
          (.effect a .mark (.marker marker)),
        .finish .mark (.marker marker))
  | .dispose (p :: rest) =>
    some ({ s with contents := Function.update s.contents p none }.moveSlots [p] (.held a),
      .giveBack p rest)
  | .giveBack p rest =>
    if p < n then
      some ({ s with cached := p :: s.cached }.moveSlots [p] .cached, .dispose rest)
    else some (s.moveSlots [p] .free, .dispose rest)
  | .dispose [] =>
    some ({ s with marked := [], clearer := none }.record (.effect a .clearMarked .done),
      .finish .clearMarked .done)
  | .finish op result => some (s.record (.ret a op result), .idle)
  | .idle | .malloc _ _ => none

/-- One step of thread `a`. Only who answers for the marked buffers calls `clear_marked`. -/
def act (a : T) (s : SharedManager T β) (k : QueuePlace β) :
    QueueEvent β → Option (SharedManager T β × QueuePlace β)
  | .call op =>
    match k with
    | .idle =>
      match op with
      | .clearMarked =>
        if s.marked ≠ [] ∧ s.clearer = none then
          some ({ s with clearer := some a }.record (.call a op), op.start s.marked)
        else none
      | _ => some (s.record (.call a op), op.start s.marked)
    | _ => none
  | .hold j =>
    match k with
    | .hold items =>
      match items[j]? with
      | some (_, none) => some (s.popCached a items j)
      | _ => none
    | _ => none
  | .malloc q =>
    match k with
    | .malloc items j =>
      if n ≤ q ∧ s.slots q = .free then some (s.moveSlots [q] (.held a), .copy items j q) else none
    | _ => none
  | .run => s.access n a k

/-- The constructor. -/
def construct (T β : Type*) (n : ℕ) : SharedManager T β where
  cached := (List.range n).reverse
  slots p := if p < n then .cached else .free

end SharedManager

/-- All interleavings of the threads `T` that use a manager with `n` cached slots. -/
def sharedManagerSystem (T β : Type*) [DecidableEq T] (n : ℕ) :
    TransitionSystem (Config T (SharedManager T β) (QueuePlace β)) (T × QueueEvent β) :=
  interleave (· = ⟨.construct T β n, fun _ => .idle⟩) (SharedManager.act n)

end Minapp
