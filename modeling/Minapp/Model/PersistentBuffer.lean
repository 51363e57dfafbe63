import Minapp.Library.Memory
import Minapp.Model.Session
import Minapp.Model.TripleBuffer

/-! `persist`, which captures bytes for an asynchronous write: in a holder of their own, or
sharing the holder that has them. Sizes are in bytes, except where elements are said. -/

namespace Minapp

/-- Blocks of memory: what the value in the holder at `a` owns, and any other. -/
inductive Block (A O : Type*) where
  | held (a : A)
  | other (o : O)
  deriving DecidableEq, Repr

/-- `const_buffer` with the `object` whose holder has its bytes. -/
structure PersistentBuffer (A O : Type*) where
  storage : Option A := none
  buffer : Span (Block A O) := {}
  deriving DecidableEq, Repr

inductive PersistError where
  /-- `std::bad_alloc`, or what the copy of a value throws. -/
  | badAlloc
  | badArrayNewLength
  | badObjectCast
  deriving DecidableEq, Repr

/-- The arguments of `persist`, by the branch that takes them. -/
inductive Persistable (A O : Type*) where
  /-- An `object` with the handle `h`, to be persisted as a type of value; `cast` is whether
  its holder is of that type. -/
  | object (h : Option A) (cast : Bool)
  | persistent (buf : PersistentBuffer A O)
  /-- A pointer to elements of `sizeof` bytes, which are bytes behind `void*`. -/
  | pointer (block : Option (Block A O)) (offset sizeof : ℕ)
  /-- Anything convertible to `mutable_buffer`. -/
  | mutable (b : Span (Block A O))
  /-- `const_buffer`, and the views that act as one. -/
  | view (b : Span (Block A O))
  /-- A container that owns its elements. -/
  | container (bytes : List Byte)
  | pod (bytes : List Byte)

/-- A `std::size_t` converted to `std::ptrdiff_t`. -/
def toPtrdiff (n : ℕ) : ℤ := if n < 2 ^ 63 then n else n - 2 ^ 64

/-- The default of the limit, `std::size_t(-1)`. -/
def noLimit : ℕ := 2 ^ 64 - 1

section Persist

variable {A O : Type*} [DecidableEq A] [DecidableEq O] (alloc : Option A)
  (m : Memory (Block A O) Byte)

/-- The result with the memory after it, or the exception; an access outside a block is
undefined. -/
abbrev PersistOutcome (A O : Type*) :=
  Option (Except PersistError (PersistentBuffer A O × Memory (Block A O) Byte))

/-- `emplace` of a value that owns `bytes`, in a holder at `alloc` if it can be allocated,
and the first `n` of them as the buffer. -/
def persistValue (bytes : List Byte) (n : ℕ) : PersistOutcome A O :=
  match alloc with
  | none => some (.error .badAlloc)
  | some a => some (.ok (⟨some a, Span.limit ⟨some (.held a), 0, bytes.length⟩ n⟩,
      m.store (.held a) bytes))

/-- The branch of a pointer: `emplace<T[]>(n)`, whose holder makes room for the elements
behind the first one, and `memcpy`. -/
def persistPointer (block : Option (Block A O)) (offset sizeof n : ℕ) : PersistOutcome A O :=
  -- `holder<T[]>::create`
  if toPtrdiff n < 1 then some (.error .badArrayNewLength)
  else
    match alloc with
    | none => some (.error .badAlloc)
    | some a =>
      let room := sizeof + wrap ((n - 1) * sizeof)
      ((m.store (.held a) (List.replicate room 0)).copy (.held a)
        ⟨block, offset, wrap (n * sizeof)⟩).map fun m =>
          .ok (⟨some a, ⟨some (.held a), 0, wrap (n * sizeof)⟩⟩, m)

/-- `persist(c, n)`. -/
def persist (c : Persistable A O) (n : ℕ) : PersistOutcome A O :=
  match c with
  | .object h cast =>
    match h, cast with
    | some a, true => (m (.held a)).map fun bytes =>
        .ok (⟨some a, Span.limit ⟨some (.held a), 0, bytes.length⟩ n⟩, m)
    | _, _ => some (.error .badObjectCast)
  | .persistent buf => some (.ok ({ buf with buffer := buf.buffer.limit n }, m))
  | .pointer block offset sizeof => persistPointer alloc m block offset sizeof n
  | .mutable b =>
    let b := b.limit n
    persistPointer alloc m b.block b.offset 1 b.size
  | .view b => some (.ok (⟨none, b.limit n⟩, m))
  | .container bytes => persistValue alloc m bytes n
  | .pod bytes => persistValue alloc m bytes n

/-- `session::write(c)` of one buffer, up to the call of `write()`. -/
def writeBuffer (status : Status) (queue : BufferManager (PersistentBuffer A O))
    (c : Persistable A O) :
    Option (Except PersistError
      (BufferManager (PersistentBuffer A O) × Memory (Block A O) Byte)) :=
  if Status.closing ≤ status then some (.ok (queue, m))
  else (persist alloc m c noLimit).map fun r => r.map fun r => (queue.manage [r.1], r.2)

end Persist

end Minapp
