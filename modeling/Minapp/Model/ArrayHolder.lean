import Minapp.Model.PersistentBuffer

/-! `holder<T[]>`, which has an array behind its own members, and what makes one: the bytes
that are asked for, and the elements that are constructed, destroyed and copied to. -/

namespace Minapp

/-- The next multiple of an alignment. -/
def alignUp (n align : ℕ) : ℕ := (n + (align - 1)) / align * align

/-- `offsetof(holder<T[]>, v)`: behind the pointer to its virtual functions, `refcount` and
`n`. -/
def headerSize (align : ℕ) : ℕ := alignUp 24 align

/-- `sizeof(holder<T[]>)`, which includes `v[1]`. -/
def holderSize (size align : ℕ) : ℕ := alignUp (headerSize align + size) (max 8 align)

/-- An element type, of which a holder can be made. -/
structure ElementType where
  size : ℕ
  align : ℕ
  size_pos : 0 < size
  align_pos : 0 < align
  align_le : align ≤ size
  fits : holderSize size align < 2 ^ 64

/-- A length is given as a `std::size_t` or as a `std::ptrdiff_t`. -/
inductive LengthArg where
  | size (n : UInt64)
  | ptrdiff (n : Int64)
  deriving DecidableEq

namespace LengthArg

/-- The integer given. -/
def value : LengthArg → ℤ
  | .size n => n.toNat
  | .ptrdiff n => n.toInt

/-- Converted to `std::size_t`. -/
def toSize : LengthArg → ℕ
  | .size n => n.toNat
  | .ptrdiff n => (n.toInt % 2 ^ 64).toNat

end LengthArg

inductive ArrayError where
  | badArrayNewLength
  | badAlloc
  /-- What the constructor of an element throws. -/
  | thrown
  /-- `std::out_of_range`. -/
  | outOfRange
  deriving DecidableEq, Repr

/-- `holder<T[]>`, with the number of bytes that were asked for. -/
structure ArrayHolder where
  n : ℤ
  bytes : ℕ
  deriving DecidableEq, Repr

/-- What a call has come to. `requested`, the bytes asked of `::operator new`, and `touched`,
where it has constructed and copied elements in the block, are history. -/
structure ArrayResult where
  outcome : Except ArrayError Unit
  target : Option ArrayHolder
  requested : Option ℕ := none
  touched : List Region := []

namespace ElementType

variable (T : ElementType)

def header : ℕ := headerSize T.align

/-- `v[i]`, from the beginning of the block. -/
def element (i : ℕ) : Region := ⟨T.header + i * T.size, T.size⟩

/-- `sz + (n - 1) * sizeof(T)`. -/
def request (n : ℤ) : ℕ :=
  wrap (holderSize T.size T.align + wrap (((n - 1) % 2 ^ 64).toNat * T.size))

/-- `v{}` and `std::uninitialized_value_construct_n(v + 1, n - 1)`. -/
def constructed (n : ℤ) : List Region :=
  T.element 0 :: (List.range (n - 1).toNat).map fun i => T.element (i + 1)

/-- `std::destroy_n(v + 1, n - 1)`, and the element that is a member. -/
def destroyed (h : ArrayHolder) : List Region :=
  (List.range (h.n - 1).toNat).map (fun i => T.element (i + 1)) ++ [T.element 0]

variable (operatorNew : ℕ → Bool) (throws : Option ℕ)

/-- `emplace<T[]>(n)`, where `operatorNew` tells which requests can be met, and `throws` which
element has a constructor that throws. -/
def emplace (n : ℤ) (target : Option ArrayHolder) : ArrayResult :=
  -- `holder<T[]>::create`
  if n < 1 then { outcome := .error .badArrayNewLength, target }
  else
    let bytes := T.request n
    if operatorNew bytes then
      match throws.filter fun i : ℕ => decide ((i : ℤ) < n) with
      | some i =>
        { outcome := .error .thrown, target, requested := some bytes
          touched := (T.constructed n).take (i + 1) }
      | none =>
        { outcome := .ok (), target := some ⟨n, bytes⟩, requested := some bytes
          touched := T.constructed n }
    else { outcome := .error .badAlloc, target, requested := some bytes }

/-- `vec(n)`. -/
def vec (n : ℕ) : ArrayResult :=
  if n ≠ 0 then T.emplace operatorNew throws (toPtrdiff n) none
  else { outcome := .ok (), target := none }

/-- `vec::emplace(n)`. -/
def vecEmplace (n : ℤ) (target : Option ArrayHolder) : ArrayResult :=
  if n ≠ 0 then T.emplace operatorNew throws n target else { outcome := .ok (), target := none }

/-- `persist(pointer, n)`, with the `memcpy` to the elements. -/
def persist (n : ℕ) : ArrayResult :=
  let r := T.emplace operatorNew throws (toPtrdiff n) none
  match r.outcome with
  | .error _ => r
  | .ok () => { r with touched := r.touched ++ [⟨T.header, wrap (n * T.size)⟩] }

end ElementType

/-! ## The members of `vec` that describe the array -/

namespace ElementType

variable (T : ElementType) (p : Option ArrayHolder)

def vecSize : ℕ :=
  match p with
  | some h => (h.n % 2 ^ 64).toNat
  | none => 0

/-- The position in the block, unless the pointer is null. -/
def vecData : Option ℕ := p.map fun _ => T.header

def vecBegin : Option ℕ := p.map fun _ => T.header

def vecEnd : Option ℕ := p.map fun h => T.header + h.n.toNat * T.size

def vecAt (i : ℕ) : Except ArrayError Region :=
  if vecSize p ≤ i then .error .outOfRange else .ok (T.element i)

end ElementType

/-- The functions that are given a length. -/
inductive ArrayCall where
  | vec
  | vecEmplace
  | emplace
  | persist
  deriving DecidableEq

namespace ArrayCall

variable (T : ElementType) (operatorNew : ℕ → Bool) (throws : Option ℕ)

/-- What the target is before the call: a new object is null. -/
def before (target : Option ArrayHolder) : ArrayCall → Option ArrayHolder
  | .vec | .persist => none
  | .vecEmplace | .emplace => target

def perform (n : LengthArg) (target : Option ArrayHolder) : ArrayCall → ArrayResult
  | .vec => T.vec operatorNew throws n.toSize
  | .vecEmplace => T.vecEmplace operatorNew throws (toPtrdiff n.toSize) target
  | .emplace => T.emplace operatorNew throws (toPtrdiff n.toSize) target
  | .persist => T.persist operatorNew throws n.toSize

end ArrayCall

end Minapp
