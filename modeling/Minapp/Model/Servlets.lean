import Minapp.Library.Hexadecimal
import Minapp.Model.AttributeSet

/-! Servlets: attributes named by the type of the object they hold and an instance. -/

namespace Minapp

/-- `object::type_index`, the address of a function, as the eight bytes it is stored in. -/
structure TypeIndex where
  bytes : List Byte
  size_eq : bytes.length = 8
  deriving DecidableEq

/-- An object that is not null: its holder, and the holder's `type()`. -/
structure Held (H : Type*) where
  holder : H
  type : TypeIndex
  deriving DecidableEq

/-- What a function throws. `notExists` and `alreadyExists` carry the name in their texts. -/
inductive ServletError (ε : Type*) where
  | notExists (id : Key)
  | alreadyExists (id : Key)
  | typeMismatch
  | paramsError
  /-- `bad_object_cast`. -/
  | badObjectCast
  /-- The constructor of the servlet throws. -/
  | thrown (e : ε)
  /-- `std::terminate`, as an exception leaves a `noexcept` function. -/
  | terminated
  deriving DecidableEq

def ascii (text : String) : Key := text.toList.map fun c => UInt8.ofNat c.toNat

/-- The texts of the exceptions of `servlets`. -/
def ServletError.what {ε : Type*} : ServletError ε → Option Key
  | .notExists id => some (ascii "servlet not exists: " ++ id)
  | .alreadyExists id => some (ascii "servlet already exists: " ++ id)
  | .typeMismatch => some (ascii "servlet type mismatch")
  | .paramsError => some (ascii "servlet params error")
  | _ => none

/-- The arguments a servlet of a type is constructed from. -/
structure Args (H ε : Type*) where
  /-- `std::is_constructible_v<T, Args&&...>`. -/
  constructible : Bool
  /-- The new holder, or what the constructor throws. -/
  create : Except ε H

/-- `servlets::ops`. -/
inductive Ops where
  | get
  | set
  | ret
  | add
  | del
  deriving DecidableEq, Repr

namespace Servlets

def leadingZeros (bin : List Byte) : ℕ := (bin.takeWhile (· == 0)).length

def trailingZeros (bin : List Byte) : ℕ := (bin.reverse.takeWhile (· == 0)).length

/-- `"0123456789ABCDEF"`. -/
def table (n : ℕ) : Byte := (ascii "0123456789ABCDEF").getD n 0

/-- The address without the zeros at the end at which `null_t()` has more of them. -/
def stripped (null type : TypeIndex) : List Byte :=
  if trailingZeros null.bytes < leadingZeros null.bytes then
    type.bytes.drop (leadingZeros type.bytes)
  else type.bytes.take (type.bytes.length - trailingZeros type.bytes)

/-- `servlets::id`, where `object::null_t()` is `null`. -/
protected def id (null type : TypeIndex) (inst : Key) : Key :=
  ascii "S:" ++ Hexadecimal.encode table (stripped null type) ++
    if inst.isEmpty then [] else ascii ":" ++ inst

variable {H ε : Type*}

/-- What a function returns or throws, and the attributes it leaves. -/
abbrev Outcome (H ε : Type*) :=
  Except (ServletError ε) (Option (Held H)) × AttributeSet (Held H)

/-- `object(std::in_place_type<T>, args...)`. -/
def construct (type : TypeIndex) (args : Args H ε) : Except (ServletError ε) (Held H) :=
  match args.create with
  | .ok holder => .ok ⟨holder, type⟩
  | .error e => .error (.thrown e)

section Cast

variable (null type : TypeIndex)

/-- `object::type`. -/
def typeOf : Option (Held H) → TypeIndex
  | none => null
  | some obj => obj.type

/-- `object::ref<T>(obj)`. -/
def ref (obj : Option (Held H)) : Except (ServletError ε) (Option (Held H)) :=
  if typeOf null obj ≠ type then .error .badObjectCast else .ok obj

/-- `return srv`, where `bad_object_cast` is caught. -/
def refOrMismatch (obj : Option (Held H)) : Except (ServletError ε) (Option (Held H)) :=
  match ref null type obj with
  | .error .badObjectCast => .error .typeMismatch
  | result => result

end Cast

variable (null type : TypeIndex) (inst : Key) (args : Args H ε) (s : AttributeSet (Held H))

def get : Outcome H ε :=
  let name := Servlets.id null type inst
  match s.get name with
  | none => (.error (.notExists name), s)
  | some srv => (refOrMismatch null type (some srv), s)

def set : Outcome H ε :=
  match construct type args with
  | .error e => (.error e, s)
  | .ok srv => (ref null type (some srv), (s.set (Servlets.id null type inst) (some srv)).2)

/-- What `ret` makes of the value of its entry, and of `srv`. -/
def retBody (val : Option (Held H)) :
    Except (ServletError ε) (Option (Held H) × Option (Held H)) :=
  match val with
  | some val => .ok (some val, some val)
  | none => (construct type args).map fun srv => (some srv, some srv)

def ret : Outcome H ε :=
  match s.compute (Servlets.id null type inst) (retBody type args) with
  | (.error e, s) => (.error e, s)
  | (.ok srv, s) => (refOrMismatch null type srv, s)

/-- What `add` makes of them. -/
def addBody (val : Option (Held H)) :
    Except (ServletError ε) (Option (Held H) × Option (Held H)) :=
  match val with
  | some val => .ok (none, some val)
  | none => (construct type args).map fun srv => (some srv, some srv)

def add : Outcome H ε :=
  let name := Servlets.id null type inst
  match s.compute name (addBody type args) with
  | (.error e, s) => (.error e, s)
  | (.ok none, s) => (.error (.alreadyExists name), s)
  | (.ok (some srv), s) => (ref null type (some srv), s)

def del : Outcome H ε :=
  let name := Servlets.id null type inst
  match s.remove name with
  | (none, s) => (.error (.notExists name), s)
  | (some srv, s) => (refOrMismatch null type (some srv), s)

/-- `remove`, which returns an `object::ptr`. -/
def remove : Outcome H ε :=
  match s.remove (Servlets.id null type inst) with
  | (none, s) => (.ok none, s)
  | (some srv, s) =>
    (match (ref null type (some srv) : Except (ServletError ε) _) with
      | .error _ => .error .terminated
      | .ok srv => .ok srv, s)

/-- What `op` makes of them. -/
def opBody (name : Key) (op : Ops) (val : Option (Held H)) :
    Except (ServletError ε) (Option (Held H) × Option (Held H)) :=
  match op, val with
  | .get, some val => .ok (some val, some val)
  | .get, none => .error (.notExists name)
  | .del, some val => .ok (some val, none)
  | .del, none => .error (.notExists name)
  | .ret, some val => .ok (some val, some val)
  | .add, some _ => .error (.alreadyExists name)
  | _, _ =>
    if args.constructible then (construct type args).map fun srv => (some srv, some srv)
    else .error .paramsError

def op (op : Ops) : Outcome H ε :=
  let name := Servlets.id null type inst
  match s.compute name (opBody type args name op) with
  | (.error e, s) => (.error e, s)
  | (.ok srv, s) => (refOrMismatch null type srv, s)

end Servlets

/-- A function of `servlets`. -/
inductive ServletCall where
  | get
  | set
  | ret
  | add
  | del
  | remove
  | op (op : Ops)
  deriving DecidableEq

/-- Calls a function for a type and an instance. -/
def ServletCall.perform {H ε : Type*} (call : ServletCall) (null type : TypeIndex) (inst : Key)
    (args : Args H ε) (s : AttributeSet (Held H)) : Servlets.Outcome H ε :=
  match call with
  | .get => Servlets.get null type inst s
  | .set => Servlets.set null type inst args s
  | .ret => Servlets.ret null type inst args s
  | .add => Servlets.add null type inst args s
  | .del => Servlets.del null type inst s
  | .remove => Servlets.remove null type inst s
  | .op o => Servlets.op null type inst args s o

/-- A call of a function, with the arguments it constructs a servlet from. -/
structure ServletEvent (H ε : Type*) where
  call : ServletCall
  type : TypeIndex
  inst : Key
  args : Args H ε

/-- A holder of the entries. -/
def AttributeSet.Holds {H : Type*} (s : AttributeSet (Held H)) (holder : H) : Prop :=
  ∃ key srv, s.find key = some (some srv) ∧ srv.holder = holder

/-- All calls of the functions, from no attributes. A new holder is none of those in use. -/
def servletSystem (H ε : Type*) (null : TypeIndex) :
    TransitionSystem (AttributeSet (Held H)) (ServletEvent H ε) where
  Init s := s = {}
  Step s e t := (∀ holder, e.args.create = .ok holder → ¬ s.Holds holder) ∧
    t = (e.call.perform null e.type e.inst e.args s).2

end Minapp
