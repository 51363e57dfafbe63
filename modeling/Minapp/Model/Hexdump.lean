import Minapp.Library.CountedLoop
import Minapp.Model.TripleBuffer

/-! `hexdump`, with its loops over counters of 32 bits. -/

namespace Minapp.Hexdump

open CountedLoop

/-- `hexdump::options`. -/
structure Options where
  uppercase : Bool := false
  minPrintable : Byte := 0x21
  maxPrintable : Byte := 0x7f
  placeholder : Byte := 46
  bytesPerLine : UInt32 := 16

/-- A `char` as a number: it depends on the platform whether it is signed. -/
def charValue (signed : Bool) (c : Byte) : ℤ :=
  if signed && 128 ≤ c.toNat then c.toNat - 256 else c.toNat

/-- The digits of `table`. -/
def tableDigit (uppercase : Bool) (n : ℕ) : Byte :=
  UInt8.ofNat (if n < 10 then 48 + n else (if uppercase then 55 else 87) + n)

/-- Where the loops are: `p`, as an offset from `memory`, and what has been put. -/
structure State where
  p : ℕ
  out : List Byte
  deriving DecidableEq, Repr

def State.putc (s : State) (cs : List Byte) : State := { s with out := s.out ++ cs }

/-- A loop over an `unsigned`. -/
def unsignedLoop {σ : Type*} (bound : ℕ) (body : ℕ → σ → Option σ) (fuel : ℕ) (s : σ) :
    Option σ := forLoop (2 ^ 32) bound body fuel s

variable (signed : Bool) (o : Options) (fuel : ℕ) (memory : List Byte)

def printable (c : Byte) : Byte :=
  if charValue signed o.minPrintable ≤ charValue signed c ∧
    charValue signed c ≤ charValue signed o.maxPrintable then c else o.placeholder

/-- `hexer(*(p + j), high, low)`, and putting them; a read outside the memory fails. -/
def putHex (j : ℕ) (s : State) : Option State :=
  memory[s.p + j]?.map fun c : Byte =>
    s.putc [tableDigit o.uppercase (c >>> 4).toNat, tableDigit o.uppercase (c &&& 0x0f).toNat, 32]

/-- `char c = *p++; putc(printable(c));`. -/
def putText (_ : ℕ) (s : State) : Option State :=
  memory[s.p]?.map fun c : Byte => { s with p := s.p + 1 }.putc [printable signed o c]

def putBlank (_ : ℕ) (s : State) : Option State := some (s.putc [32])

/-- A full line. -/
def dumpLine (_ : ℕ) (s : State) : Option State := do
  let s := s.putc [124, 32]
  let s ← unsignedLoop o.bytesPerLine.toNat (putHex o memory) fuel s
  let s := s.putc [124]
  let s ← unsignedLoop o.bytesPerLine.toNat (putText signed o memory) fuel s
  pure (s.putc [124, 10])

/-- The last line, of `size` bytes. `bytes_per_line` is converted to the type of `size`. -/
def dumpLast (size : ℕ) (s : State) : Option State := do
  let s := s.putc [124, 32]
  let s ← unsignedLoop size (putHex o memory) fuel s
  let s ← unsignedLoop (wrap (3 * (o.bytesPerLine.toNat - size))) putBlank fuel s
  let s := s.putc [124]
  let s ← unsignedLoop size (putText signed o memory) fuel s
  let s ← unsignedLoop (o.bytesPerLine.toNat - size) putBlank fuel s
  pure (s.putc [124, 10])

/-- `operator()(memory, size, o)`: what it puts, or nothing if it has not come to an end. -/
def dump (size : ℕ) : Option (List Byte) := do
  let s ← unsignedLoop (size / o.bytesPerLine.toNat) (dumpLine signed o fuel memory) fuel ⟨0, []⟩
  let size := size % o.bytesPerLine.toNat
  let s ← if 0 < size then dumpLast signed o fuel memory size s else pure s
  pure s.out

end Minapp.Hexdump
