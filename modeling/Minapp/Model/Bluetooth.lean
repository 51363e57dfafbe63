import Minapp.Library.Scanf
import Minapp.Model.Protocol
import Mathlib.Data.Fintype.Basic
import Mathlib.Data.Nat.Digits.Defs

/-! Bluetooth addresses and their text. -/

namespace Minapp.Bluetooth

open Scanf

/-- `address`. -/
structure Address where
  data : Fin 6 → Byte
  deriving DecidableEq

/-- `address()`. -/
def Address.zero : Address := ⟨fun _ => 0⟩

inductive AddressError where
  | invalidArgument
  deriving DecidableEq, Repr

/-! ## `make_address` -/

/-- `[:-]`. -/
def separators : List Byte := [58, 45]

/-- `"%02X%*[:-]%02X%*[:-]%02X%*[:-]%02X%*[:-]%02X%*[:-]%02X"`. -/
def scanFormat : List Directive :=
  [.hex 2, .skip separators, .hex 2, .skip separators, .hex 2, .skip separators,
    .hex 2, .skip separators, .hex 2, .skip separators, .hex 2]

/-- The values go to `&d[5]`, `&d[4]`, and so on; those not assigned are indeterminate. -/
def assignments (values : List ℕ) (r : ℕ) : ℕ := values.getD (5 - r) 0

/-- `while (--r >= 0)`, from `r` on: what `r` is after it, and the address. -/
def storeData (d : ℕ → ℕ) : ℕ → Address → ℤ × Address
  | 0, addr => (-1, addr)
  | r + 1, addr =>
    if 0xff < d r then (r, addr)
    else storeData d r ⟨fun i => if i = r then UInt8.ofNat (d r) else addr.data i⟩

/-- `make_address(str, ec)`, of the characters before the terminating null. -/
def makeAddress (str : List Byte) : Except AddressError Address :=
  let scanned := sscanf str scanFormat
  let stored := if scanned.1 = 6 then storeData (assignments scanned.2) 6 .zero else (0, .zero)
  if stored.1 = -1 then .ok stored.2 else .error .invalidArgument

/-! ## `to_string` -/

def upperDigit (n : ℕ) : Byte := UInt8.ofNat (if n < 10 then 48 + n else 55 + n)

/-- `%0wX`: the digits, filled up with zeros to the width. -/
def printHex (width n : ℕ) : List Byte :=
  let digits := if n = 0 then [48] else (Nat.digits 16 n).reverse.map upperDigit
  List.replicate (width - digits.length) 48 ++ digits

/-- `sprintf` with `"%02X:%02X:%02X:%02X:%02X:%02X"`. -/
def Address.print (a : Address) : List Byte :=
  printHex 2 (a.data 5).toNat ++ 58 :: printHex 2 (a.data 4).toNat ++
    58 :: printHex 2 (a.data 3).toNat ++ 58 :: printHex 2 (a.data 2).toNat ++
    58 :: printHex 2 (a.data 1).toNat ++ 58 :: printHex 2 (a.data 0).toNat

/-- The values of the bytes, in the order of the text. -/
def Address.values (a : Address) : List ℕ :=
  [(a.data 5).toNat, (a.data 4).toNat, (a.data 3).toNat, (a.data 2).toNat, (a.data 1).toNat,
    (a.data 0).toNat]

/-- A string of 17 null characters, written over. -/
def Address.toString (a : Address) : List Byte :=
  a.print.take 17 ++ List.replicate (17 - a.print.length) 0

end Minapp.Bluetooth
