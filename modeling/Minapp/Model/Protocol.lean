import Mathlib.Data.Int.Notation
import Mathlib.Algebra.Group.Nat.Defs

/-! The framing protocols of a session and their options. -/

namespace Minapp

abbrev Byte := UInt8

/-- `enum class protocol`. A handler may cast any other integer to it. -/
inductive Protocol where
  | none
  | any
  | fixed
  | delim
  | delimZero
  | delimCr
  | delimLf
  | delimCrlf
  | prefix8
  | prefix16
  | prefix32
  | prefix64
  | prefixVar
  | other (value : ℤ)
  deriving DecidableEq, Repr

/-- `enum class protocol_options : unsigned`, a set of flags. -/
abbrev ProtocolOptions := UInt32

namespace ProtocolOptions

def doNotConsumeBuffer : ProtocolOptions := 1
def ignoreProtocolBytes : ProtocolOptions := doNotConsumeBuffer <<< 1
def useLittleEndian : ProtocolOptions := ignoreProtocolBytes <<< 1
def includePrefixInPayload : ProtocolOptions := useLittleEndian <<< 1

end ProtocolOptions

/-- `has_options(all_options, options)`. -/
def hasOptions (allOptions options : ProtocolOptions) : Bool :=
  allOptions &&& options == options

/-- What `session::protocol`, `session::read_buffer_size` and `session::delimiter` set. -/
structure Settings where
  protocol : Protocol
  options : ProtocolOptions
  readBufferSize : ℕ
  delimiter : List Byte
  deriving DecidableEq, Repr

namespace Settings

variable (s : Settings)

def doNotConsume : Bool := hasOptions s.options .doNotConsumeBuffer
def ignoreProtocol : Bool := hasOptions s.options .ignoreProtocolBytes
def littleEndian : Bool := hasOptions s.options .useLittleEndian
def includePrefix : Bool := hasOptions s.options .includePrefixInPayload

end Settings

end Minapp
