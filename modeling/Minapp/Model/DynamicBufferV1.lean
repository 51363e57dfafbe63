import Minapp.Model.Receive

/-! The receive path as it is built with a Boost before 1.70, where `dynamic_buffer_adaptor` is a
`DynamicBuffer_v1`: `async_read_until` reads into what `prepare` returns, and commits it to the
internal input at once. -/

namespace Minapp

open FirstOccurrence

namespace TripleBuffer

variable (b : TripleBuffer)

/-- `prepare(n)`. The `size()` of the adaptor is that of the internal input, its `max_size()`
that of the other build. -/
def dynamicPrepare (maximum n : ℕ) : Option TripleBuffer :=
  if b.dynamicMaxSize maximum < b.internalInputSize ∨
      b.dynamicMaxSize maximum - b.internalInputSize < n then none
  else (b.prepareOutputBuffer n).map Prod.fst

/-- `commit(n)`. -/
def dynamicCommit (n : ℕ) : TripleBuffer := b.commitToInternalInput n

end TripleBuffer

namespace ReadState

variable (s : ReadState)

/-- `async_read_until` needs no more bytes. -/
def searched (delim : List Byte) (maximum : ℕ) : Bool :=
  (firstEnd delim s.buf.internalInput).isSome ||
    s.buf.internalInputSize = s.buf.dynamicMaxSize maximum

/-- `async_read_until` starts with a read, of no bytes if it needs none. Any `prepare` throws
once the internal input exceeds `max_size()`. -/
def readDelimV1 (delim : List Byte) : ReadState :=
  if delim = [] then s.readSome s.settings.readBufferSize
  else
    let maximum := s.settings.readBufferSize
    match s.buf.dynamicPrepare maximum 0 with
    | none => { s with control := .threw }
    | some buf => { s with
        buf := if s.searched delim maximum then buf else s.buf
        control := .readDelim delim s.settings.ignoreProtocol maximum }

/-- `read()` of a session that is connected or reading. -/
def readV1 : ReadState :=
  let buf := if s.settings.doNotConsume then s.buf else s.buf.consumeWholeExternalInput
  let s' := { s with buf := buf.markCurrentExternalInput, frameStart := buf.externalInputSize }
  match s.settings.protocol with
  | .delim => s'.readDelimV1 s.settings.delimiter
  | .delimZero => s'.readDelimV1 [0]
  | .delimCr => s'.readDelimV1 [13]
  | .delimLf => s'.readDelimV1 [10]
  | .delimCrlf => s'.readDelimV1 crlf
  | _ => s.read

/-- The completion of `async_read_until`. What it has read is committed already. -/
def completeUntilV1 (delim : List Byte) (ignore : Bool) (maximum : ℕ) : Option ReadState :=
  match firstEnd delim s.buf.internalInput with
  | some transferred =>
    let tail := delim.length * ignore.toNat
    some (s.deliver (s.buf.commitToExternalInput (transferred - tail)) tail)
  | none =>
    if s.buf.internalInputSize = s.buf.dynamicMaxSize maximum then some (s.check .notFound)
    else none

/-- How many bytes the outstanding read still has room for. -/
def roomV1 : ℕ :=
  match s.control with
  | .readDelim delim _ maximum =>
    if (firstEnd delim s.buf.internalInput).isSome then 0
    else s.buf.dynamicMaxSize maximum - s.buf.internalInputSize
  | _ => s.room

/-- The socket delivers `bytes` to the outstanding read, which asked it for `asked` bytes. -/
def receiveV1 (asked : ℕ) (bytes : List Byte) : ReadState :=
  match s.control with
  | .readDelim _ _ maximum =>
    let s' := { s with received := s.received ++ bytes }
    match s.buf.dynamicPrepare maximum asked with
    | none => { s' with control := .threw }
    | some buf => { s' with buf := (buf.fill buf.outputOffset bytes).dynamicCommit bytes.length }
  | _ => s.receive asked bytes

/-- One step, as in the other build but for `async_read_until`. -/
def stepV1 (h : ReadHandler) (s : ReadState) : ReadEvent → Option ReadState
  | .run =>
    match s.control with
    | .read => some s.readV1
    | .readPrefix len => some (s.readPrefix len)
    | .readDelim delim ignore maximum => s.completeUntilV1 delim ignore maximum
    | _ => none
  | .upcall =>
    match s.control with
    | .upcall tail => some (s.handlerRead h tail)
    | _ => none
  | .receive asked bytes =>
    if s.waiting ∧ bytes.length ≤ asked ∧ asked ≤ s.roomV1 ∧
        (bytes = [] → s.control = .readSome 0) then
      some (s.receiveV1 asked bytes)
    else none

end ReadState

/-- The receive path of a session under a handler, in this build. -/
def readSystemV1 (h : ReadHandler) : TransitionSystem ReadState ReadEvent :=
  .ofStep (· = .initial h) (ReadState.stepV1 h)

end Minapp
