import Minapp.Library.FirstOccurrence
import Minapp.Library.Positional
import Minapp.Library.TransitionSystem
import Minapp.Model.TripleBuffer

/-! The receive path of a session: `session::read` and the functions it calls, as a
machine that stops at every handler upcall and at every asynchronous read. -/

namespace Minapp

open FirstOccurrence Positional

/-- The error codes the receive path itself passes to `session::check`. -/
inductive Errc where
  | protocolNotSupported
  | messageSize
  | valueTooLarge
  | badMessage
  | notFound
  deriving DecidableEq, Repr

/-- `size_msb`, the flag packed into the length given to `read_prefix`. -/
def sizeMsb : ℕ := 2 ^ 63

def crlf : List Byte := [13, 10]

/-- What the session does next. -/
inductive Control where
  /-- `read()` is called. -/
  | read
  /-- `read_prefix(len)` is called. -/
  | readPrefix (len : ℕ)
  /-- `handler()->read` is called; `tail` bytes are committed after it, then `read()`. -/
  | upcall (tail : ℕ)
  /-- `async_read_some` into `n` bytes is outstanding. -/
  | readSome (n : ℕ)
  /-- `async_read` of `n` bytes is outstanding for `read_fixed`, `got` of them stored. -/
  | readFixed (n got : ℕ)
  /-- `async_read` of `n` bytes is outstanding for `read_prefix(len)`. -/
  | prefixBytes (len n got : ℕ)
  /-- `async_read_until` is outstanding over a dynamic buffer of at most `maximum` bytes. -/
  | readDelim (delim : List Byte) (ignore : Bool) (maximum : ℕ)
  /-- `protocol::none`. -/
  | idle
  /-- `check(ec)` was called with an error. -/
  | failed (ec : Errc)
  /-- `std::length_error` escaped from the storage. -/
  | threw
  /-- The region given to a socket reaches outside the storage. -/
  | overrun
  deriving DecidableEq, Repr

/-- State of the receive path. `frameStart` (the external input size when the current
frame began) and `received` (every byte the socket delivered) are history. -/
structure ReadState where
  buf : TripleBuffer
  settings : Settings
  control : Control
  delivered : List (List Byte)
  frameStart : ℕ
  received : List Byte
  deriving DecidableEq, Repr

/-- What a handler does in a read upcall: calls of `buf.consume` and new settings. -/
structure Reaction where
  consumes : List ℕ
  settings : Settings

/-- A handler reacts to the segments delivered so far; to none of them when it
configures the session in its connect upcall. -/
abbrev ReadHandler := List (List Byte) → Reaction

/-! ## `dynamic_buffer_adaptor` over the buffer, with the internal input and the output
zone as its data -/

namespace TripleBuffer

variable (b : TripleBuffer)

def dynamicMaxSize (maximum : ℕ) : ℕ := min (maxSize - b.externalInputSize) maximum

def dynamicSize (maximum : ℕ) : ℕ :=
  min (b.storage.length - b.externalInputSize) (b.dynamicMaxSize maximum)

/-- `data(0, size())`. -/
def dynamicData (maximum : ℕ) : List Byte :=
  (b.storage.drop b.externalInputSize).take (b.dynamicSize maximum)

def dynamicGrow (maximum n : ℕ) : Option TripleBuffer :=
  if b.dynamicMaxSize maximum - b.dynamicSize maximum < n then none else b.growOutputBuffer n

def dynamicShrink (n : ℕ) : TripleBuffer := b.shrinkOutputBuffer n

end TripleBuffer

/-! ## Parsing a length prefix -/

/-- `(p[i] & 0x80u) != 0`. -/
def continues (c : Byte) : Bool := c &&& 0x80 != 0

inductive PrefixResult where
  /-- The prefix needs `len` bytes, more than are buffered. -/
  | incomplete (len : ℕ)
  | error (ec : Errc)
  /-- A prefix of `len` bytes announces `dataSize` more bytes. -/
  | body (len dataSize : ℕ)
  deriving DecidableEq, Repr

/-- The loops of `read_prefix` over its `len` prefix bytes. -/
def prefixValue (s : Settings) (var : Bool) (p : List Byte) : ℕ :=
  let digits := p.map fun c => if var then (c &&& 0x7f).toNat else c.toNat
  orShift 64 (if var then 7 else 8) 0 0 (if s.littleEndian then digits else digits.reverse)

/-- The part of `read_prefix` that follows once the whole prefix is buffered. -/
def parseField (s : Settings) (var : Bool) (p : List Byte) (len : ℕ) : PrefixResult :=
  if 8 + var.toNat < len then .error .valueTooLarge
  else
    let dataSize := prefixValue s var (p.take len)
    if s.includePrefix && dataSize < len then .error .badMessage
    else
      let dataSize := if s.includePrefix then dataSize - len else dataSize
      if s.readBufferSize < wrap (dataSize + len) then .error .messageSize
      else .body len dataSize

/-- `read_prefix(len)` up to its action, over the internal input `p`. -/
def parsePrefix (s : Settings) (p : List Byte) (len : ℕ) : PrefixResult :=
  let var := sizeMsb ≤ len
  let len := if var then len - sizeMsb else len
  let len := if len = 0 then (p.takeWhile continues).length + 1 else len
  if p.length < len ∨ (var ∧ continues (p.getD (len - 1) 0)) then
    let len := if p.length < len then len else len + 1
    if s.readBufferSize < len then .error .messageSize else .incomplete len
  else parseField s var p len

/-! ## The functions of `session` -/

namespace ReadState

variable (s : ReadState)

/-- `check(ec)` with an error: the error upcall and a graceful close. -/
def check (ec : Errc) : ReadState := { s with control := .failed ec }

/-- An asynchronous read into `prepare_output_buffer(n)`. -/
def asyncRead (n : ℕ) (control : Control) : ReadState :=
  match s.buf.prepareOutputBuffer n with
  | none => { s with control := .threw }
  | some (buf, region) =>
    { s with buf, control := if region.Inside buf.storage then control else .overrun }

/-- `move_to_new_external_input_segment` and the read upcall. -/
def deliver (buf : TripleBuffer) (tail : ℕ) : ReadState :=
  { s with buf := buf.moveToNewExternalInputSegment, control := .upcall tail }

def readSome (bufsize : ℕ) : ReadState :=
  if 0 < s.buf.internalInputSize then s.deliver (s.buf.commitToExternalInput bufsize) 0
  else s.asyncRead bufsize (.readSome bufsize)

def readFixed (bufsize : ℕ) : ReadState :=
  let remaining := s.buf.internalInputSize
  if bufsize ≤ remaining then s.deliver (s.buf.commitToExternalInput bufsize) 0
  else s.asyncRead (bufsize - remaining) (.readFixed (bufsize - remaining) 0)

def readDelim (delim : List Byte) : ReadState :=
  if delim = [] then s.readSome s.settings.readBufferSize
  else { s with
    buf := s.buf.shrinkOutputBuffer s.buf.outputBufferSize
    control := .readDelim delim s.settings.ignoreProtocol s.settings.readBufferSize }

def readPrefix (len : ℕ) : ReadState :=
  let p := s.buf.internalInput
  match parsePrefix s.settings p len with
  | .error ec => s.check ec
  | .incomplete n =>
    s.asyncRead (n - p.length)
      (.prefixBytes (if sizeMsb ≤ len then n + sizeMsb else n) (n - p.length) 0)
  | .body n dataSize =>
    let buf := s.buf.commitToExternalInput n
    let buf := if s.settings.ignoreProtocol then buf.markCurrentExternalInput else buf
    { s with buf }.readFixed dataSize

/-- `read()` of a session that is connected or reading. -/
def read : ReadState :=
  let buf := if s.settings.doNotConsume then s.buf else s.buf.consumeWholeExternalInput
  let s := { s with buf := buf.markCurrentExternalInput, frameStart := buf.externalInputSize }
  match s.settings.protocol with
  | .none => { s with control := .idle }
  | .any => s.readSome s.settings.readBufferSize
  | .fixed => s.readFixed s.settings.readBufferSize
  | .delim => s.readDelim s.settings.delimiter
  | .delimZero => s.readDelim [0]
  | .delimCr => s.readDelim [13]
  | .delimLf => s.readDelim [10]
  | .delimCrlf => s.readDelim crlf
  | .prefix8 => { s with control := .readPrefix 1 }
  | .prefix16 => { s with control := .readPrefix 2 }
  | .prefix32 => { s with control := .readPrefix 4 }
  | .prefix64 => { s with control := .readPrefix 8 }
  | .prefixVar => { s with control := .readPrefix sizeMsb }
  | .other _ => s.check .protocolNotSupported

/-- The read upcall, what the handler does in it, and the commit that follows. -/
def handlerRead (h : ReadHandler) (tail : ℕ) : ReadState :=
  let delivered := s.delivered ++ [s.buf.segment]
  let reaction := h delivered
  let buf := reaction.consumes.foldl TripleBuffer.consume s.buf
  { s with
    buf := buf.commitToExternalInput tail
    settings := reaction.settings
    control := .read
    delivered }

/-- The completion of `async_read_until`: it has found the delimiter, or its buffer is
full. Otherwise the operation goes on reading. -/
def completeUntil (delim : List Byte) (ignore : Bool) (maximum : ℕ) : Option ReadState :=
  match firstEnd delim (s.buf.dynamicData maximum) with
  | some transferred =>
    let tail := delim.length * ignore.toNat
    let buf := s.buf.commitToInternalInput s.buf.outputBufferSize
    some (s.deliver (buf.commitToExternalInput (transferred - tail)) tail)
  | none =>
    if s.buf.dynamicSize maximum = s.buf.dynamicMaxSize maximum then some (s.check .notFound)
    else none

/-- An asynchronous read is outstanding. -/
def waiting : Bool :=
  match s.control with
  | .readSome _ | .readFixed _ _ | .prefixBytes _ _ _ | .readDelim _ _ _ => true
  | _ => false

/-- How many bytes the outstanding read still has room for. -/
def room : ℕ :=
  match s.control with
  | .readSome n => n
  | .readFixed n got => n - got
  | .prefixBytes _ n got => n - got
  | .readDelim delim _ maximum =>
    if (firstEnd delim (s.buf.dynamicData maximum)).isSome then 0
    else s.buf.dynamicMaxSize maximum - s.buf.dynamicSize maximum
  | _ => 0

/-- The socket delivers `bytes` to the outstanding read, which asked it for `asked`
bytes, and the callback runs when the read is complete. -/
def receive (asked : ℕ) (bytes : List Byte) : ReadState :=
  let s' := { s with received := s.received ++ bytes }
  match s.control with
  | .readSome _ =>
    let buf := s.buf.fill s.buf.outputOffset bytes
    s'.deliver (buf.commitToInternalInput bytes.length).commitWholeInternalInput 0
  | .readFixed n got =>
    let buf := s.buf.fill (s.buf.outputOffset + got) bytes
    if got + bytes.length = n then
      s'.deliver (buf.commitToInternalInput n).commitWholeInternalInput 0
    else { s' with buf, control := .readFixed n (got + bytes.length) }
  | .prefixBytes len n got =>
    let buf := s.buf.fill (s.buf.outputOffset + got) bytes
    if got + bytes.length = n then
      { s' with buf := buf.commitToInternalInput n, control := .readPrefix len }
    else { s' with buf, control := .prefixBytes len n (got + bytes.length) }
  | .readDelim _ _ maximum =>
    match s.buf.dynamicGrow maximum asked with
    | none => { s' with control := .threw }
    | some buf =>
      let buf := buf.fill (s.buf.externalInputSize + s.buf.dynamicSize maximum) bytes
      { s' with buf := buf.dynamicShrink (asked - bytes.length) }
  | _ => s

/-- The first call of `read()`, made once the connect upcall has configured the session. -/
def initial (h : ReadHandler) : ReadState where
  buf := {}
  settings := (h []).settings
  control := .read
  delivered := []
  frameStart := 0
  received := []

end ReadState

inductive ReadEvent where
  /-- The session runs up to its next upcall or asynchronous operation. -/
  | run
  /-- The handler is called. -/
  | upcall
  /-- The socket delivers bytes. -/
  | receive (asked : ℕ) (bytes : List Byte)
  deriving DecidableEq, Repr

namespace ReadState

/-- One step. A read into an empty buffer completes with no bytes, every other read
delivers at least one byte and at most what was asked for. -/
def step (h : ReadHandler) (s : ReadState) : ReadEvent → Option ReadState
  | .run =>
    match s.control with
    | .read => some s.read
    | .readPrefix len => some (s.readPrefix len)
    | .readDelim delim ignore maximum => s.completeUntil delim ignore maximum
    | _ => none
  | .upcall =>
    match s.control with
    | .upcall tail => some (s.handlerRead h tail)
    | _ => none
  | .receive asked bytes =>
    if s.waiting ∧ bytes.length ≤ asked ∧ asked ≤ s.room ∧
        (bytes = [] → s.control = .readSome 0) then
      some (s.receive asked bytes)
    else none

end ReadState

/-- The receive path of a session under a handler. -/
def readSystem (h : ReadHandler) : TransitionSystem ReadState ReadEvent :=
  .ofStep (· = .initial h) (ReadState.step h)

end Minapp
