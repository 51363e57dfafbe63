import Minapp.Model.Receive

/-! The SOCKS5 server: what it does in the read upcalls of a session with a client, a
coroutine, until it connects to the target. -/

namespace Minapp

/-- Where the coroutine goes on. -/
inductive Socks5Place where
  | start
  | methods
  | passwordVersion
  | username
  | password
  | request
  | v4Address
  | v4Port
  | v6Address
  | v6Port
  | domain
  | domainPort
  /-- It has ended, with `yield break`, at its end, or by an exception. -/
  | ended
  deriving DecidableEq, Repr

inductive Socks5Action where
  | write (reply : List Byte)
  /-- `std::invalid_argument`. -/
  | throws (what : String)
  /-- `USR:PWD` of the log. -/
  | credentials (usr pwd : List Byte)
  /-- `connect_to(session, ep, {})`. -/
  | connectV4 (address : List Byte) (port : ℕ)
  | connectV6 (address : List Byte) (port : ℕ)
  /-- `async_resolve(domain, port)`. -/
  | resolve (domain : List Byte) (port : ℕ)
  deriving DecidableEq, Repr

/-- The coroutine and the settings of the session, with `buf.whole()` as it was in the last
upcall, and what has been done. -/
structure Socks5 where
  place : Socks5Place
  settings : Settings
  whole : List Byte := []
  actions : List Socks5Action := []
  deriving DecidableEq, Repr

namespace Socks5

/-- `session->protocol(protocol, bufsz, options)`. -/
def protocol (c : Socks5) (protocol : Protocol) (bufsz : ℕ) (options : ProtocolOptions) : Socks5 :=
  { c with settings := { c.settings with protocol, options, readBufferSize := bufsz } }

/-- What a `yield` goes on at. -/
def goesOn (c : Socks5) (place : Socks5Place) : Socks5 := { c with place }

def does (c : Socks5) (action : Socks5Action) : Socks5 :=
  { c with actions := c.actions ++ [action] }

/-- The coroutine ends, after an exception that the handler of the session catches. -/
def throws (c : Socks5) (what : String) : Socks5 := (c.does (.throws what)).goesOn .ended

/-- `p[i]`. -/
def byteAt (p : List Byte) (i : ℕ) : ℕ := (p.getD i 0).toNat

/-- `big_uint16_buf_t::value`. -/
def port (p : List Byte) : ℕ := byteAt p 0 * 256 + byteAt p 1

/-- `connect`, of the session with the client. -/
def connect : Socks5 :=
  { place := .start, settings := ⟨.fixed, 0, 1, []⟩ }

/-- The coroutine, where it goes on, for `buf.whole()` and `buf.data()`. -/
def resume (c : Socks5) (whole data : List Byte) : Socks5 :=
  match c.place with
  | .start =>
    if byteAt whole 0 ≠ 5 then c.throws "Unsupported METHODS VER"
    else (c.protocol .prefix8 256 .doNotConsumeBuffer).goesOn .methods
  | .methods =>
    let methods := (whole.drop 2).take (byteAt whole 1)
    if methods.any (·.toNat = 2) then
      ((c.does (.write [5, 2])).protocol .fixed 1 0).goesOn .passwordVersion
    else if methods.any (·.toNat = 0) then
      ((c.does (.write [5, 0])).protocol .fixed 4 0).goesOn .request
    else (c.does (.write [5, 0xFF])).goesOn .ended
  | .passwordVersion =>
    if byteAt whole 0 ≠ 1 then c.throws "Unsupported USERNAME/PASSWORD VER"
    else (c.protocol .prefix8 256 .doNotConsumeBuffer).goesOn .username
  | .username => (c.protocol .prefix8 256 .doNotConsumeBuffer).goesOn .password
  | .password =>
    let usr := (whole.drop 2).take (byteAt whole 1)
    let pwd := (data.drop 1).take (byteAt data 0)
    (((c.does (.credentials usr pwd)).does (.write [1, 0])).protocol .fixed 4 0).goesOn .request
  | .request =>
    if byteAt whole 0 ≠ 5 then c.throws "Unsupported SOCKS request VER"
    else if byteAt whole 1 ≠ 1 then c.throws "Unsupported SOCKS request CMD"
    else if byteAt whole 2 ≠ 0 then c.throws "Unsupported SOCKS request RSV"
    else if byteAt whole 3 = 1 then
      (c.protocol .fixed 4 .doNotConsumeBuffer).goesOn .v4Address
    else if byteAt whole 3 = 4 then
      (c.protocol .fixed 16 .doNotConsumeBuffer).goesOn .v6Address
    else if byteAt whole 3 = 3 then
      (c.protocol .prefix8 257 .doNotConsumeBuffer).goesOn .domain
    else c.throws "Unsupported SOCKS request ATYP"
  | .v4Address => (c.protocol .fixed 2 .doNotConsumeBuffer).goesOn .v4Port
  | .v4Port =>
    ((c.protocol .any 65536 0).does (.connectV4 ((whole.drop 4).take 4) (port data))).goesOn .ended
  | .v6Address => (c.protocol .fixed 2 .doNotConsumeBuffer).goesOn .v6Port
  | .v6Port =>
    ((c.protocol .any 65536 0).does (.connectV6 ((whole.drop 4).take 16) (port data))).goesOn .ended
  | .domain => (c.protocol .fixed 2 .doNotConsumeBuffer).goesOn .domainPort
  | .domainPort =>
    (c.does (.resolve ((whole.drop 5).take (byteAt whole 4)) (port data))).goesOn .ended
  | .ended => c

/-- What is in the external input before the next frame. -/
def kept (c : Socks5) : List Byte := if c.settings.doNotConsume then c.whole else []

/-- `read`, of a session that has no peer yet. -/
def read (c : Socks5) (data : List Byte) : Socks5 :=
  let whole := c.kept ++ data
  { c with whole }.resume whole data

end Socks5

/-- The server after the segments delivered. -/
def socks5 (delivered : List (List Byte)) : Socks5 := delivered.foldl Socks5.read .connect

def socks5Handler : ReadHandler := fun delivered => ⟨[], (socks5 delivered).settings⟩

end Minapp
