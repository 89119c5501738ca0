import Ndsl.Net.BaseChannel
import Ndsl.Net.TcpConnection

/-!
# `Ndsl.Net.UdpSend`: sending a datagram

`UdpEndpoint.cc`: `createChannel` and `start` set an endpoint up, `onSend` tries to send at once or
leaves a request for `handleWrite`. `start` gives its channel no write handler. `onSend` keeps the
result of `sendto` in a `size_t`.

The trace lists the system calls for sending and the calls of the user's callback, and the result of
`sendto` is an input of the call. A buffer is an address and a length, which `sendto` reads.
-/

set_option autoImplicit false

namespace Ndsl.Net.UdpSend

open Ndsl.Lib
open Ndsl.Net.Tcp (MSG_NOSIGNAL IoResult)

/-- What an endpoint does to send. -/
inductive Act
  /-- `sendto` of `len` bytes at the address `buf`. -/
  | sendto (buf len flags dest_addr addrlen : Nat) (result : IoResult)
  /-- `cb(p)`. -/
  | callback (cb p : Nat)
  deriving Repr, DecidableEq

/-- `cb(p)`, unless `cb` is `NULL`. -/
def callback (cb : Option Nat) (p : Nat) : Traced Act Unit :=
  match cb with
  | none => pure ()
  | some cb => .tell [.callback cb p]

/-- `struct SInfo`, as `onSend` and `handleWrite` use it. -/
structure Info where
  sendBuf_ : Nat
  len_ : Nat
  flags_ : Nat
  dest_addr_ : Nat
  addrlen_ : Nat
  offset_ : Nat
  cb_ : Option Nat
  p_ : Nat
  deriving Repr, DecidableEq

/-- `(char *) sendBuf_ + offset_`. -/
def Info.at (tsi : Info) : Nat := (tsi.sendBuf_ + tsi.offset_) % 2 ^ 64

/-- `*len_ - offset_`. -/
def Info.rest (tsi : Info) : Nat := (tsi.len_ + 2 ^ 64 - tsi.offset_) % 2 ^ 64

/-- A `UdpChannel`: its socket, and whether it has a write handler. -/
structure UdpChannel where
  fd : Int
  handleWrite_ : Bool
  deriving Repr, DecidableEq

/-- What sending uses of a `UdpEndpoint`. -/
structure UdpEndpoint where
  sfd_ : Int := -1
  pUdpChannel_ : Option UdpChannel := none
  SendInfo_ : List Info := []
  deriving Repr, DecidableEq

/-- The arguments of `onSend`. -/
structure Message where
  buf : Nat
  len : Nat
  flags : Nat
  dest_addr : Nat
  addrlen : Nat
  cb : Option Nat
  p : Nat
  deriving Repr, DecidableEq

/-! ### Setting up -/

/-- `UdpEndpoint::createChannel`: the channel calls `handleRead` and `handleWrite`. -/
def createChannel (sfd : Int) (point : UdpEndpoint) : Int × UdpEndpoint :=
  (S_OK, { point with pUdpChannel_ := some { fd := sfd, handleWrite_ := true } })

/-- `UdpEndpoint::createAndBind`, with what `socket` and `bind` return. -/
def createAndBind (socket bind : Int) (point : UdpEndpoint) : Int × UdpEndpoint :=
  let point := { point with sfd_ := socket }
  if socket < 0 then (S_FALSE, point)
  else if -1 = bind then (S_FALSE, point)
  else (S_OK, point)

/-- `UdpEndpoint::start`: the channel calls `handleRead` only. -/
def start (socket bind : Int) (point : UdpEndpoint) : Int × UdpEndpoint :=
  let (n, point) := createAndBind socket bind point
  if n < 0 then (S_FALSE, point)
  else (S_OK, { point with pUdpChannel_ := some { fd := point.sfd_, handleWrite_ := false } })

/-! ### Sending -/

/-- `UdpEndpoint::onSend`. The test for an error never holds, and an error is queued with `-1` as
the offset. -/
def onSend (m : Message) (n : IoResult) (point : UdpEndpoint) : Traced Act (Int × UdpEndpoint) :=
  match point.pUdpChannel_ with
  | none => .fault
  | some _ => do
    .tell [.sendto m.buf m.len (m.flags ||| MSG_NOSIGNAL) m.dest_addr m.addrlen n]
    if toSize n.value = m.len then do
      callback m.cb m.p
      return (S_OK, point)
    else return (S_OK, { point with SendInfo_ := point.SendInfo_ ++ [info m n] })
where
  /-- The request that is left for `handleWrite`. -/
  info (m : Message) (n : IoResult) : Info :=
    { sendBuf_ := m.buf
      len_ := m.len
      flags_ := m.flags ||| MSG_NOSIGNAL
      dest_addr_ := m.dest_addr
      addrlen_ := m.addrlen
      offset_ := toSize n.value
      cb_ := m.cb
      p_ := m.p }

/-- `UdpEndpoint::handleWrite`. What it does about an error stands behind the test that there is
none. -/
def handleWrite (n : IoResult) (point : UdpEndpoint) : Traced Act (Int × UdpEndpoint) :=
  match point.SendInfo_ with
  | [] => pure (S_OK, point)
  | tsi :: rest =>
    match point.pUdpChannel_ with
    | none => .fault
    | some channel =>
      if channel.fd < 0 then pure (-1, point)
      else do
        .tell [.sendto tsi.at tsi.rest tsi.flags_ tsi.dest_addr_ tsi.addrlen_ n]
        if 0 < n.value then
          let tsi := { tsi with offset_ := (tsi.offset_ + n.value.toNat) % 2 ^ 64 }
          if tsi.offset_ = tsi.len_ then do
            callback tsi.cb_ tsi.p_
            return (S_OK, { point with SendInfo_ := rest })
          else return (S_OK, { point with SendInfo_ := tsi :: rest })
        else return (S_OK, point)

/-- The loop has seen that the socket takes data: what the channel calls then. -/
def writable (n : IoResult) (point : UdpEndpoint) : Traced Act (Int × UdpEndpoint) :=
  match point.pUdpChannel_ with
  | none => .fault
  | some channel => (upward channel).handleEvent point
where
  /-- The channel, with the handler that the endpoint has set. -/
  upward (channel : UdpChannel) : BaseChannel Act UdpEndpoint :=
    { revents_ := EPOLLOUT
      handleWrite_ :=
        if channel.handleWrite_ then some fun point => return (← handleWrite n point).2
        else none }

end Ndsl.Net.UdpSend
