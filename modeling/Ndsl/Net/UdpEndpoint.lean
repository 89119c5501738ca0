import Ndsl.Net.TcpConnection

/-!
# `Ndsl.Net.UdpEndpoint`: receiving a datagram

`UdpEndpoint.cc`: `onRecv` tries to receive at once or leaves a request for `handleRead`. Calls
are modelled as those of a `TcpConnection` are: the trace lists the system calls and the calls of
the user's callback, and the result of `recvfrom` is an input of the call.
-/

set_option autoImplicit false

namespace Ndsl.Net.Udp

open Ndsl.Lib
open Ndsl.Net.Tcp (EAGAIN EWOULDBLOCK MSG_NOSIGNAL RecvResult)

/-- What an endpoint does. -/
inductive Act
  /-- `recvfrom` of at most `n` bytes to the address `buf`. -/
  | recvfrom (buf n flags : Nat) (result : RecvResult)
  /-- `*len = value`. -/
  | setLen (len value : Nat)
  /-- `cb(p)`. -/
  | callback (cb p : Nat)
  deriving Repr, DecidableEq

/-- `cb(p)`, unless `cb` is `NULL`. -/
def callback (cb : Option Nat) (p : Nat) : Traced Act Unit :=
  match cb with
  | none => pure ()
  | some cb => .tell [.callback cb p]

/-- `struct SInfo`, as `onRecv` and `handleRead` use it. -/
structure RecvInfo where
  recvBuf_ : Nat := 0
  flags_ : Nat := 0
  len_ : Nat := 0
  cb_ : Option Nat := none
  p_ : Nat := 0
  inUse_ : Bool := false
  deriving Repr, DecidableEq

/-- What receiving uses of a `UdpEndpoint`. -/
structure UdpEndpoint where
  fd : Int
  RecvInfo_ : RecvInfo := {}
  deriving Repr, DecidableEq

/-- The arguments of `onRecv`, with the value of `*len` as the capacity. The flags have neither
`MSG_PEEK` nor `MSG_TRUNC`: `recvfrom` takes the datagram and returns the number of the bytes that
it has stored. -/
structure Request where
  buf : Nat
  len : Nat
  capacity : Nat
  flags : Nat
  cb : Option Nat
  p : Nat
  deriving Repr, DecidableEq

/-- The bytes of a datagram that `recvfrom` stores when it is asked for at most `n`. -/
def stored (n : Nat) (datagram : List UInt8) : List UInt8 :=
  datagram.take n

/-- `UdpEndpoint::onRecv`. -/
def onRecv (r : Request) (result : RecvResult) (point : UdpEndpoint) :
    Traced Act (Int × UdpEndpoint) := do
  .tell [.recvfrom r.buf r.capacity r.flags result]
  match result with
  | .fail errno =>
    if errno = EAGAIN ∨ errno = EWOULDBLOCK then
      return (S_OK,
        { point with
          RecvInfo_ :=
            { recvBuf_ := r.buf
              flags_ := r.flags ||| MSG_NOSIGNAL
              len_ := r.len
              cb_ := r.cb
              p_ := r.p
              inUse_ := true } })
    else return (S_FALSE, point)
  | .data datagram => do
    .tell [.setLen r.len (stored r.capacity datagram).length]
    callback r.cb r.p
    return (S_OK, point)

/-- `UdpEndpoint::handleRead`. The result of `recvfrom` is kept in a `size_t`, so the test for an
error never holds, and the request stays in use. -/
def handleRead (result : RecvResult) (point : UdpEndpoint) : Traced Act (Int × UdpEndpoint) :=
  if point.RecvInfo_.inUse_ then
    if point.fd < 0 then pure (S_FALSE, point)
    else do
      .tell [.recvfrom point.RecvInfo_.recvBuf_ MAXLINE point.RecvInfo_.flags_ result]
      .tell [.setLen point.RecvInfo_.len_ (received result)]
      callback point.RecvInfo_.cb_ point.RecvInfo_.p_
      return (S_OK, point)
  else pure (S_FALSE, point)
where
  /-- What `recvfrom` returns, as a `size_t`. -/
  received : RecvResult → Nat
    | .data datagram => (stored MAXLINE datagram).length
    | .fail _ => toSize (-1)

end Ndsl.Net.Udp
