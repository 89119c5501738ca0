import Ndsl.Net.TcpConnection

/-!
# `Ndsl.Net.UnixConnection`: sending and receiving on a socket of the local domain

`UnixConnection.cc`: `onSend` tries to send at once and queues what is left of a message that was
sent in part, `handleWrite` goes on with the entry at the front of the queue; `onRecv` tries to
receive at once or leaves its request in `RecvInfo_`, and `handleRead` receives for what is there.
The calls are modelled as those of a `TcpConnection` are.

A size is an `ssize_t`. Nothing is in `errorHandle_` before `onError`, in `RecvInfo_` before an
`onRecv` that would block, and in `pUnixChannel_` before `createChannel`. A call that uses one of
them nevertheless stops the execution.
-/

set_option autoImplicit false

namespace Ndsl.Net.Unix

open Ndsl.Lib
open Ndsl.Net.Tcp (EAGAIN EWOULDBLOCK IoResult RecvResult Message Request)

/-- What a connection does. -/
inductive Act
  /-- A call that a `TcpConnection` makes as well: `send`, `recv`, `*len = value`, or a callback. -/
  | io (act : Tcp.Act)
  /-- `errorHandle_(errno, fd)`. -/
  | errorHandle (handler : Nat) (errno fd : Int)
  deriving Repr, DecidableEq

/-- `cb(param)`, unless `cb` is `NULL`. -/
def callback (cb : Option Nat) (param : Nat) : Traced Act Unit :=
  match cb with
  | none => pure ()
  | some cb => .tell [.io (.callback cb param)]

/-- `errorHandle_(errno, fd)`, of a pointer that is used without a test. -/
def errorHandle (handler : Option Nat) (errno fd : Int) : Traced Act Unit :=
  match handler with
  | none => .fault
  | some handler => .tell [.errorHandle handler errno fd]

/-- `struct SInfo`, as the send queue uses it. `len_` is what the pointer points to. -/
structure Info where
  sendBuf_ : List UInt8
  len_ : Int
  flags_ : Nat
  cb_ : Option Nat
  param_ : Nat
  offset_ : Int
  deriving Repr, DecidableEq

/-- `struct SInfo`, as `onRecv` and `handleRead` use it. -/
structure RecvInfo where
  readBuf_ : Nat
  len_ : Nat
  flags_ : Nat
  cb_ : Option Nat
  param_ : Nat
  deriving Repr, DecidableEq

/-- A `UnixConnection`. Of its channel it uses the descriptor. -/
structure UnixConnection where
  pUnixChannel_ : Option Int := none
  qSendInfo_ : List Info := []
  RecvInfo_ : Option RecvInfo := none
  errorHandle_ : Option Nat := none
  deriving Repr, DecidableEq

/-- `UnixConnection::createChannel`. -/
def createChannel (sockfd : Int) (conn : UnixConnection) : Int × UnixConnection :=
  (S_OK, { conn with pUnixChannel_ := some sockfd })

/-- `UnixConnection::onError`. -/
def onError (cb : Nat) (conn : UnixConnection) : Int × UnixConnection :=
  (S_OK, { conn with errorHandle_ := some cb })

/-! ### Sending -/

/-- `UnixConnection::onSend`. Every negative result is taken for an error. -/
def onSend (m : Message) (n : IoResult) (conn : UnixConnection) :
    Traced Act (Int × UnixConnection) :=
  match conn.pUnixChannel_ with
  | none => .fault
  | some fd => do
    .tell [.io (.send m.buf 0 m.buf.length m.flags n)]
    match n with
    | .fail errno => do
      -- also when the socket would only have blocked
      errorHandle conn.errorHandle_ errno fd
      return (S_FALSE, conn)
    | .count k =>
      if k = m.buf.length then do
        callback m.cb m.param
        return (S_OK, conn)
      else return (S_OK, queue m k conn)
where
  /-- The connection with a new entry at the end of its queue. -/
  queue (m : Message) (n : Nat) (conn : UnixConnection) : UnixConnection :=
    { conn with
      qSendInfo_ := conn.qSendInfo_ ++ [
        { sendBuf_ := m.buf
          len_ := m.buf.length
          flags_ := m.flags
          cb_ := m.cb
          param_ := m.param
          offset_ := n }] }

/-- `UnixConnection::handleWrite`. -/
def handleWrite (n : IoResult) (conn : UnixConnection) : Traced Act (Int × UnixConnection) :=
  match conn.pUnixChannel_ with
  | none => .fault
  | some fd =>
    if fd < 0 then pure (-1, conn)
    else
      match conn.qSendInfo_ with
      | [] => pure (S_OK, conn)
      | tsi :: rest => do
        .tell [.io (.send tsi.sendBuf_ (toSize tsi.offset_) (toSize (tsi.len_ - tsi.offset_))
          tsi.flags_ n)]
        match n with
        | .fail errno => do
          -- the entry is dropped, also when the socket would only have blocked
          errorHandle conn.errorHandle_ errno fd
          return (S_FALSE, { conn with qSendInfo_ := rest })
        | .count k =>
          if 0 < k then
            if tsi.offset_ + k = tsi.len_ then do
              callback tsi.cb_ tsi.param_
              return (S_OK, { conn with qSendInfo_ := rest })
            else
              let tsi := { tsi with offset_ := tsi.offset_ + k }
              return (S_OK, { conn with qSendInfo_ := tsi :: rest })
          else return (S_OK, conn)

/-! ### Receiving -/

/-- `UnixConnection::onRecv`. What `recv` returned is not written to `*len`. -/
def onRecv (r : Request) (n : RecvResult) (conn : UnixConnection) :
    Traced Act (Int × UnixConnection) :=
  match conn.pUnixChannel_ with
  | none => .fault
  | some fd => do
    .tell [.io (.recv r.buf MAXLINE r.flags n)]
    match n with
    | .fail errno =>
      if errno = EAGAIN ∨ errno = EWOULDBLOCK then return (S_OK, register r conn)
      else do
        errorHandle conn.errorHandle_ errno fd
        return (S_FALSE, conn)
    | .data _ => do
      callback r.cb r.param
      return (S_OK, conn)
where
  /-- The connection with the request left for `handleRead`. -/
  register (r : Request) (conn : UnixConnection) : UnixConnection :=
    { conn with
      RecvInfo_ := some
        { readBuf_ := r.buf
          len_ := r.len
          flags_ := r.flags
          cb_ := r.cb
          param_ := r.param } }

/-- `UnixConnection::handleRead`. It does not ask whether the request in `RecvInfo_` has been served
already. -/
def handleRead (n : RecvResult) (conn : UnixConnection) : Traced Act (Int × UnixConnection) :=
  match conn.pUnixChannel_ with
  | none => .fault
  | some fd =>
    if fd < 0 then pure (S_FALSE, conn)
    else
      match conn.RecvInfo_ with
      | none => .fault
      | some info => do
        .tell [.io (.recv info.readBuf_ MAXLINE info.flags_ n)]
        match n with
        | .fail errno => do
          errorHandle conn.errorHandle_ errno fd
          .tell [.io (.setLen info.len_ (toSize (-1)))]
          return (S_FALSE, conn)
        | .data bytes => do
          .tell [.io (.setLen info.len_ bytes.length)]
          callback info.cb_ info.param_
          return (S_OK, conn)

end Ndsl.Net.Unix
