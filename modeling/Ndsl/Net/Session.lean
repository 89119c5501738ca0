import Ndsl.Lib.Lifetime
import Ndsl.Net.DtpClient
import Ndsl.Net.TcpConnection

/-!
# `Ndsl.Net.Session`: sending a file or a data block

`DTP.cc`: `sendFile` and `sendData` listen for the peer, offer it the file or the data, and start
a timer. What happens then is the work of callbacks, which share a record (`ListenMgr` or
`DataListenMgr`) and delete the listener, the connection and the record when they are done.

A `Session` is the record with what it points to, and with the places from which the callbacks are
called: the loop, which has found a channel ready, the timer, and the work queue. Its trace lists
the accesses to the objects, each with the function that makes it, and what the peer and the
client see. The memory of a deleted object keeps its content, so that a function which goes on
using it can be followed; the trace tells that it did.
-/

set_option autoImplicit false

namespace Ndsl.Net.Dtp

open Ndsl.Lib
open Ndsl.Net.Tcp (IoResult TcpChannel TcpConnection)

/-- A session: the fields of its record, what the listener and the connection hold, and who may
call. -/
structure Session where
  /-- `mgr->acceptor_` is not `NULL`. -/
  acceptor_ : Bool := true
  /-- `mgr->conn_` is not `NULL`. -/
  conn_ : Bool := true
  /-- The `info.inUse_` of the acceptor. -/
  inUse_ : Bool := true
  /-- What `conn_` points to. -/
  conn : TcpConnection := {}
  /-- The channels that are registered with the loop. -/
  acceptorEnrolled : Bool := true
  connEnrolled : Bool := false
  /-- The channels that the loop has found ready and has not called yet. -/
  acceptorReady : Bool := false
  connReady : Bool := false
  /-- The timer has not fired. -/
  timer : Bool := true
  /-- The `senfFileClearMemory` items in the work queue. -/
  tasks : Nat := 0
  deriving Repr, DecidableEq

namespace Session

/-- The objects of a session, under the names of the variables that point to them. -/
inductive Object
  | mgr
  | acceptor
  | conn
  | client
  deriving Repr, DecidableEq

/-- The functions that work on a session. `handleRead` is the one of `TcpAcceptor`, and
`handleWrite` the one of `TcpConnection`. -/
inductive Func
  | handleRead
  | acceptorCallback
  | sendFile
  | sendInLoop
  | sendFileCallback
  | senfFileClearMemory
  | stopListen
  | acceptorCallbackOfSendData
  | onSend
  | handleWrite
  | sendDataCallback
  | stopListenOfData
  deriving Repr, DecidableEq

/-- What happens in a session. -/
inductive Event
  /-- An access to an object. -/
  | access (func : Func) (access : Access Object)
  /-- `accept` gave a connection. -/
  | accepted
  /-- What the data connection does. -/
  | conn (act : Tcp.Act)
  /-- `client_->analysisProtobuf` of a notice with this flag. -/
  | analysisProtobuf (flag : Int)
  deriving Repr, DecidableEq

/-- An access of a function to an object it uses. -/
def use (func : Func) (o : Object) : Event := .access func (.use o)

/-- `delete mgr->acceptor_`, which takes its channel from the loop. -/
def deleteAcceptor (func : Func) (s : Session) : Traced Event Session :=
  if s.acceptor_ then do
    .tell [.access func (.delete .acceptor)]
    return { s with acceptorEnrolled := false }
  else return s

/-- `delete mgr->conn_`, likewise. -/
def deleteConn (func : Func) (s : Session) : Traced Event Session :=
  if s.conn_ then do
    .tell [.access func (.delete .conn)]
    return { s with connEnrolled := false }
  else return s

/-- The call of a function of the connection. When it calls the callback it was given, that is
`cb`. -/
def onConn (x : Traced Tcp.Act (Int × TcpConnection)) (cb : Session → Traced Event Session)
    (s : Session) : Traced Event Session :=
  match x.value with
  | none => .fault
  | some (_, conn) => do
    .tell (x.log.map .conn)
    if completes x.log then cb { s with conn := conn } else return { s with conn := conn }
where
  /-- The callback is called. -/
  completes (acts : List Tcp.Act) : Bool :=
    acts.any fun
      | .callback _ _ => true
      | _ => false

/-- `TcpAcceptor::handleRead`, with the callback of its registration. `accepted` is the channel of
the connection that `accept` gives; the fields that its constructor leaves alone hold anything. -/
def handleRead (cb : Session → Traced Event Session) (accepted : Option TcpChannel)
    (s : Session) : Traced Event Session := do
  .tell [use .handleRead .acceptor]
  if s.inUse_ then
    match accepted with
    | none => return s
    | some channel => do
      .tell [.accepted, use .handleRead .conn, use .handleRead .acceptor]
      let s ← cb { s with
        conn := { s.conn with pTcpChannel_ := some channel }
        connEnrolled := true
        inUse_ := false }
      -- `pThis->cb_`, for tests only
      .tell [use .handleRead .acceptor]
      return s
  else return s

/-! ### `sendFile` -/

/-- `DTP::sendFileCallback`. -/
def sendFileCallback (s : Session) : Traced Event Session := do
  .tell [use .sendFileCallback .mgr, use .sendFileCallback .client,
    .analysisProtobuf SENDFILESUCC, use .sendFileCallback .mgr]
  return { s with tasks := s.tasks + 1 }

/-- `TcpConnection::sendFile` of the whole file at a path. `length` is its length, unless it cannot
be opened. -/
def sendFile (inFd : Int) (length : Option Nat) (result : IoResult) (s : Session) :
    Traced Event Session := do
  .tell [use .sendFile .conn]
  match length with
  | none => return s
  | some length =>
    s.onConn (Tcp.sendFile inFd 0 length (some 0) 0 result s.conn) sendFileCallback

/-- `DTP::acceptorCallback`. -/
def acceptorCallback (inFd : Int) (length : Option Nat) (result : IoResult) (s : Session) :
    Traced Event Session := do
  .tell [use .acceptorCallback .mgr]
  let s ← s.deleteAcceptor .acceptorCallback
  .tell [use .acceptorCallback .mgr]
  { s with acceptor_ := false }.sendFile inFd length result

/-- `TcpConnection::sendInLoop`. It takes the entry off the queue when the callback has returned. -/
def sendInLoop (result : IoResult) (s : Session) : Traced Event Session := do
  .tell [use .sendInLoop .conn]
  s.onConn (Tcp.sendInLoop result s.conn) fun s => do
    let s ← s.sendFileCallback
    .tell [use .sendInLoop .conn]
    return s

/-- `DTP::senfFileClearMemory`. -/
def senfFileClearMemory (s : Session) : Traced Event Session := do
  .tell [use .senfFileClearMemory .mgr]
  let s ← s.deleteConn .senfFileClearMemory
  .tell [.access .senfFileClearMemory (.delete .mgr)]
  return { s with tasks := s.tasks - 1 }

/-- `DTP::stopListen`. -/
def stopListen (s : Session) : Traced Event Session := do
  .tell [use .stopListen .mgr]
  if s.acceptor_ then
    let s ← s.deleteAcceptor .stopListen
    let s ← s.deleteConn .stopListen
    return { s with timer := false }
  else return { s with timer := false }

/-- A step of a session of `sendFile`: the loop finds the listener ready, or calls it, with what
`accept` and `sendfile` give; `sendInLoop` is called; the loop takes `senfFileClearMemory` from the
work queue; the timer fires. -/
inductive FileAction
  | ready
  | handleRead (accepted : Option TcpChannel) (inFd : Int) (length : Option Nat)
      (result : IoResult)
  | sendInLoop (result : IoResult)
  | senfFileClearMemory
  | stopListen
  deriving Repr, DecidableEq

/-- One step. -/
def fileStep (s : Session) : FileAction → Traced Event Session
  | .ready => pure { s with acceptorReady := true }
  | .handleRead accepted inFd length result =>
    { s with acceptorReady := false }.handleRead (acceptorCallback inFd length result) accepted
  | .sendInLoop result => s.sendInLoop result
  | .senfFileClearMemory => s.senfFileClearMemory
  | .stopListen => s.stopListen

/-- The steps that can be taken. The loop finds a channel ready while it is registered, and calls
it when its turn comes. The descriptor of a connection is positive. -/
def FilePossible (s : Session) : FileAction → Prop
  | .ready => s.acceptorEnrolled = true
  | .handleRead accepted .. => s.acceptorReady = true ∧ ∀ channel ∈ accepted, 0 < channel.fd
  | .sendInLoop _ => s.conn.qSendfileInfo_ ≠ []
  | .senfFileClearMemory => 0 < s.tasks
  | .stopListen => s.timer = true

/-! ### `sendData` -/

/-- The message of `sendData`: its callback is `sendDataCallback`, and `mgr` is the parameter. -/
def message (buffer_ : List UInt8) : Tcp.Message :=
  { buf := buffer_, flags := 0, cb := some 0, param := 0 }

/-- `DTP::sendDataCallback`. -/
def sendDataCallback (s : Session) : Traced Event Session := do
  .tell [use .sendDataCallback .mgr, use .sendDataCallback .client,
    .analysisProtobuf SENDDATASUCC, use .sendDataCallback .mgr]
  let s ← s.deleteConn .sendDataCallback
  let s ← { s with conn_ := false }.deleteAcceptor .sendDataCallback
  return { s with acceptor_ := false }

/-- `TcpConnection::onSend`. Behind the callback it does nothing. -/
def onSend (buffer_ : List UInt8) (result : IoResult) (s : Session) : Traced Event Session := do
  .tell [use .onSend .conn]
  s.onConn (Tcp.onSend (message buffer_) result s.conn) sendDataCallback

/-- `DTP::acceptorCallbackOfSendData`. -/
def acceptorCallbackOfSendData (buffer_ : List UInt8) (result : IoResult) (s : Session) :
    Traced Event Session := do
  .tell [use .acceptorCallbackOfSendData .mgr]
  s.onSend buffer_ result

/-- `TcpConnection::handleWrite`. It takes the entry off the queue when the callback has
returned. -/
def handleWrite (result : IoResult) (s : Session) : Traced Event Session := do
  .tell [use .handleWrite .conn]
  s.onConn (Tcp.handleWrite result s.conn) fun s => do
    let s ← s.sendDataCallback
    .tell [use .handleWrite .conn]
    return s

/-- `DTP::stopListenOfData`. -/
def stopListenOfData (s : Session) : Traced Event Session := do
  .tell [use .stopListenOfData .mgr]
  if s.acceptor_ then
    let s ← s.deleteAcceptor .stopListenOfData
    let s ← s.deleteConn .stopListenOfData
    return { s with timer := false }
  else return { s with timer := false }

/-- A step of a session of `sendData`: the loop finds the listener or the connection ready, or
calls it, with what `accept` and `send` give; the timer fires. -/
inductive DataAction
  | ready
  | connReady
  | handleRead (accepted : Option TcpChannel) (result : IoResult)
  | handleWrite (result : IoResult)
  | stopListenOfData
  deriving Repr, DecidableEq

/-- One step of a session that sends `buffer_`. -/
def dataStep (buffer_ : List UInt8) (s : Session) : DataAction → Traced Event Session
  | .ready => pure { s with acceptorReady := true }
  | .connReady => pure { s with connReady := true }
  | .handleRead accepted result =>
    { s with acceptorReady := false }.handleRead (acceptorCallbackOfSendData buffer_ result)
      accepted
  | .handleWrite result => { s with connReady := false }.handleWrite result
  | .stopListenOfData => s.stopListenOfData

/-- A result that `send` can have for a request of this many bytes. -/
def Gives (requested : Nat) : IoResult → Prop
  | .count k => k ≤ requested ∧ (requested = 0 ∨ 0 < k)
  | .fail _ => True

/-- The steps that can be taken. -/
def DataPossible (buffer_ : List UInt8) (s : Session) : DataAction → Prop
  | .ready => s.acceptorEnrolled = true
  | .connReady => s.connEnrolled = true
  | .handleRead accepted result =>
    s.acceptorReady = true ∧ (∀ channel ∈ accepted, 0 < channel.fd) ∧ Gives buffer_.length result
  | .handleWrite result =>
    s.connReady = true ∧ ∀ tsi ∈ s.conn.qSendInfo_.head?, Gives tsi.rest result
  | .stopListenOfData => s.timer = true

end Session

end Ndsl.Net.Dtp
