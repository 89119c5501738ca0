import Ndsl.Lib.Traced
import Ndsl.Net.Acceptor

/-!
# `Ndsl.Net.TcpAcceptor`: a listening socket

`TcpAcceptor.cc`. `onAccept` leaves its arguments in `info`, and `handleRead` accepts a connection
for them. The kernel keeps the connections that wait. The callbacks of the user run as steps of
their own, in which they can call `onAccept`.
-/

set_option autoImplicit false

namespace Ndsl.Net

open Ndsl.Lib Acceptor

/-- `TcpAcceptor` that has been started, with the connections that wait at its socket. -/
structure TcpAcceptor where
  pLoop_ : Nat
  cb_ : Option Nat := none
  info : Info := { pCon_ := 0 }
  waiting : List Connection := []
  call : Call := .idle
  deriving Repr, DecidableEq

namespace TcpAcceptor

/-- `TcpAcceptor::setInfo`. -/
def setInfo (request : Request) (s : TcpAcceptor) : Int × TcpAcceptor :=
  (S_OK, { s with info := { request with inUse_ := true } })

/-- `TcpAcceptor::onAccept`. -/
def onAccept (request : Request) (s : TcpAcceptor) : Int × TcpAcceptor := s.setInfo request

/-- What `handleRead` writes for the user. -/
def copies (request : Request) (connection : Connection) : List Event :=
  request.addr_.toList.map (.address · connection.cliaddr) ++
    request.addrlen_.toList.map (.length · connection.clilen)

/-- The end of `handleRead`, from the callback for tests on. -/
def runTest (s : TcpAcceptor) : Traced Event TcpAcceptor :=
  match s.cb_ with
  | some cb => do
      .tell [.testCallback cb]
      return { s with call := .test }
  | none => do
      .tell [.returned S_OK]
      return { s with call := .idle }

/-- `TcpAcceptor::handleRead` with the connection that `accept` has taken. -/
def serve (connfd : Int) (connection : Connection) (s : TcpAcceptor) :
    Traced Event TcpAcceptor := do
  .tell [.createChannel s.info.pCon_ connfd (s.info.loop_.getD s.pLoop_)]
  .tell (copies s.info.toRequest connection)
  let s := { s with info := { s.info with inUse_ := false } }
  match s.info.cb_ with
  | some cb => do
      .tell [.callback cb s.info.param_]
      return { s with call := .callback }
  | none => s.runTest

/-- `TcpAcceptor::handleRead` up to its callback, where `accept` gives `connfd`: a descriptor for
the first connection that waits, or a failure. -/
def handleRead (connfd : Int) (s : TcpAcceptor) : Traced Event TcpAcceptor :=
  if s.info.inUse_ then
    match s.waiting, decide (connfd < 0) with
    | connection :: waiting, false => do
        .tell [.accept connection connfd]
        let s := { s with waiting := waiting }
        if connfd > 0 then s.serve connfd connection
        else do
          .tell [.log "connect fail", .returned S_FALSE]
          return s
    | _, _ => do
        .tell [.log "connect fail", .returned S_FALSE]
        return s
  else do
    .tell [.returned S_OK]
    return s

/-- What can happen next. -/
inductive Op
  /-- A connection arrives. -/
  | arrives (connection : Connection)
  /-- The user calls `onAccept`, in a callback or elsewhere. -/
  | onAccept (request : Request)
  /-- The event loop calls `handleRead`. -/
  | handleRead (connfd : Int)
  /-- The callback that runs returns. -/
  | returns
  deriving Repr, DecidableEq

/-- One step. -/
def step (s : TcpAcceptor) : Op → Traced Event TcpAcceptor
  | .arrives connection => do
      .tell [.arrives connection]
      return { s with waiting := s.waiting ++ [connection] }
  | .onAccept request => do
      .tell [.onAccept request]
      return (s.onAccept request).2
  | .handleRead connfd => s.handleRead connfd
  | .returns =>
      match s.call with
      | .callback => s.runTest
      | .test => do
          .tell [.returned S_OK]
          return { s with call := .idle }
      | .idle => pure s

/-- The steps that can happen: `handleRead` is called while none runs, and `accept` gives a
descriptor for a connection that waits. -/
def Possible (s : TcpAcceptor) : Op → Prop
  | .arrives _ | .onAccept _ => True
  | .handleRead connfd => s.call = .idle ∧ (s.info.inUse_ = true → 0 ≤ connfd → s.waiting ≠ [])
  | .returns => s.call ≠ .idle

end TcpAcceptor

end Ndsl.Net
