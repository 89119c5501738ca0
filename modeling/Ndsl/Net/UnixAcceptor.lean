import Ndsl.Lib.Traced
import Ndsl.Net.Acceptor

/-!
# `Ndsl.Net.UnixAcceptor`: a listening socket of the local domain

`UnixAcceptor.cc`, and `UnixConnection::onAccept`, which calls `setInfo`. What `accept` and `fcntl`
report are inputs. The callbacks of the user run as steps of their own, in which they can register.
-/

set_option autoImplicit false

namespace Ndsl.Net

open Ndsl.Lib Acceptor

/-- `UnixAcceptor` that has been started, with the connections that wait at its socket. -/
structure UnixAcceptor where
  /-- The loop of `pUnixChannel_`. -/
  pLoop_ : Nat
  cb_ : Option Nat := none
  info : Info := { pCon_ := 0 }
  waiting : List Connection := []
  call : Call := .idle
  deriving Repr, DecidableEq

namespace UnixAcceptor

/-- What the system reports in one call of `handleRead`: `accept`, and `fcntl` with `F_GETFL` and
with `F_SETFL`. -/
structure Results where
  accept : Int
  getfl : Int := 0
  setfl : Int := 0
  deriving Repr, DecidableEq

/-- `UnixAcceptor::setInfo`. -/
def setInfo (request : Request) (s : UnixAcceptor) : Int × UnixAcceptor :=
  (S_OK, { s with info := { request with inUse_ := true } })

/-- `UnixConnection::onAccept`, which has no loop among its arguments. -/
def onAccept (request : Request) (s : UnixAcceptor) : Int × UnixAcceptor :=
  s.setInfo { request with loop_ := none }

/-- The end of `handleRead`, from the callback for tests on. -/
def runTest (s : UnixAcceptor) : Traced Event UnixAcceptor :=
  match s.cb_ with
  | some cb => do
      .tell [.testCallback cb]
      return { s with call := .test }
  | none => do
      .tell [.returned S_OK]
      return { s with call := .idle }

/-- `info.inUse_ = false`, behind the callback. -/
def clear (s : UnixAcceptor) : UnixAcceptor := { s with info := { s.info with inUse_ := false } }

/-- `UnixAcceptor::handleRead` with the descriptor, from the test of `inUse_` on. `info.addr_` and
`info.addrlen_` are set to variables of `handleRead`, and nobody reads them. -/
def serve (connfd : Int) (s : UnixAcceptor) : Traced Event UnixAcceptor :=
  if s.info.inUse_ then do
    .tell [.createChannel s.info.pCon_ connfd s.pLoop_]
    match s.info.cb_ with
    | some cb => do
        .tell [.callback cb s.info.param_]
        return { s with call := .callback }
    | none => s.clear.runTest
  else s.runTest

/-- `UnixAcceptor::handleRead` up to its callback. Without a descriptor `fcntl` fails. -/
def handleRead (results : Results) (s : UnixAcceptor) : Traced Event UnixAcceptor :=
  match s.waiting, decide (results.accept < 0) with
  | connection :: waiting, false => do
      .tell [.accept connection results.accept]
      let s := { s with waiting := waiting }
      if results.getfl < 0 then do
        .tell [.log "fcntl get state error\n", .returned S_FALSE]
        return s
      else if results.setfl < 0 then do
        .tell [.log "fcntl set state error\n", .returned S_FALSE]
        return s
      else s.serve results.accept
  | _, _ => do
      .tell [.log "fcntl get state error\n", .returned S_FALSE]
      return s

/-- What can happen next. -/
inductive Op
  /-- A connection arrives. -/
  | arrives (connection : Connection)
  /-- The user calls `onAccept`, in a callback or elsewhere. -/
  | onAccept (request : Request)
  /-- The event loop calls `handleRead`. -/
  | handleRead (results : Results)
  /-- The callback that runs returns. -/
  | returns
  deriving Repr, DecidableEq

/-- One step. -/
def step (s : UnixAcceptor) : Op → Traced Event UnixAcceptor
  | .arrives connection => do
      .tell [.arrives connection]
      return { s with waiting := s.waiting ++ [connection] }
  | .onAccept request => do
      .tell [.onAccept { request with loop_ := none }]
      return (s.onAccept request).2
  | .handleRead results => s.handleRead results
  | .returns =>
      match s.call with
      | .callback => s.clear.runTest
      | .test => do
          .tell [.returned S_OK]
          return { s with call := .idle }
      | .idle => pure s

/-- The steps that can happen: `handleRead` is called while none runs, and `accept` gives a
descriptor for a connection that waits. -/
def Possible (s : UnixAcceptor) : Op → Prop
  | .arrives _ | .onAccept _ => True
  | .handleRead results => s.call = .idle ∧ (0 ≤ results.accept → s.waiting ≠ [])
  | .returns => s.call ≠ .idle

end UnixAcceptor

end Ndsl.Net
