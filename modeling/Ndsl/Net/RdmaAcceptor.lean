import Ndsl.Lib.Traced
import Ndsl.Net.Basic

/-!
# `Ndsl.Net.RdmaAcceptor`: connect requests over RDMA

`RdmaAcceptor.cc`, with `createPassiveConnection` and `accept` of `RdmaConnection.cc`. A
`RdmaConnection`, an `rdma_cm_id` and a callback are numbers. What the functions of the verbs and
the connection manager report is an input.

The callback of the user runs as a step of its own, in which it can call `onAccept`.
-/

set_option autoImplicit false

namespace Ndsl.Net

open Ndsl.Lib

namespace RdmaAcceptor

/-- `RdmaConnection`: its `rdma_cm_id`, and whether `sendCqChannel_` and `recvCqChannel_` are there.
-/
structure Passive where
  id_ : Option Nat := none
  channels : Bool := false
  deriving Repr, DecidableEq

/-- The arguments of `onAccept`. -/
structure Request where
  rc : Nat
  aCb : Option Nat := none
  acceptorParam : Nat := 0
  deriving Repr, DecidableEq

/-- `RdmaAcceptor::Info`. -/
structure Info extends Request where
  valid : Bool := false
  isAccepted : Bool := false
  deriving Repr, DecidableEq

/-- What is reported while a request is served: `ibv_alloc_pd`, `rdma_create_qp`,
`ibv_req_notify_cq` for the receives and the sends, and `rdma_accept`. -/
structure Results where
  pd : Bool := true
  qp : Int := 0
  recvNotify : Int := 0
  sendNotify : Int := 0
  accept : Int := 0
  deriving Repr, DecidableEq

/-- `rdma_cm_event`. -/
inductive CmEvent
  /-- `RDMA_CM_EVENT_CONNECT_REQUEST`, with the id of the new connection. -/
  | connectRequest (id : Nat) (results : Results)
  | established
  /-- `RDMA_CM_EVENT_DISCONNECTED`, with `id->context`. -/
  | disconnected (rc : Nat)
  | other
  deriving Repr, DecidableEq

/-- What can be seen. -/
inductive Event
  | onAccept (request : Request)
  /-- A connect request arrives. -/
  | request (id : Nat)
  /-- `createPassiveConnection` has made the channels. -/
  | bind (rc id : Nat)
  | destroyQp (id : Nat)
  | deallocPd (id : Nat)
  /-- `rdma_reject`, `rdma_destroy_id`. -/
  | reject (id : Nat)
  /-- `rdma_accept`, of the id that the connection has. -/
  | rdmaAccept (id : Option Nat) (ret : Int)
  /-- `isAccepted = true`: the request is accepted for the connection. -/
  | accepted (rc id : Nat)
  | callback (aCb param : Nat)
  /-- `RdmaConnection::shutdown`. -/
  | shutdown (rc : Nat)
  | log (message : String)
  | ack
  | returned (ret : Int)
  deriving Repr, DecidableEq

end RdmaAcceptor

open RdmaAcceptor in
/-- `RdmaAcceptor` that has been started, with the connections of the user. -/
structure RdmaAcceptor where
  info_ : Info := { rc := 0 }
  connections : Nat → Passive := fun _ => {}
  /-- `handleRead` is in its callback. -/
  inCallback : Bool := false

namespace RdmaAcceptor

/-- `RdmaAcceptor::onAccept`. -/
def onAccept (request : Request) (s : RdmaAcceptor) : RdmaAcceptor :=
  { s with info_ := { request with valid := true, isAccepted := false } }

/-- `RdmaAcceptor::getAcceptedConnection`. -/
def getAcceptedConnection (s : RdmaAcceptor) : Option Nat :=
  if s.info_.valid = true ∧ s.info_.isAccepted = true then some s.info_.rc else none

/-- The connection `rc` becomes `connection`. -/
def set (rc : Nat) (connection : Passive) (s : RdmaAcceptor) : RdmaAcceptor :=
  { s with connections := Function.update s.connections rc connection }

@[simp] theorem set_self (rc : Nat) (connection : Passive) (s : RdmaAcceptor) :
    (s.set rc connection).connections rc = connection :=
  Function.update_self ..

theorem set_of_ne {r rc : Nat} (h : r ≠ rc) (connection : Passive) (s : RdmaAcceptor) :
    (s.set rc connection).connections r = s.connections r :=
  Function.update_of_ne h ..

/-- `RdmaConnection::createPassiveConnection`. -/
def createPassiveConnection (rc id : Nat) (results : Results) (s : RdmaAcceptor) :
    Traced Event (Int × RdmaAcceptor) :=
  if (s.connections rc).channels then pure (S_FALSE, s)
  else
    let s := s.set rc { id_ := some id }
    if !results.pd then do
      .tell [.log "ibv alloc pd error.", .reject id]
      return (S_FALSE, s)
    else if results.qp < 0 then do
      .tell [.log "rdma alloc qp error.", .deallocPd id, .reject id]
      return (S_FALSE, s)
    else if results.recvNotify < 0 then do
      .tell [.log "ibv req notify recv cq error.", .destroyQp id, .deallocPd id, .reject id]
      return (S_FALSE, s)
    else if results.sendNotify < 0 then do
      .tell [.log "ibv req notify send cq error.", .destroyQp id, .deallocPd id, .reject id]
      return (S_FALSE, s)
    else do
      .tell [.bind rc id]
      return (S_OK, s.set rc { id_ := some id, channels := true })

/-- `RdmaAcceptor::establishConection`, with `RdmaConnection::accept`. -/
def establishConection (id : Nat) (results : Results) (s : RdmaAcceptor) :
    Traced Event (Int × RdmaAcceptor) :=
  if !s.info_.valid then pure (S_FALSE, s)
  else do
    -- what `createPassiveConnection` returns is not looked at
    let (_, s) ← s.createPassiveConnection s.info_.rc id results
    .tell [.rdmaAccept (s.connections s.info_.rc).id_ results.accept]
    if results.accept < 0 then do
      .tell [.log "accept connection error."]
      return (S_FALSE, s)
    else return (S_OK, s)

/-- The end of `handleRead`. -/
def ack (s : RdmaAcceptor) : Traced Event RdmaAcceptor := do
  .tell [.ack, .returned S_OK]
  return { s with inCallback := false }

/-- `RdmaAcceptor::handleRead` up to its callback, with the event that `getCmEvent` gives. A `break`
stands in front of `info_.valid = false`. -/
def handleRead (s : RdmaAcceptor) : Option CmEvent → Traced Event RdmaAcceptor
  | none => do
      .tell [.log "rdma get cm events error.", .returned S_FALSE]
      return s
  | some (.connectRequest id results) => do
      .tell [.request id]
      let (ret, s) ← s.establishConection id results
      if ret < 0 then do
        .tell [.log "eatablish a connection error.", .returned S_FALSE]
        return s
      else do
        .tell [.accepted s.info_.rc id]
        let s := { s with info_ := { s.info_ with isAccepted := true } }
        match s.info_.aCb with
        | some aCb => do
            .tell [.callback aCb s.info_.acceptorParam]
            return { s with inCallback := true }
        | none => s.ack
  | some .established => s.ack
  | some (.disconnected rc) => do
      .tell [.shutdown rc]
      s.ack
  | some .other => s.ack

/-- What can happen next. -/
inductive Op
  /-- The user calls `onAccept`, in the callback or elsewhere. -/
  | onAccept (request : Request)
  /-- The event loop calls `handleRead`, and `rdma_get_cm_event` gives this event or fails. -/
  | handleRead (event : Option CmEvent)
  /-- The callback returns. -/
  | returns
  deriving Repr, DecidableEq

/-- One step. -/
def step (s : RdmaAcceptor) : Op → Traced Event RdmaAcceptor
  | .onAccept request => do
      .tell [.onAccept request]
      return s.onAccept request
  | .handleRead event => s.handleRead event
  | .returns => s.ack

/-- The steps that can happen: one call of `handleRead` at a time. -/
def Possible (s : RdmaAcceptor) : Op → Prop
  | .onAccept _ => True
  | .handleRead _ => s.inCallback = false
  | .returns => s.inCallback = true

end RdmaAcceptor

end Ndsl.Net
