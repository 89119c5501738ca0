import Ndsl.Lib.Ownership
import Ndsl.Lib.Traced
import Ndsl.Net.Basic

/-!
# `Ndsl.Net.RdmaClient`: the life of an active RDMA connection

`RdmaClient.cc`, with `createActiveConnection`, `disconnect`, `shutdown`, `destroyConnection` and
the destructor of `RdmaConnection.cc`. `initCmChannel` makes an event channel, an `rdma_cm_id`, a
protection domain and a queue pair, and cleans up behind a `goto` when a stage fails. With the queue
pair `rdma_create_qp` makes its completion queues and their channels. `handleCmEvent` is called for
the events of the connection manager. Memory regions are in `Ndsl.Net.RdmaConnection`.

What the connection manager and the verbs report is an input. The trace has a `Deed` for every
object that is made, used or freed. `rdma_destroy_id` waits until every event of the id has been
acknowledged: the execution stops there when one was not.
-/

set_option autoImplicit false

namespace Ndsl.Net

open Ndsl.Lib

namespace RdmaClient

/-- What a completion queue is for. -/
inductive Queue
  | send
  | recv
  deriving Repr, DecidableEq

/-- What is made, used and freed. The objects of the connection manager have the number of the call
of `initCmChannel` that they were made in, and an event has its own. -/
inductive Object
  /-- What `NULL` points to. -/
  | null
  | client
  | eventChannel (n : Nat)
  | cmId (n : Nat)
  | pd (n : Nat)
  /-- `id_->send_cq_channel` and `id_->recv_cq_channel`. -/
  | compChannel (n : Nat) (queue : Queue)
  /-- `id_->send_cq` and `id_->recv_cq`. -/
  | cq (n : Nat) (queue : Queue)
  | qp (n : Nat)
  | cmChannel (n : Nat)
  | sendCqChannel
  | recvCqChannel
  | event (k : Nat)
  deriving Repr, DecidableEq

/-- `rdma_cm_event_type`. -/
inductive CmEvent
  | addrResolved
  | routeResolved
  /-- With what `ibv_req_notify_cq` returns, for the receives and for the sends. -/
  | established (recvNotify sendNotify : Int)
  | disconnected
  | other
  deriving Repr, DecidableEq

/-- What is reported to a call of `initCmChannel`. An event is `none` when `rdma_get_cm_event`
fails. -/
structure Attempt where
  createEventChannel : Bool := true
  createId : Int := 0
  resolveAddr : Int := 0
  addrEvent : Option CmEvent := some .addrResolved
  resolveRoute : Int := 0
  routeEvent : Option CmEvent := some .routeResolved
  allocPd : Bool := true
  createQp : Int := 0
  deriving Repr, DecidableEq

/-- What can be seen. -/
inductive Event
  | deed (deed : Deed Object)
  /-- `rdma_destroy_id` waits for an event that was not acknowledged. -/
  | waits (n : Nat)
  /-- `cb_(cbParam_)`. -/
  | callback (cb param : Nat)
  /-- `shutdown` adds `destroyConnection` to the queue. -/
  | addWork
  | connect (ret : Int)
  | disconnect (ret : Int)
  | log (message : String)
  | returned (ret : Int)
  deriving Repr, DecidableEq

/-- What is made, used or freed. -/
def acquire (o : Object) : Traced Event Unit := .tell [.deed (.acquire o)]

def use (o : Object) : Traced Event Unit := .tell [.deed (.use o)]

def release (o : Object) : Traced Event Unit := .tell [.deed (.release o)]

end RdmaClient

open RdmaClient in
/-- `RdmaClient`. `id_` and `cmChannel_` are the numbers of what they point to. -/
structure RdmaClient where
  id_ : Option Nat := none
  sendCqChannel_ : Bool := false
  recvCqChannel_ : Bool := false
  cmChannel_ : Option Nat := none
  cb_ : Option Nat := none
  cbParam_ : Nat := 0
  isConnected : Bool := false
  deriving Repr, DecidableEq

namespace RdmaClient

/-- A client and what it works with: how often `initCmChannel` was called, how many events there
were, which of them have not been acknowledged and what id they are of, the `destroyConnection`s in
the queue, and whether the client has been deleted. -/
structure System where
  client : RdmaClient := {}
  attempts : Nat := 0
  events : Nat := 0
  unacked : List (Nat × Nat) := []
  work : Nat := 0
  gone : Bool := false
  deriving Repr, DecidableEq

/-- `*id_`. -/
def idOf (s : System) : Object :=
  match s.client.id_ with
  | none => .null
  | some n => .cmId n

/-- An object that `id_` points to. -/
def ofId (s : System) (object : Nat → Object) : Object :=
  match s.client.id_ with
  | none => .null
  | some n => object n

/-- `rdma_get_cm_event`, which has got an event of the id. -/
def getCmEvent (n : Nat) (s : System) : Traced Event System := do
  acquire (.event s.events)
  return { s with events := s.events + 1, unacked := (n, s.events) :: s.unacked }

/-- `rdma_ack_cm_event` of the last event. -/
def ackCmEvent (s : System) : Traced Event System := do
  release (.event (s.events - 1))
  return { s with unacked := s.unacked.filter fun e => e.2 ≠ s.events - 1 }

/-- `rdma_destroy_id`. -/
def destroyId (n : Nat) (s : System) : Traced Event Unit :=
  if ∃ e ∈ s.unacked, e.1 = n then do
    .tell [.waits n]
    .fault
  else release (.cmId n)

/-! ### `initCmChannel` -/

/-- Behind `CREATE_ID_FAILED`. -/
def createIdFailed (n : Nat) (s : System) : Traced Event (Int × System) := do
  release (.eventChannel n)
  return (S_FALSE, s)

/-- Behind `RESOLVE_ROUTE_FAILED`, `CREATE_PD_FAILED` and `RESOLVE_ADDR_FAILED`. -/
def resolveFailed (n : Nat) (s : System) : Traced Event (Int × System) := do
  destroyId n s
  createIdFailed n s

/-- Behind `CREATE_QP_FAILED`. -/
def createQpFailed (n : Nat) (s : System) : Traced Event (Int × System) := do
  release (.pd n)
  resolveFailed n s

/-- `rdma_create_qp`, without completion queues in its arguments. -/
def createQp (n : Nat) : Traced Event Unit := do
  acquire (.compChannel n .recv)
  acquire (.cq n .recv)
  acquire (.compChannel n .send)
  acquire (.cq n .send)
  acquire (.qp n)

/-- `RdmaClient::initCmChannel`, from the protection domain on. -/
def initQp (n : Nat) (a : Attempt) (s : System) : Traced Event (Int × System) := do
  use (.cmId n)
  if a.allocPd = false then do
    .tell [.log "ibv alloc pd error."]
    resolveFailed n s
  else do
    acquire (.pd n)
    if a.createQp < 0 then do
      .tell [.log "rdma create qp error."]
      createQpFailed n s
    else do
      createQp n
      acquire (.cmChannel n)
      return (S_OK, { s with client := { s.client with cmChannel_ := some n } })

/-- `RdmaClient::initCmChannel`, from the resolution of the route on. -/
def initRoute (n : Nat) (a : Attempt) (s : System) : Traced Event (Int × System) := do
  use (.cmId n)
  if a.resolveRoute < 0 then do
    .tell [.log "rdma resolve route error."]
    resolveFailed n s
  else
    match a.routeEvent with
    | none => resolveFailed n s
    | some event => do
      let s ← getCmEvent n s
      if event ≠ .routeResolved then resolveFailed n s
      else do
        let s ← ackCmEvent s
        initQp n a s

/-- `RdmaClient::initCmChannel`, from the resolution of the address on. -/
def initAddr (n : Nat) (a : Attempt) (s : System) : Traced Event (Int × System) := do
  use (.cmId n)
  if a.resolveAddr < 0 then do
    .tell [.log "rdma resolve addr error."]
    resolveFailed n s
  else
    match a.addrEvent with
    | none => resolveFailed n s
    | some event => do
      let s ← getCmEvent n s
      if event ≠ .addrResolved then resolveFailed n s
      else do
        let s ← ackCmEvent s
        initRoute n a s

/-- `RdmaClient::initCmChannel`. -/
def initCmChannel (a : Attempt) (s : System) : Traced Event (Int × System) := do
  use .client
  let n := s.attempts
  let s := { s with attempts := n + 1 }
  if a.createEventChannel = false then return (S_FALSE, s)
  else do
    acquire (.eventChannel n)
    if a.createId < 0 then do
      .tell [.log "rdma create id error."]
      createIdFailed n s
    else do
      acquire (.cmId n)
      initAddr n a { s with client := { s.client with id_ := some n } }

/-! ### The connection -/

/-- `RdmaClient::onConnect`. `ret` is what `rdma_connect` returns. -/
def onConnect (cb : Option Nat) (param : Nat) (ret : Int) (s : System) :
    Traced Event (Int × System) := do
  use .client
  let s := { s with client := { s.client with cb_ := cb, cbParam_ := param } }
  use (idOf s)
  .tell [.connect ret]
  return (ret, s)

/-- `RdmaConnection::disconnect`. `ret` is what `rdma_disconnect` returns. -/
def disconnect (ret : Int) (s : System) : Traced Event (Int × System) := do
  use .client
  use (idOf s)
  .tell [.disconnect ret]
  return (ret, s)

/-- `RdmaConnection::shutdown`. -/
def shutdown (s : System) : Traced Event System := do
  use .client
  .tell [.addWork]
  return { s with work := s.work + 1 }

/-- `RdmaConnection::createActiveConnection`. -/
def createActiveConnection (recvNotify sendNotify : Int) (s : System) :
    Traced Event (Int × System) :=
  if s.client.sendCqChannel_ = true ∨ s.client.recvCqChannel_ = true then pure (S_FALSE, s)
  else do
    use (idOf s)
    use (ofId s (.compChannel · .recv))
    use (ofId s (.compChannel · .send))
    use (ofId s (.cq · .recv))
    if recvNotify < 0 then do
      .tell [.log "ibv req notify cq error."]
      return (S_FALSE, s)
    else do
      use (ofId s (.cq · .send))
      if sendNotify < 0 then do
        .tell [.log "ibv req notify cq error."]
        return (S_FALSE, s)
      else do
        acquire .sendCqChannel
        acquire .recvCqChannel
        let client := { s.client with sendCqChannel_ := true, recvCqChannel_ := true }
        return (S_OK, { s with client := client })

/-- `RdmaClient::handleCmEvent`. `got` is `none` when `rdma_get_cm_event` fails. -/
def handleCmEvent (got : Option CmEvent) (s : System) : Traced Event (Int × System) := do
  use .client
  use (idOf s)
  match got with
  | none => do
    .tell [.log "rdma get cm event error."]
    return (S_FALSE, s)
  | some event => do
    let s ← getCmEvent (s.client.id_.getD 0) s
    match event with
    | .established recvNotify sendNotify => do
      let (ret, s) ← createActiveConnection recvNotify sendNotify s
      if ret ≠ S_OK then do
        -- the event is not acknowledged
        .tell [.log "create active connection error."]
        return (S_FALSE, s)
      else do
        .tell [.log "connection established."]
        .tell (s.client.cb_.toList.map fun cb => .callback cb s.client.cbParam_)
        let s ← ackCmEvent { s with client := { s.client with isConnected := true } }
        return (S_OK, s)
    | .disconnected =>
      if s.client.isConnected = false then do
        -- nor is this one
        .tell [.log "disconnected error: connection is not exists."]
        return (S_FALSE, s)
      else do
        let s ← shutdown s
        .tell [.log "connection disconnected."]
        let s ← ackCmEvent { s with client := { s.client with isConnected := false } }
        return (S_OK, s)
    | _ => do
      .tell [.log "unknown error: unknown event"]
      let s ← ackCmEvent s
      return (S_OK, s)

/-- `RdmaClient::~RdmaClient` and `RdmaConnection::~RdmaConnection`. An id that has got through
`initCmChannel` has a queue pair. `ibv_destroy_qp` leaves its completion queues and their channels,
and `rdma_destroy_id` the event channel. -/
def delete (s : System) : Traced Event System := do
  .tell (s.client.cmChannel_.toList.map fun n => .deed (.release (.cmChannel n)))
  .tell (if s.client.sendCqChannel_ then [.deed (.release .sendCqChannel)] else [])
  .tell (if s.client.recvCqChannel_ then [.deed (.release .recvCqChannel)] else [])
  use (idOf s)
  match s.client.id_ with
  | none => .fault
  | some n => do
    release (.qp n)
    release (.pd n)
    destroyId n s
    release .client
    return { s with gone := true }

/-- `RdmaConnection::destroyConnection`, from the queue. -/
def destroyConnection (s : System) : Traced Event System :=
  delete { s with work := s.work - 1 }

/-! ### Steps -/

/-- A step: a call of the user, an event of the connection manager, or the queue. -/
inductive Op
  | initCmChannel (a : Attempt)
  | onConnect (cb : Option Nat) (param : Nat) (ret : Int)
  | disconnect (ret : Int)
  | handleCmEvent (got : Option CmEvent)
  | shutdown
  | destroyConnection
  /-- The user deletes the client. -/
  | delete
  deriving Repr, DecidableEq

/-- A function of the client is called, and returns. -/
def call (x : Traced Event (Int × System)) : Traced Event System := do
  let (ret, s) ← x
  .tell [.returned ret]
  return s

/-- One step. -/
def step (s : System) : Op → Traced Event System
  | .initCmChannel a => call (initCmChannel a s)
  | .onConnect cb param ret => call (onConnect cb param ret s)
  | .disconnect ret => call (disconnect ret s)
  | .handleCmEvent got => call (handleCmEvent got s)
  | .shutdown => shutdown s
  | .destroyConnection => destroyConnection s
  | .delete => delete s

end RdmaClient

end Ndsl.Net
