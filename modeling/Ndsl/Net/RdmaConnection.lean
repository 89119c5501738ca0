import Mathlib.Logic.Function.Basic
import Ndsl.Lib.Traced
import Ndsl.Net.Basic

/-!
# `Ndsl.Net.RdmaConnection`: work requests and their completions

`RdmaConnection.cc` behind the connect: `registerMemory` and `deregisterMemory`, the functions that
post requests, and `handleSend` and `handleRecv`, which the event loop calls for completions. A
buffer is its address, which is also the `wr_id` of the requests on it. What the verbs report is an
input.

`handleSend` and `handleRecv` go through the completions one by one. A callback runs as a step of
its own, in which the connection can be used.
-/

set_option autoImplicit false

namespace Ndsl.Net

open Ndsl.Lib

namespace RdmaConnection

/-- `ibv_mr`. -/
structure Mr where
  addr : Nat
  lkey : Nat := 0
  rkey : Nat := 0
  deriving Repr, DecidableEq

/-- `MemoryReigon`. -/
structure MemoryReigon where
  mr : Mr
  addr : Nat
  size : Nat
  deriving Repr, DecidableEq

/-- `saveInfo`. -/
structure SaveInfo where
  cb : Option Nat := none
  param : Nat := 0
  wr_id : Nat
  buffer : Nat
  len : Nat
  deriving Repr, DecidableEq

/-- `wr.atomic` of a work request. -/
structure AtomicWr where
  remote_addr : Nat
  rkey : Nat
  compare_add : Nat
  swap : Nat := 0
  deriving Repr, DecidableEq

/-- The `opcode` of a work request, or of a completion. -/
inductive Opcode
  | send
  | recv
  | atomicFetchAndAdd
  | atomicCmpAndSwp
  deriving Repr, DecidableEq

/-- `ibv_send_wr` and `ibv_recv_wr`, with the one `ibv_sge` that they have. -/
structure Wr where
  wr_id : Nat
  opcode : Opcode
  addr : Nat
  length : Nat
  lkey : Nat
  atomic : Option AtomicWr := none
  deriving Repr, DecidableEq

/-- `ibv_wc`. A `status` of 0 is `IBV_WC_SUCCESS`. -/
structure Wc where
  wr_id : Nat
  opcode : Opcode
  status : Nat := 0
  deriving Repr, DecidableEq

/-- `sendHandlerQueue` and `recvHandlerQueue`. -/
inductive Queue
  | send
  | recv
  deriving Repr, DecidableEq

/-- What `ibv_poll_cq` reports: a completion, or that it was interrupted. -/
inductive Poll
  | wc (wc : Wc)
  | interrupted
  deriving Repr, DecidableEq

/-- What is reported to `pollIncomingData`: `ibv_get_cq_event`, `ibv_req_notify_cq`, and
`ibv_poll_cq` up to the call that finds nothing or fails. -/
structure Polled where
  getCqEvent : Int := 0
  reqNotify : Int := 0
  polls : List Poll := []
  last : Int := 0
  deriving Repr, DecidableEq

/-- What can be seen. -/
inductive Event
  | regMr (addr len : Nat) (atomic : Bool)
  | deregMr (mr : Mr)
  /-- `ibv_post_send`, `ibv_post_recv`. -/
  | post (wr : Wr) (ret : Int)
  /-- A handler is added to a queue. -/
  | queued (queue : Queue) (info : SaveInfo)
  /-- `ibv_poll_cq` gives a completion of the channel. -/
  | polled (channel : Queue) (wc : Wc)
  /-- The completion was not successful, which is logged. -/
  | failed (wc : Wc)
  | ackCqEvents
  /-- The loop of `handleSend` or `handleRecv` comes to a completion. -/
  | completion (queue : Queue) (wc : Wc)
  /-- `front` of a queue that is empty. -/
  | frontOfEmpty (queue : Queue)
  | callback (queue : Queue) (cb param : Nat)
  /-- The handler is freed. -/
  | delete (info : SaveInfo)
  | log (message : String)
  | returned (ret : Int)
  | returnedMr (mr : Option Mr)
  deriving Repr, DecidableEq

/-- Where `handleSend` or `handleRecv` stands. -/
inductive Place
  | idle
  /-- In front of the next completion of `dataList`. -/
  | loop (queue : Queue) (dataList : List Wc)
  /-- In the callback of a handler that was taken from its queue. -/
  | callback (queue : Queue) (info : SaveInfo) (dataList : List Wc)
  /-- The behaviour is undefined. -/
  | undefined
  deriving Repr, DecidableEq

end RdmaConnection

open RdmaConnection in
/-- `RdmaConnection` that has been connected. -/
structure RdmaConnection where
  mrMap_ : Nat → Option MemoryReigon := fun _ => none
  sendHandlerQueue : List SaveInfo := []
  recvHandlerQueue : List SaveInfo := []
  place : Place := .idle

namespace RdmaConnection

/-- The handlers of a queue. -/
def handlers (s : RdmaConnection) : Queue → List SaveInfo
  | .send => s.sendHandlerQueue
  | .recv => s.recvHandlerQueue

/-- A queue, changed. -/
def setHandlers (handlers : List SaveInfo) (s : RdmaConnection) : Queue → RdmaConnection
  | .send => { s with sendHandlerQueue := handlers }
  | .recv => { s with recvHandlerQueue := handlers }

/-! ### Memory -/

/-- `RdmaConnection::registerMemory`. `region` is what `ibv_reg_mr` returns. -/
def registerMemory (addr len : Nat) (atomic : Bool) (region : Option Mr) (s : RdmaConnection) :
    Traced Event (Option Mr × RdmaConnection) :=
  if addr = 0 then pure (none, s)
  else
    match s.mrMap_ addr with
    | some mr => do
        .tell [.log "memory region already exists."]
        return (some mr.mr, s)
    | none => do
        .tell [.regMr addr len atomic]
        match region with
        | none => do
            .tell [.log "ibv register mr error."]
            return (none, s)
        | some region =>
            let mr : MemoryReigon := { mr := region, addr := addr, size := len }
            return (some region, { s with mrMap_ := Function.update s.mrMap_ addr (some mr) })

/-- `RdmaConnection::deregisterMemory`. `ret` is what `ibv_dereg_mr` returns. -/
def deregisterMemory (addr : Nat) (ret : Int) (s : RdmaConnection) :
    Traced Event (Int × RdmaConnection) :=
  match s.mrMap_ addr with
  | none => pure (S_FALSE, s)
  | some mr => do
      .tell [.deregMr mr.mr]
      if ret ≠ 0 then do
        .tell [.log "ibv dereg mr error."]
        return (S_FALSE, s)
      else return (S_OK, { s with mrMap_ := Function.update s.mrMap_ addr none })

/-! ### Requests -/

/-- Posts a request on `buf`, which `wr` makes from the memory region. `ret` is what `ibv_post_send`
or `ibv_post_recv` returns, and `message` stands in the log where it fails. Then `handler` is added
to its queue. -/
def postWr (buf : Nat) (wr : Mr → Wr) (ret : Int) (message : String)
    (handler : Option (Queue × SaveInfo)) (s : RdmaConnection) :
    Traced Event (Int × RdmaConnection) :=
  match s.mrMap_ buf with
  | none => do
      .tell [.log "Error: buffer not registed."]
      return (S_FALSE, s)
  | some mr => do
      .tell [.post (wr mr.mr) ret]
      if ret ≠ 0 then do
        .tell [.log message]
        return (S_FALSE, s)
      else
        match handler with
        | none => pure (S_OK, s)
        | some (queue, info) => do
            .tell [.queued queue info]
            return (S_OK, s.setHandlers (s.handlers queue ++ [info]) queue)

/-- `RdmaConnection::onSend`. -/
def onSend (buf len : Nat) (cb : Option Nat) (param : Nat) (ret : Int) (s : RdmaConnection) :
    Traced Event (Int × RdmaConnection) :=
  s.postWr buf
    (fun mr =>
      { wr_id := buf, opcode := .send, addr := buf, length := len % 2 ^ 32, lkey := mr.lkey })
    ret "ibv post send error."
    (some (.send, { cb := cb, param := param, wr_id := buf, buffer := buf, len := len }))

/-- `RdmaConnection::onRecv`, with what `len` points to. -/
def onRecv (buf len : Nat) (cb : Option Nat) (param : Nat) (ret : Int) (s : RdmaConnection) :
    Traced Event (Int × RdmaConnection) :=
  s.postWr buf
    (fun mr =>
      { wr_id := buf, opcode := .recv, addr := buf, length := len % 2 ^ 32, lkey := mr.lkey })
    ret "ibv post recv error."
    (some (.recv, { cb := cb, param := param, wr_id := buf, buffer := buf, len := len }))

/-- `RdmaConnection::FetchAndAdd`. -/
def FetchAndAdd (buf : Nat) (remote_mr : Mr) (add : Nat) (ret : Int) (s : RdmaConnection) :
    Traced Event (Int × RdmaConnection) :=
  s.postWr buf
    (fun mr =>
      { wr_id := buf, opcode := .atomicFetchAndAdd, addr := buf, length := 8, lkey := mr.lkey
        atomic := some
          { remote_addr := remote_mr.addr, rkey := remote_mr.rkey, compare_add := add } })
    ret "ibv post send error." none

/-- `RdmaConnection::CmpAndSwp`. -/
def CmpAndSwp (buf : Nat) (remote_mr : Mr) (expected swap : Nat) (ret : Int)
    (s : RdmaConnection) : Traced Event (Int × RdmaConnection) :=
  s.postWr buf
    (fun mr =>
      { wr_id := buf, opcode := .atomicCmpAndSwp, addr := buf, length := 8, lkey := mr.lkey
        atomic := some
          { remote_addr := remote_mr.addr, rkey := remote_mr.rkey, compare_add := expected
            swap := swap } })
    ret "ibv post send error." none

/-! ### Completions -/

/-- The loop of `pollIncomingData` around `ibv_poll_cq`. -/
def pollCq (compChannel : Queue) : List Poll → Traced Event (List Wc)
  | [] => pure []
  | .interrupted :: polls => pollCq compChannel polls
  | .wc wc :: polls => do
      .tell [.polled compChannel wc]
      if wc.status ≠ 0 then do
        -- a completion that was not successful is logged, and its handler stays in the queue
        .tell [.failed wc]
        pollCq compChannel polls
      else do
        let wcList ← pollCq compChannel polls
        return wc :: wcList

/-- `RdmaConnection::pollIncomingData`. -/
def pollIncomingData (compChannel : Queue) (polled : Polled) : Traced Event (Int × List Wc) :=
  if polled.getCqEvent < 0 then do
    .tell [.log "ibv get cq event error."]
    return (S_FALSE, [])
  else if polled.reqNotify ≠ 0 then do
    .tell [.log "ibv req notify cq error."]
    return (S_FALSE, [])
  else do
    let wcList ← pollCq compChannel polled.polls
    .tell (if polled.last < 0 then [.log "ibv poll cq error."] else [])
    .tell [.ackCqEvents]
    return (S_OK, wcList)

/-- `RdmaConnection::handleSend` and `RdmaConnection::handleRecv` in front of their loop. -/
def handle (queue : Queue) (polled : Polled) (s : RdmaConnection) : Traced Event RdmaConnection :=
  if s.handlers queue = [] then do
    .tell [.returned S_FALSE]
    return s
  else do
    -- a failure leaves an empty list
    let (_, dataList) ← pollIncomingData queue polled
    return { s with place := .loop queue dataList }

/-- `RdmaConnection::handleSend`. -/
def handleSend (polled : Polled) (s : RdmaConnection) : Traced Event RdmaConnection :=
  s.handle .send polled

/-- `RdmaConnection::handleRecv`. -/
def handleRecv (polled : Polled) (s : RdmaConnection) : Traced Event RdmaConnection :=
  s.handle .recv polled

/-- Takes the first handler with this `wr_id` from the queue. -/
def search (wr_id : Nat) : List SaveInfo → Option SaveInfo × List SaveInfo
  | [] => (none, [])
  | info :: queue =>
      if info.wr_id = wr_id then (some info, queue)
      else ((search wr_id queue).1, info :: (search wr_id queue).2)

/-- The handler `comp` is called, and freed. -/
def finish (queue : Queue) (comp : SaveInfo) (dataList : List Wc) (s : RdmaConnection) :
    Traced Event RdmaConnection :=
  match comp.cb with
  | some cb => do
      .tell [.callback queue cb comp.param]
      return { s with place := .callback queue comp dataList }
  | none => do
      .tell [.delete comp]
      return { s with place := .loop queue dataList }

/-- The body of the loops of `handleSend` and `handleRecv`. -/
def complete (queue : Queue) (wc : Wc) (dataList : List Wc) (s : RdmaConnection) :
    Traced Event RdmaConnection := do
  .tell [.completion queue wc]
  match s.handlers queue with
  | [] => do
      .tell [.frontOfEmpty queue]
      return { s with place := .undefined }
  | front :: behind =>
      if front.wr_id ≠ wc.wr_id then
        -- the search takes out the handler of the completion, when there is one
        let comp := (search wc.wr_id (front :: behind)).1.getD front
        let handlers := (search wc.wr_id (front :: behind)).2
        match handlers with
        | [] => do
            .tell [.frontOfEmpty queue]
            return { s.setHandlers [] queue with place := .undefined }
        | first :: _ =>
            -- the handler that was found, or the one at the front
            if comp.wr_id = first.wr_id then do
              .tell [.log "unknown wc error."]
              return { s.setHandlers handlers queue with place := .loop queue dataList }
            else (s.setHandlers handlers queue).finish queue comp dataList
      else (s.setHandlers behind queue).finish queue front dataList

/-- The next completion, or the end. -/
def next (s : RdmaConnection) : Traced Event RdmaConnection :=
  match s.place with
  | .loop _ [] => do
      .tell [.returned S_OK]
      return { s with place := .idle }
  | .loop queue (wc :: dataList) => s.complete queue wc dataList
  | _ => pure s

/-- The callback returns. -/
def returns (s : RdmaConnection) : Traced Event RdmaConnection :=
  match s.place with
  | .callback queue info dataList => do
      .tell [.delete info]
      return { s with place := .loop queue dataList }
  | _ => pure s

/-! ### Steps -/

/-- What can happen next. The user calls a function of the connection, in a callback or elsewhere,
or the event loop goes on. -/
inductive Op
  | registerMemory (addr len : Nat) (atomic : Bool) (region : Option Mr)
  | deregisterMemory (addr : Nat) (ret : Int)
  | onSend (buf len : Nat) (cb : Option Nat) (param : Nat) (ret : Int)
  | onRecv (buf len : Nat) (cb : Option Nat) (param : Nat) (ret : Int)
  | FetchAndAdd (buf : Nat) (remote_mr : Mr) (add : Nat) (ret : Int)
  | CmpAndSwp (buf : Nat) (remote_mr : Mr) (expected swap : Nat) (ret : Int)
  | handleSend (polled : Polled)
  | handleRecv (polled : Polled)
  | next
  | returns
  deriving Repr, DecidableEq

/-- A function of the connection is called, and returns. -/
def call (x : Traced Event (Int × RdmaConnection)) : Traced Event RdmaConnection := do
  let (ret, s) ← x
  .tell [.returned ret]
  return s

/-- One step. -/
def step (s : RdmaConnection) : Op → Traced Event RdmaConnection
  | .registerMemory addr len atomic region => do
      let (mr, s) ← s.registerMemory addr len atomic region
      .tell [.returnedMr mr]
      return s
  | .deregisterMemory addr ret => call (s.deregisterMemory addr ret)
  | .onSend buf len cb param ret => call (s.onSend buf len cb param ret)
  | .onRecv buf len cb param ret => call (s.onRecv buf len cb param ret)
  | .FetchAndAdd buf remote_mr add ret => call (s.FetchAndAdd buf remote_mr add ret)
  | .CmpAndSwp buf remote_mr expected swap ret => call (s.CmpAndSwp buf remote_mr expected swap ret)
  | .handleSend polled => s.handleSend polled
  | .handleRecv polled => s.handleRecv polled
  | .next => s.next
  | .returns => s.returns

/-- The user code runs: outside of the loops, or in a callback. -/
def UserRuns (s : RdmaConnection) : Prop :=
  match s.place with
  | .idle | .callback .. => True
  | _ => False

/-- The steps that can happen: one call of `handleSend` or `handleRecv` at a time. -/
def Possible (s : RdmaConnection) : Op → Prop
  | .handleSend _ | .handleRecv _ => s.place = .idle
  | .next => ∃ queue dataList, s.place = .loop queue dataList
  | .returns => ∃ queue info dataList, s.place = .callback queue info dataList
  | _ => s.UserRuns

end RdmaConnection

end Ndsl.Net
