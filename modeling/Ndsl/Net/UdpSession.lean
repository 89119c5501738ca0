import Ndsl.Lib.Lifetime
import Ndsl.Net.RecvData
import Ndsl.Net.UdpEndpoint

/-!
# `Ndsl.Net.UdpSession`: receiving a data block over UDP

`DTP.cc`: `agreeRecvUdpData` opens an endpoint, asks it for a datagram, and starts a timer.
`recvUdpDataCallback` is called with the datagram, checks it, and deletes the record and what it
points to. `stopListenOfUdp` deletes the endpoint and the buffers when nothing has come.

A `UdpSession` is the record with what it points to, as a `Session` is for sending. The trace lists
the accesses to the objects. The memory of a deleted object keeps its content.
-/

set_option autoImplicit false

namespace Ndsl.Net.Dtp

open Ndsl.Lib
open Ndsl.Net.Tcp (RecvResult)
open Ndsl.Net.Udp (UdpEndpoint)

/-- The receive of a data block over UDP. -/
structure UdpSession where
  /-- `temp_` is the endpoint. -/
  info : RecvDataInfo
  /-- What `temp_` points to. -/
  point : UdpEndpoint
  /-- The bytes around the block, which starts at 0. -/
  mem : Memory
  /-- What `bufLen_` points to. -/
  bufLen : Nat
  /-- The loop has found the endpoint ready and has not called it yet. -/
  ready : Bool := false
  /-- The timer has not fired. -/
  timer : Bool := true

namespace UdpSession

/-- The objects of a session, under the names of the variables that point to them. -/
inductive Object
  | info
  | point
  | recvBuf
  | bufLen
  deriving Repr, DecidableEq

/-- The functions that work on a session. `onRecv` and `handleRead` are those of `UdpEndpoint`. -/
inductive Func
  | onRecv
  | agreeRecvUdpData
  | handleRead
  | recvUdpDataCallback
  | stopListenOfUdp
  deriving Repr, DecidableEq

/-- What happens in a session. -/
inductive Event
  /-- An access to an object. -/
  | access (func : Func) (access : Access Object)
  /-- What the endpoint does. -/
  | point (act : Udp.Act)
  /-- `recvUdpDataCallback` is called. -/
  | recvUdpDataCallback
  /-- `client_->dataCallback_` is called with this flag and the bytes of the block. -/
  | dataCallback (flag : Int) (buf : List UInt8)
  /-- `client_->analysisProtobuf` of a notice with this flag. -/
  | analysisProtobuf (flag : Int)
  deriving Repr, DecidableEq

/-- An access of a function to an object it uses. -/
def use (func : Func) (o : Object) : Event := .access func (.use o)

/-- `delete info->recvBuf_`. -/
def deleteRecvBuf (func : Func) (s : UdpSession) : Traced Event Unit :=
  match s.info.recvBuf_ with
  | none => pure ()
  | some _ => .tell [.access func (.delete .recvBuf)]

/-- `delete (UdpEndpoint *) info->temp_`. The destructor leaves the channel registered. -/
def deletePoint (func : Func) (s : UdpSession) : Traced Event Unit :=
  if s.info.temp_ then .tell [.access func (.delete .point)] else pure ()

/-- The part of `recvUdpDataCallback` that chooses the notice. -/
def check (s : UdpSession) : Traced Event (Int × UdpSession) :=
  if s.bufLen = toSize s.info.dataSize_ then do
    .tell [use .recvUdpDataCallback .recvBuf, use .recvUdpDataCallback .info]
    let bytes ← block
    if getCRC16_CCITT bytes ≠ s.info.checkSum_ then return (RECVUDPDATAFAIL, s)
    else do
      .tell [.dataCallback RECVDATASUCC bytes]
      return (RECVDATASUCC, s)
  else do
    s.deleteRecvBuf .recvUdpDataCallback
    .tell [use .recvUdpDataCallback .info]
    return (RECVUDPDATAFAIL, { s with info := { s.info with recvBuf_ := none } })
where
  /-- The bytes at `recvBuf_`. A `NULL` can be read only when it stands for no bytes. -/
  block : Traced Event (List UInt8) :=
    match s.info.recvBuf_ with
    | none => if s.info.dataSize_ = 0 then pure [] else .fault
    | some recvBuf => pure (s.mem.read recvBuf s.info.dataSize_.toNat)

/-- `DTP::recvUdpDataCallback`. -/
def recvUdpDataCallback (s : UdpSession) : Traced Event UdpSession := do
  .tell [.recvUdpDataCallback, use .recvUdpDataCallback .info, use .recvUdpDataCallback .bufLen,
    use .recvUdpDataCallback .info]
  let (flag, s) ← s.check
  .tell [use .recvUdpDataCallback .info, .analysisProtobuf flag, use .recvUdpDataCallback .info,
    .access .recvUdpDataCallback (.delete .bufLen), use .recvUdpDataCallback .info]
  s.deletePoint .recvUdpDataCallback
  .tell [use .recvUdpDataCallback .info, .access .recvUdpDataCallback (.delete .info)]
  return { s with info := { s.info with temp_ := false } }

/-- What an act of the endpoint does to the session. `args` are the accesses by which the function
comes to what it acts on. -/
def perform (func : Func) (args : List Event) (s : UdpSession) :
    Udp.Act → Traced Event UdpSession
  | .recvfrom buf n flags result => do
    .tell (args ++ [.point (.recvfrom buf n flags result)])
    match result with
    | .fail _ => return s
    | .data datagram => do
      .tell [use func .recvBuf]
      return { s with mem := s.mem.write buf (Udp.stored n datagram) }
  | .setLen len value => do
    .tell (args ++ [.point (.setLen len value), use func .bufLen])
    return { s with bufLen := value }
  | .callback cb p => do
    .tell (args ++ [.point (.callback cb p)])
    s.recvUdpDataCallback

/-- The call of a function of the endpoint. -/
def onPoint (func : Func) (args : List Event) (x : Traced Udp.Act (Int × UdpEndpoint))
    (s : UdpSession) : Traced Event UdpSession := do
  .tell [use func .point]
  match x.value with
  | none => .fault
  | some (_, point) => x.log.foldlM (perform func args) { s with point := point }

/-- The request of a session: its callback is `recvUdpDataCallback`, and `info` is the
parameter. -/
def request (length : Nat) : Udp.Request :=
  { buf := 0, len := 0, capacity := length, flags := 0, cb := some 0, p := 0 }

/-- `DTP::agreeRecvUdpData`. `fd` is the descriptor of the endpoint and `result` what its first
`recvfrom` gives. `mem` is what the memory holds. -/
def agreeRecvUdpData (msg : ControlMsg) (fd : Int) (mem : Memory) (result : RecvResult) :
    Traced Event UdpSession :=
  -- `new char[length]` throws
  if msg.length < 0 then .fault
  else do
    let s : UdpSession :=
      { info :=
          { recvBuf_ := some 0
            dataSize_ := msg.length
            dataLength_ := none
            checkSum_ := UInt16.ofNat msg.crcCheckSum
            dataId_ := msg.dataId }
        point := { fd := fd }
        mem := mem
        bufLen := msg.length.toNat }
    let s ← s.onPoint .onRecv [] (Udp.onRecv (request msg.length.toNat) result s.point)
    .tell [use .agreeRecvUdpData .info]
    return { s with info := { s.info with temp_ := true } }

/-- `UdpEndpoint::handleRead`, called by the loop. -/
def handleRead (result : RecvResult) (s : UdpSession) : Traced Event UdpSession :=
  s.onPoint .handleRead [use .handleRead .point] (Udp.handleRead result s.point)

/-- `DTP::stopListenOfUdp`. -/
def stopListenOfUdp (s : UdpSession) : Traced Event UdpSession := do
  .tell [use .stopListenOfUdp .info]
  if s.info.temp_ then do
    s.deletePoint .stopListenOfUdp
    s.deleteRecvBuf .stopListenOfUdp
    .tell [use .stopListenOfUdp .info, .access .stopListenOfUdp (.delete .bufLen)]
    return { s with info := { s.info with recvBuf_ := none }, timer := false }
  else return { s with timer := false }

/-- A step of a session: the loop finds the endpoint ready, or calls it, with what `recvfrom`
gives; the timer fires. -/
inductive UdpAction
  | ready
  | handleRead (result : RecvResult)
  | stopListenOfUdp
  deriving Repr, DecidableEq

/-- One step. -/
def udpStep (s : UdpSession) : UdpAction → Traced Event UdpSession
  | .ready => pure { s with ready := true }
  | .handleRead result => { s with ready := false }.handleRead result
  | .stopListenOfUdp => s.stopListenOfUdp

/-- The steps that can be taken. The channel is registered all the time. -/
def UdpPossible (s : UdpSession) : UdpAction → Prop
  | .ready => True
  | .handleRead _ => s.ready = true
  | .stopListenOfUdp => s.timer = true

end UdpSession

end Ndsl.Net.Dtp
