import Ndsl.Lib.Memory
import Ndsl.Net.Crc
import Ndsl.Net.DtpClient
import Ndsl.Net.TcpConnection

/-!
# `Ndsl.Net.RecvData`: receiving a data block over TCP

`DTP.cc`: `agreeRecvData` connects to the sender of an offer and asks the new connection for
data. `recvDataCallback` is called with what has come in. It checks a block that has come in as a
whole, or asks for the rest of it.

A `RecvData` is the record of the receive with what it points to: the block, `*bufLen_`, the
`int` of `dataLength_`, the client, the data connection, and the connection of the client's
entity. A pointer is a position relative to what it was allocated as. The code can move
`dataLength_` away from its `int`, so the model has the memory around it as well.
-/

set_option autoImplicit false

namespace Ndsl.Net.Dtp

open Ndsl.Lib
open Ndsl.Net.Tcp (EAGAIN RecvResult TcpConnection)

/-- `struct RecvDataInfo`. -/
structure RecvDataInfo where
  recvBuf_ : Option Nat
  dataSize_ : Int
  dataLength_ : Option Int
  checkSum_ : UInt16
  dataId_ : List UInt8
  /-- `temp_` is not `NULL`. -/
  temp_ : Bool := false
  deriving Repr, DecidableEq

/-- The receive of a data block. -/
structure RecvData where
  info : RecvDataInfo
  client : DTPClient
  /-- The bytes around the block, which starts at 0. -/
  mem : Memory
  /-- What `bufLen_` points to. -/
  bufLen : Nat
  /-- The integers around the one that was allocated, which is at 0. -/
  ints : Int → Int
  /-- What `tcpClient_` points to. -/
  data : TcpConnection
  /-- The connection of the entity. -/
  control : TcpConnection
  /-- The channel of the data connection is registered with the loop. -/
  enrolled : Bool := true
  /-- The loop has found it ready and has not called it yet. -/
  ready : Bool := false

namespace RecvData

/-- What happens in the receive of a data block. -/
inductive Event
  /-- What the data connection does. -/
  | data (act : Tcp.Act)
  /-- What the connection of the entity does. -/
  | control (act : Tcp.Act)
  /-- `rdmaclient->onRecv(buf, ...)`. -/
  | rdma (buf : Nat)
  /-- `client_->getEntityConnection()`. -/
  | getEntityConnection
  /-- `getCRC16_CCITT` of these bytes. -/
  | crc (bytes : List UInt8)
  /-- `client_->analysisProtobuf(msg)`. -/
  | analysisProtobuf (msg : ControlMsg)
  /-- What the client does. -/
  | client (act : Act)
  /-- `handleSdErro` deletes the record. -/
  | handleSdErro
  deriving Repr, DecidableEq

/-- `DTP::makeDataNoticeMsg`. -/
def makeDataNoticeMsg (type : Int) (dataId : List UInt8) : ControlMsg :=
  { flag := type, dataId := cstring dataId }

/-- `client_->analysisProtobuf(msg)`. -/
def analysisProtobuf (msg : ControlMsg) (s : RecvData) : Traced Event RecvData := do
  .tell [.analysisProtobuf msg]
  let x := s.client.analysisProtobuf msg
  .tell (x.log.map .client)
  match x.value with
  | none => .fault
  | some client => return { s with client := client }

/-- `DTP::handleSdErro`. -/
def handleSdErro (s : RecvData) : Traced Event RecvData := do
  .tell [.handleSdErro]
  return { s with enrolled := false }

/-- What an act of a connection does to the receive. `cb` is the callback of the request. -/
def perform (cb : RecvData → Traced Event RecvData) (s : RecvData) :
    Tcp.Act → Traced Event RecvData
  | .recv buf _ _ (.data bytes) => pure { s with mem := s.mem.write buf bytes }
  | .setLen _ value => pure { s with bufLen := value }
  | .callback _ _ => cb s
  | _ => pure s

/-- The call of a function of the data connection. -/
def onData (x : Traced Tcp.Act (Int × TcpConnection)) (cb : RecvData → Traced Event RecvData)
    (s : RecvData) : Traced Event RecvData :=
  match x.value with
  | none => .fault
  | some (_, data) =>
    x.log.foldlM (fun s act => do
      .tell [.data act]
      match act with
      | .errorHandle _ _ _ => s.handleSdErro
      | _ => s.perform cb act) { s with data := data }

/-- The call of a function of the entity's connection. Its error handler is not one of the
receive. -/
def onControl (x : Traced Tcp.Act (Int × TcpConnection)) (cb : RecvData → Traced Event RecvData)
    (s : RecvData) : Traced Event RecvData :=
  match x.value with
  | none => .fault
  | some (_, control) =>
    x.log.foldlM (fun s act => do
      .tell [.control act]
      s.perform cb act) { s with control := control }

/-- The request of the receive: its callback is `recvDataCallback`, and `info` is the parameter. -/
def request (buf : Nat) : Tcp.Request :=
  { buf := buf, len := 0, flags := 0, cb := some 0, param := 0 }

/-- The part of `recvDataCallback` for a block that has arrived. -/
def complete (recvBuf : Nat) (length : Int) (s : RecvData) : Traced Event RecvData := do
  -- the start of the block is found from its end
  let bytes := s.mem.read (recvBuf + length - s.info.dataSize_) s.info.dataSize_.toNat
  .tell [.crc bytes]
  if getCRC16_CCITT bytes ≠ s.info.checkSum_ then
    -- the block is deleted, and the notice names the transport
    let flag := if s.info.temp_ then RECVRDMADATAFAIL else RECVDATAFAIL
    { s with info := { s.info with recvBuf_ := none } }.analysisProtobuf
      (makeDataNoticeMsg flag s.info.dataId_)
  else
    match s.client.dataCallback_ with
    | none => .fault
    | some _ => do
      .tell [.client (.data RECVDATASUCC bytes s.client.dataParam_)]
      s.analysisProtobuf (makeDataNoticeMsg RECVDATASUCC s.info.dataId_)

/-- One call of `recvDataCallback`. When it asks for the rest, `result` is what `recv` gives, and
`again` is `recvDataCallback`. -/
def callback (result : RecvResult) (again : RecvData → Traced Event RecvData) (s : RecvData) :
    Traced Event RecvData :=
  match s.info.dataLength_, s.info.recvBuf_ with
  | some dataLength, some recvBuf =>
    let length := s.ints dataLength
    if s.bufLen = toSize length then s.complete recvBuf length
    else do
      -- the pointer is moved, and not the length it points to
      let s :=
        { s with
          info :=
            { s.info with
              dataLength_ := some (dataLength - s.bufLen)
              recvBuf_ := some (recvBuf + s.bufLen) } }
      if s.info.temp_ then
        .tell [.rdma (recvBuf + s.bufLen)]
        return s
      else
        .tell [.getEntityConnection]
        s.onControl (Tcp.onRecv (request (recvBuf + s.bufLen)) result s.control) again
  | _, _ => .fault

/-- `DTP::recvDataCallback`. `results` are what the calls of `recv` give that follow each other
without the loop in between. -/
def recvDataCallback : List RecvResult → RecvData → Traced Event RecvData
  | [], s => s.callback (.fail EAGAIN) pure
  | result :: results, s => s.callback result (recvDataCallback results)

/-- `DTP::agreeRecvData` for an offer that was not made over RDMA. `data` is the connection that
`onConnect` opens. `mem` and `ints` are what the memory holds. -/
def agreeRecvData (msg : ControlMsg) (client : DTPClient) (data control : TcpConnection)
    (mem : Memory) (ints : Int → Int) (result : RecvResult) (results : List RecvResult) :
    Traced Event RecvData :=
  -- `new char[length]` throws
  if msg.length < 0 then .fault
  else do
    .tell [.getEntityConnection]
    let s : RecvData :=
      { info :=
          { recvBuf_ := some 0
            dataSize_ := msg.length
            dataLength_ := some 0
            checkSum_ := UInt16.ofNat msg.crcCheckSum
            dataId_ := msg.dataId }
        client := client
        mem := mem.write 0 (List.replicate msg.length.toNat 0)
        bufLen := msg.length.toNat
        ints := Function.update ints 0 msg.length
        data := data
        control := control }
    let s ← s.onData (Tcp.onRecv (request 0) result s.data) (recvDataCallback results)
    return { s with data := setError s.data }
where
  /-- `pCli->onError(handleSdErro, info)`. -/
  setError (data : TcpConnection) : TcpConnection :=
    { data with
      pTcpChannel_ := data.pTcpChannel_.map fun channel =>
        { channel with errorHandle_ := some 0, errParam_ := 0 } }

/-- The loop calls `handleRead` of the data connection. -/
def handleRead (result : RecvResult) (results : List RecvResult) (s : RecvData) :
    Traced Event RecvData :=
  s.onData (Tcp.handleRead result s.data) (recvDataCallback results)

/-- The loop calls `handleRead` of the entity's connection, when it holds a request of the
receive. -/
def handleReadControl (result : RecvResult) (results : List RecvResult) (s : RecvData) :
    Traced Event RecvData :=
  s.onControl (Tcp.handleRead result s.control) (recvDataCallback results)

end RecvData

end Ndsl.Net.Dtp
