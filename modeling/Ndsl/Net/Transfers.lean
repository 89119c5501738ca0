import Ndsl.Net.Entity
import Ndsl.Net.RdmaSession
import Ndsl.Net.RecvFile
import Ndsl.Net.UdpSession

/-!
# `Ndsl.Net.Transfers`: transfers and the entities they belong to

Every transfer of `DTP.cc` keeps the `DTPClient` of the entity that it was started through, and
calls it when it is completed. The client is deleted by the `remove` that the destructor of the
entity leaves in the work queue, and nothing ties the one to the other.

`Transfers` puts the two together: the multiplexer with its entities and its queue, and any number
of transfers, each with its own steps. Of what a transfer does, only its calls of the client and
of the entity are kept. A transfer changes of its client only what the client remembers, which no
step of a transfer reads, so that each receive stands with the client as it was when it began.

A callback of the user may destroy the entity in the middle of a step. Behind such a callback no
step reads the entity any more, and the client is deleted by a task of its own, so that the model
lets the user act between the steps.
-/

set_option autoImplicit false

namespace Ndsl.Net.Dtp

open Ndsl.Lib
open Ndsl.Net.Registry (Client Happening Multiplexer)
open Ndsl.Net.Tcp (RecvResult TcpChannel TcpConnection)

/-! ### Calls of the client -/

/-- What a transfer calls of its client. `getEntityConnection` reads the entity as well. -/
inductive Call
  | analysisProtobuf
  | dataCallback_
  | getEntityConnection
  deriving Repr, DecidableEq

namespace Call

/-- The calls of a session of `sendFile` or `sendData`. -/
def ofSend : Session.Event → List Call
  | .analysisProtobuf _ => [analysisProtobuf]
  | _ => []

/-- The calls of the receive of a file. -/
def ofRecvFile : RecvFile.Event → List Call
  | .analysisProtobuf _ => [analysisProtobuf]
  | _ => []

/-- The calls of the receive of a data block. -/
def ofRecvData : RecvData.Event → List Call
  | .analysisProtobuf _ => [analysisProtobuf]
  | .client (.data ..) => [dataCallback_]
  | .getEntityConnection => [getEntityConnection]
  | _ => []

/-- The calls of a receive over UDP. -/
def ofUdp : UdpSession.Event → List Call
  | .analysisProtobuf _ => [analysisProtobuf]
  | .dataCallback .. => [dataCallback_]
  | _ => []

end Call

/-! ### The steps of a receive over TCP -/

/-- A step of the receive of a file: the loop finds the data connection ready, or calls it, with
what `recv` gives. -/
inductive RecvFile.Action
  | ready
  | handleRead (result : RecvResult) (results : List RecvResult)
  deriving Repr, DecidableEq

/-- One step. -/
def RecvFile.step {κ : Type} (md5 : Md5 κ) (s : RecvFile) :
    RecvFile.Action → Traced RecvFile.Event RecvFile
  | .ready => pure { s with ready := true }
  | .handleRead result results => { s with ready := false }.handleRead md5 result results

/-- The steps that can be taken. -/
def RecvFile.Possible (s : RecvFile) : RecvFile.Action → Prop
  | .ready => s.enrolled = true
  | .handleRead .. => s.ready = true

/-- A step of the receive of a data block: the loop finds the data connection ready, or calls it,
or calls the entity's connection, with what `recv` gives. In `overwrite` another request takes the
place of the one that the receive has put to the entity's connection. -/
inductive RecvData.Action
  | ready
  | handleRead (result : RecvResult) (results : List RecvResult)
  | handleReadControl (result : RecvResult) (results : List RecvResult)
  | overwrite
  deriving Repr, DecidableEq

/-- One step. -/
def RecvData.step (s : RecvData) : RecvData.Action → Traced RecvData.Event RecvData
  | .ready => pure { s with ready := true }
  | .handleRead result results => { s with ready := false }.handleRead result results
  | .handleReadControl result results => s.handleReadControl result results
  | .overwrite => pure { s with control := Tcp.handleRead.used s.control }

/-- The steps that can be taken. -/
def RecvData.Possible (s : RecvData) : RecvData.Action → Prop
  | .ready => s.enrolled = true
  | .handleRead .. => s.ready = true
  | .handleReadControl .. => s.control.RecvInfo_.recvInUse_ = true
  | .overwrite => True

/-! ### Transfers -/

/-- A transfer. `recvFileRequest` is what `DTP::recvFile` leaves: the record of the file that it
asks the peer for, and a timer. -/
inductive Transfer
  | sendFile (s : Session)
  | sendData (buffer_ : List UInt8) (s : Session)
  | sendDataRdma (s : RdmaSend)
  | recvFile (s : RecvFile)
  | recvData (s : RecvData)
  | recvDataRdma (s : RdmaRecv)
  | recvUdpData (s : UdpSession)
  | recvFileRequest (s : RecvFile) (timer : Bool)

namespace Transfer

/-- A step of a transfer. -/
inductive Action
  | sendFile (action : Session.FileAction)
  | sendData (action : Session.DataAction)
  | sendDataRdma (action : RdmaSend.Action)
  | recvFile (action : RecvFile.Action)
  | recvData (action : RecvData.Action)
  | recvDataRdma (action : RdmaRecv.Action)
  | recvUdpData (action : UdpSession.UdpAction)
  | handleRecvfileFail
  deriving Repr, DecidableEq

/-- How a transfer begins: a call of `DTP`, with its arguments and what the system gives it.
`channel` is the one of the entity's connection, on which the receive has no request yet. -/
inductive Start
  | sendFile
  | sendData (buffer_ : List UInt8)
  | sendDataRdma
  | agreeRecvFile (msg : ControlMsg) (client : DTPClient) (data : TcpConnection) (mem : Memory)
      (disk : Disk) (results : List RecvResult)
  | agreeRecvData (msg : ControlMsg) (client : DTPClient) (data : TcpConnection)
      (channel : Option TcpChannel) (mem : Memory) (ints : Int → Int) (result : RecvResult)
      (results : List RecvResult)
  | agreeRecvDataRdma (msg : ControlMsg) (client : DTPClient) (mem : Memory) (ints : Int → Int)
  | agreeRecvUdpData (msg : ControlMsg) (fd : Int) (mem : Memory) (result : RecvResult)
  | recvFile (filename : List UInt8) (client : DTPClient) (mem : Memory) (disk : Disk)

variable {κ : Type} (md5 : Md5 κ)

/-- The transfer begins. `agreeRecvUdpData` asks for the entity's connection before it asks for the
datagram. -/
def start : Start → Traced Call Transfer
  | .sendFile => pure (sendFile {})
  | .sendData buffer_ => pure (sendData buffer_ {})
  | .sendDataRdma => pure (sendDataRdma {})
  | .agreeRecvFile msg client data mem disk results =>
    (RecvFile.agreeRecvFile md5 msg client data mem disk results).view Call.ofRecvFile recvFile
  | .agreeRecvData msg client data channel mem ints result results =>
    (RecvData.agreeRecvData msg client data { pTcpChannel_ := channel } mem ints result
      results).view Call.ofRecvData recvData
  | .agreeRecvDataRdma msg client mem ints =>
    (RdmaRecv.agreeRecvData msg client mem ints).view Call.ofRecvData recvDataRdma
  | .agreeRecvUdpData msg fd mem result => do
    .tell [.getEntityConnection]
    (UdpSession.agreeRecvUdpData msg fd mem result).view Call.ofUdp recvUdpData
  | .recvFile filename client mem disk =>
    pure (recvFileRequest
      { info := { fileName_ := filename, length_ := -1, checkSum_ := [] }
        client := client
        mem := mem
        disk := disk
        data := {} }
      true)

/-- One step of a transfer. -/
def step : Transfer → Action → Traced Call Transfer
  | sendFile s, .sendFile action => (s.fileStep action).view Call.ofSend sendFile
  | sendData buffer_ s, .sendData action =>
    (s.dataStep buffer_ action).view Call.ofSend (sendData buffer_)
  | sendDataRdma s, .sendDataRdma action => (s.step action).view Call.ofSend sendDataRdma
  | recvFile s, .recvFile action => (s.step md5 action).view Call.ofRecvFile recvFile
  | recvData s, .recvData action => (s.step action).view Call.ofRecvData recvData
  | recvDataRdma s, .recvDataRdma action => (s.step action).view Call.ofRecvData recvDataRdma
  | recvUdpData s, .recvUdpData action => (s.udpStep action).view Call.ofUdp recvUdpData
  | recvFileRequest s _, .handleRecvfileFail =>
    s.handleRecvfileFail.view Call.ofRecvFile fun s => recvFileRequest s false
  | t, _ => pure t

/-- The steps that a transfer can take. -/
def Possible : Transfer → Action → Prop
  | sendFile s, .sendFile action => s.FilePossible action
  | sendData buffer_ s, .sendData action => s.DataPossible buffer_ action
  | sendDataRdma s, .sendDataRdma action => s.Possible action
  | recvFile s, .recvFile action => s.Possible action
  | recvData s, .recvData action => s.Possible action
  | recvDataRdma s, .recvDataRdma action => s.Possible action
  | recvUdpData s, .recvUdpData action => s.UdpPossible action
  | recvFileRequest _ timer, .handleRecvfileFail => timer = true
  | _, _ => False

/-- `cancelRunAfter` of the timer of a request. -/
def cancelRunAfter : Transfer → Transfer
  | recvFileRequest s _ => recvFileRequest s false
  | t => t

end Transfer

/-- A transfer that was started, with the entity and the client it belongs to. -/
structure Started where
  entity : Nat
  client : Client
  transfer : Transfer

/-- A multiplexer, the transfers that were started through its entities, and the `timeMp_` of its
`DTP`, where a task stands as the position of its request. -/
structure Transfers where
  mul : Multiplexer := {}
  started : List Started := []
  timeMp_ : Client → Option Nat := fun _ => none

namespace Transfers

/-- What happens. -/
inductive Event
  /-- On the multiplexer. -/
  | happening (happening : Happening)
  /-- A transfer calls its client. -/
  | call (entity : Nat) (client : Client) (call : Call)
  deriving Repr, DecidableEq

/-- A step: of the user and the loop on the entities, the start of a transfer through an entity,
or a step of the transfer at a position. -/
inductive Action
  | registry (action : Multiplexer.Action)
  | start (entity : Nat) (start : Transfer.Start)
  | transfer (i : Nat) (action : Transfer.Action)

/-- `agreeRecvFile` cancels the timer that `timeMp_` has for the client. -/
def cancelRequest (client : Client) (sys : Transfers) : Transfers :=
  match sys.timeMp_ client with
  | none => sys
  | some i =>
    { sys with
      started := sys.started.modify i fun st => { st with transfer := st.transfer.cancelRunAfter } }

/-- `timeMp_.insert`: an entry that is there already stays. -/
def enterTimer (client : Client) (sys : Transfers) : Transfers :=
  { sys with
    timeMp_ := Function.update sys.timeMp_ client
      ((sys.timeMp_ client).or (some sys.started.length)) }

/-- What the start of a transfer does to the timers. -/
def timers (client : Client) (sys : Transfers) : Transfer.Start → Transfers
  | .agreeRecvFile .. => sys.cancelRequest client
  | .recvFile .. => sys.enterTimer client
  | _ => sys

variable {κ : Type} (md5 : Md5 κ)

/-- One step. -/
def step (sys : Transfers) : Action → Traced Event Transfers
  | .registry action =>
    (sys.mul.step action).view (fun h => [.happening h]) fun mul => { sys with mul := mul }
  | .start entity start =>
    match sys.mul.entities[entity]?.bind Registry.Entity.client_ with
    | none => .fault
    | some client =>
      let sys := sys.timers client start
      (Transfer.start md5 start).view (fun call => [.call entity client call]) fun transfer =>
        { sys with
          started := sys.started ++
            [{ entity := entity, client := client, transfer := transfer }] }
  | .transfer i action =>
    match sys.started[i]? with
    | none => .fault
    | some st =>
      (st.transfer.step md5 action).view (fun call => [.call st.entity st.client call])
        fun transfer =>
          { sys with started := sys.started.set i { st with transfer := transfer } }

/-- The steps that can be taken. A transfer is started through an entity that is there. -/
def Possible (sys : Transfers) : Action → Prop
  | .registry action => sys.mul.Possible action
  | .start entity _ =>
    entity ∉ sys.mul.destroyed ∧
      (sys.mul.entities[entity]?.bind Registry.Entity.client_).isSome
  | .transfer i action => ∃ st, sys.started[i]? = some st ∧ st.transfer.Possible action

end Transfers

end Ndsl.Net.Dtp
