import Ndsl.Net.Entity
import Ndsl.Net.Offers
import Ndsl.Net.RecvData
import Ndsl.Net.RecvFile

/-!
# `Ndsl.Net.Sending`: the calls that begin a transfer

`Multiplexer.cc`: `sendFile`, `recvFile` and `sendData` look up the client of a connection and an
id, and call the functions of the same names of `DTP.cc`, or `sendDataOnUdp`. These make a record of
the transfer, with a listener and a timer, and send the peer a message.

`Multiplexer::sendData` keeps a copy of every block under its id, in the `dataIdMp_` of the client,
so that a block can be sent once more. The copy is a string. `DTP::sendDataOnUdp` keeps what it is
called with in `udpDataMp_`, until a message of the peer asks for the datagram.

A transfer ends when the peer has been sent what it connected for, or when the timer comes first.
Then the listener and the connection are deleted, and the record of a file with them.

A `Sender` is what these functions keep. What the system gives them is an input of the calls, and so
is what an uninitialised variable holds. What the connection does in between is in
`Ndsl.Net.Session`.
-/

set_option autoImplicit false

namespace Ndsl.Net.Sending

open Ndsl.Lib
open Ndsl.Net.Dtp
open Ndsl.Net.Registry (Client Conn)
open Ndsl.Net.Tcp (IoResult)

/-- A `const char *` to data: a block of the user, or the string of a node of a `dataIdMp_`. -/
inductive DataPtr
  | user (block : Nat)
  | node (n : Nat)
  deriving Repr, DecidableEq

/-- A node of the `dataIdMp_` of a client: the copy of a block under an id. -/
structure DataNode where
  client : Client
  dataId : List UInt8
  value : List UInt8
  freed : Bool := false
  deriving Repr, DecidableEq

/-- How far a transfer has come, which is what `acceptor_` and `conn_` of its record lead to. -/
inductive Stage
  /-- The listener and the connection are there. -/
  | listens
  /-- A peer has connected for a file. The listener was deleted, and `acceptor_` is `NULL`. -/
  | connected
  /-- The peer was sent everything. For data both were deleted, and are `NULL`; for a file the
  connection and the record are going to be deleted by a work item. -/
  | finished
  /-- The timer has deleted both, and the pointers still lead there. -/
  | deleted
  /-- The record itself was deleted. -/
  | freed
  deriving Repr, DecidableEq

/-- `struct ListenMgr`. -/
structure ListenMgr where
  filePath_ : List UInt8
  client_ : Client
  stage : Stage := .listens
  deriving Repr, DecidableEq

/-- `struct DataListenMgr`. -/
structure DataListenMgr where
  buffer_ : Option DataPtr
  client_ : Client
  length_ : Int
  dataId_ : List UInt8
  stage : Stage := .listens
  deriving Repr, DecidableEq

/-- `struct UdpInfo`. -/
structure UdpInfo where
  sendBuf_ : Option DataPtr
  length_ : Int
  dtpClient_ : Client
  deriving Repr, DecidableEq

/-- What `DTP::recvFile` puts into a `RecvFileInfo`. -/
structure Request where
  client_ : Client
  fileName_ : List UInt8
  deriving Repr, DecidableEq

/-- A multiplexer with its `DTP` and its clients. -/
structure Sender where
  mul : Registry.Multiplexer := {}
  /-- The clients that were not deleted. -/
  alive : Client → Bool := fun _ => true
  /-- The clients whose entity was not deleted, nor its connection. -/
  entity_ : Client → Bool := fun _ => true
  /-- What can be read from the start of a block of the user on. -/
  blocks : Nat → List UInt8 := fun _ => []
  /-- The nodes of the `dataIdMp_` of all clients, in the order in which they were made. -/
  nodes : List DataNode := []
  udpDataMp_ : List UInt8 → Option UdpInfo := fun _ => none
  listenMgrs : List ListenMgr := []
  dataListenMgrs : List DataListenMgr := []
  requests : List Request := []
  timeMp_ : Client → Option Nat := fun _ => none

/-- What happens. -/
inductive Event
  /-- `new TcpAcceptor` or `new RdmaAcceptor`. -/
  | newAcceptor
  /-- Its channel is registered with the loop. -/
  | enrollIn
  /-- `new TcpConnection` or `new RdmaConnection`. -/
  | newConnection
  /-- The record of a transfer is made, with this client. -/
  | newSession (client : Client)
  /-- `runAfter`. -/
  | runAfter
  /-- A client is used. -/
  | client (client : Client)
  /-- `sendMessage(conn, id, s)` with the serialised message. -/
  | sendMessage (conn : Conn) (id : Int) (msg : ControlMsg)
  /-- `mgr->conn_->onSend` of these bytes. -/
  | onSend (mgr : Nat) (bytes : List UInt8)
  /-- `conn->sendFile` of the file at this path. -/
  | sendFile (mgr : Nat) (filePath : List UInt8)
  /-- `client->analysisProtobuf` of a notice. -/
  | notice (client : Client) (msg : ControlMsg)
  /-- `addWork`. -/
  | addWork
  /-- An `UdpInfo` is read. -/
  | udpInfo
  /-- `sendto` of `length` bytes, with its result. -/
  | sendto (ip : List UInt8) (port : Int) (sendBuf : Option DataPtr) (length : Int) (n : IoResult)
  deriving Repr, DecidableEq

namespace Sender

/-! ### Data -/

/-- What can be read from a pointer on. Behind a string there is its zero. -/
def data (s : Sender) : DataPtr → Option (List UInt8)
  | .user block => some (s.blocks block)
  | .node n =>
    match s.nodes[n]? with
    | none => none
    | some node => if node.freed then none else some (node.value ++ [0])

/-- `n` bytes are read. -/
def read (sendBuf : Option DataPtr) (n : Nat) (s : Sender) : Traced Event (List UInt8) :=
  if n = 0 then pure []
  else
    match sendBuf.bind s.data with
    | none => .fault
    | some bytes => if n ≤ bytes.length then pure (bytes.take n) else .fault

/-- A `std::string` is made from a pointer, which is not to be `NULL`. -/
def string (sendBuf : Option DataPtr) (s : Sender) : Traced Event (List UInt8) :=
  match sendBuf.bind s.data with
  | none => .fault
  | some bytes => if 0 ∈ bytes then pure (cstring bytes) else .fault

/-- `client->dataIdMp_.find(dataId)`. -/
def find (client : Client) (dataId : List UInt8) (s : Sender) : Option Nat :=
  s.nodes.findIdx? fun node => !node.freed && node.client = client && node.dataId = dataId

/-- `client->dataIdMp_.insert(make_pair(dataId, sendBuf))`: an entry that is there already stays.
The strings of the new entry are made before it is looked for. -/
def insert (client : Client) (dataId : List UInt8) (sendBuf : Option DataPtr) (s : Sender) :
    Traced Event Sender := do
  let value ← s.string sendBuf
  match s.find client dataId with
  | some _ => return s
  | none =>
    return { s with
      nodes := s.nodes ++ [{ client := client, dataId := dataId, value := value }] }

/-- `client->dataIdMp_.erase(dataId)`, which the user calls. -/
def erase (client : Client) (dataId : List UInt8) (s : Sender) : Sender :=
  { s with
    nodes := s.nodes.map fun node =>
      if node.client = client ∧ node.dataId = dataId then { node with freed := true } else node }

/-- `delete client`. -/
def delete (client : Client) (s : Sender) : Sender :=
  { s with
    alive := Function.update s.alive client false
    nodes := s.nodes.map fun node =>
      if node.client = client then { node with freed := true } else node }

/-- The entity of a client is deleted, or its connection. -/
def deleteEntity (client : Client) (s : Sender) : Sender :=
  { s with entity_ := Function.update s.entity_ client false }

/-- The transfer of a file comes to another stage. -/
def setStage (mgr : Nat) (stage : Stage) (s : Sender) : Sender :=
  { s with listenMgrs := s.listenMgrs.modify mgr fun m => { m with stage := stage } }

/-- The transfer of a block comes to another stage. -/
def setDataStage (mgr : Nat) (stage : Stage) (s : Sender) : Sender :=
  { s with dataListenMgrs := s.dataListenMgrs.modify mgr fun m => { m with stage := stage } }

end Sender

/-! ### Listeners -/

/-- What the system gives a listener that is started and asked for its port. `sin_port` is what the
variable for the address holds when it is not set. -/
structure ListenCalls where
  socket : Int
  bind : Bool
  listen : Bool
  getsockname : Option UInt16
  sin_port : UInt16
  deriving Repr, DecidableEq

/-- `TcpAcceptor::createAndListen`. -/
def createAndListen (sys : ListenCalls) : Int :=
  if sys.socket < 0 then S_FALSE
  else if sys.bind = false then S_FALSE
  else if sys.listen = false then S_FALSE
  else S_OK

/-- `new TcpAcceptor`, and `TcpAcceptor::start`. -/
def start (sys : ListenCalls) : Traced Event Int := do
  .tell [.newAcceptor]
  if createAndListen sys < 0 then return S_FALSE
  else do
    .tell [.enrollIn]
    return S_OK

/-- `ntohs(localaddr.sin_port)`. A failure of `getsockname` is only logged. -/
def port (sys : ListenCalls) : Int := ((sys.getsockname.getD sys.sin_port).toNat : Int)

/-- What the system gives `sendFile`: the size of the file, what the variable for the size holds
when `stat` fails, and the content of the file, unless it cannot be opened. -/
structure FileCalls extends ListenCalls where
  stat : Option Int
  st_size : Int
  file : Option (List UInt8)
  deriving Repr, DecidableEq

/-- What the system gives `sendData`. `rdma` says whether an RDMA listener could be started. -/
structure DataCalls extends ListenCalls where
  rdma : Bool := true
  deriving Repr, DecidableEq

/-! ### `DTP` -/

namespace DTP

variable {κ : Type} (md5 : Md5 κ)

/-- `DTP::sendFile`. What its calls return is not looked at, but for the log. -/
def sendFile (sys : FileCalls) (conn : Conn) (peerId : Int) (filePath : List UInt8)
    (length : Int) (client : Client) (s : Sender) : Traced Event (Int × Sender) := do
  let realLength := if length = 0 then toInt (toSize (sys.stat.getD sys.st_size)) else length
  let _ ← start sys.toListenCalls
  .tell [.newConnection]
  -- `strcpy` into a block of `FILEPATHSIZE` bytes
  if FILEPATHSIZE ≤ (cstring filePath).length then .fault
  else do
    .tell [.newSession client, .runAfter]
    -- the block of the checksum is zero when the file cannot be opened
    let md5 := (sys.file.map md5.getMd5).getD []
    match getFileName filePath with
    | none => .fault
    | some fileName => do
      .tell [.sendMessage conn 0
        (makeControlMsg SENDFILEFLAG peerId RDMA_IP (port sys.toListenCalls) md5 fileName
          realLength)]
      return (S_OK,
        { s with
          listenMgrs := s.listenMgrs ++ [{ filePath_ := cstring filePath, client_ := client }] })

/-- `DTP::stopListen` of the record at a position. -/
def stopListen (mgr : Nat) (s : Sender) : Traced Event Sender :=
  match (s.listenMgrs[mgr]?).map ListenMgr.stage with
  | some .listens => pure (s.setStage mgr .deleted)
  | some .connected | some .finished => pure s
  | _ => .fault

/-- `DTP::acceptorCallback`. -/
def acceptorCallback (mgr : Nat) (s : Sender) : Traced Event Sender :=
  match s.listenMgrs[mgr]? with
  | none => .fault
  | some m =>
    match m.stage with
    | .listens => do
      .tell [.sendFile mgr m.filePath_]
      return s.setStage mgr .connected
    | _ => .fault

/-- The notice that `DTP::sendFileCallback` makes of the record of a `sendFile`. -/
def sendFileNotice (mgr : ListenMgr) : Option ControlMsg :=
  (getFileName mgr.filePath_).map (RecvFile.makeNoticeMsg SENDFILESUCC)

/-- `DTP::sendFileCallback`, which the connection calls. -/
def sendFileCallback (mgr : Nat) (s : Sender) : Traced Event Sender :=
  match s.listenMgrs[mgr]? with
  | none => .fault
  | some m =>
    match m.stage, sendFileNotice m with
    | .connected, some msg => do
      .tell [.client m.client_]
      if s.alive m.client_ = false then .fault
      else do
        .tell [.notice m.client_ msg, .addWork]
        return s.setStage mgr .finished
    | _, _ => .fault

/-- `DTP::senfFileClearMemory`. -/
def senfFileClearMemory (mgr : Nat) (s : Sender) : Traced Event Sender :=
  match (s.listenMgrs[mgr]?).map ListenMgr.stage with
  | some .finished => pure (s.setStage mgr .freed)
  | _ => .fault

/-- `DTP::recvFile`. -/
def recvFile (conn : Conn) (peerId : Int) (filename : List UInt8) (client : Client)
    (s : Sender) : Traced Event (Int × Sender) := do
  .tell [.newSession client, .runAfter]
  let timeMp_ :=
    Function.update s.timeMp_ client ((s.timeMp_ client).or (some s.requests.length))
  .tell [.sendMessage conn 0
    { flag := RECVFILEFLAG, id := peerId, fileName := cstring filename }]
  return (S_OK,
    { s with
      requests := s.requests ++ [{ client_ := client, fileName_ := filename }]
      timeMp_ := timeMp_ })

/-- The part of `sendData` that listens: the port that it offers. -/
def listenForData (sys : DataCalls) (flag : Int) : Traced Event Int :=
  if flag = TCP then do
    let _ ← start sys.toListenCalls
    .tell [.newConnection]
    return port sys.toListenCalls
  else do
    .tell [.newAcceptor]
    .tell (if sys.rdma then [.enrollIn] else [])
    .tell [.newConnection]
    return SERV_PORT

/-- The checksum of `length` bytes. -/
def crc (sendBuf : Option DataPtr) (length : Int) (s : Sender) : Traced Event Nat := do
  let bytes ← s.read sendBuf (length % 2 ^ 32).toNat
  return (getCRC16_CCITT bytes).toNat

/-- `DTP::sendData`, called with `TCP` or `RDMA`. -/
def sendData (sys : DataCalls) (conn : Conn) (peerId : Int) (sendBuf : Option DataPtr)
    (length : Int) (client : Client) (dataId : List UInt8) (flag : Int) (s : Sender) :
    Traced Event (Int × Sender) := do
  .tell [.newSession client]
  let port ← listenForData sys flag
  .tell [.runAfter]
  let crc ← crc sendBuf length s
  .tell [.sendMessage conn 0
    (makeDataControlMsg (offerFlag flag) peerId (some RDMA_IP) port crc length dataId)]
  return (S_OK,
    { s with
      dataListenMgrs := s.dataListenMgrs ++
        [{ buffer_ := sendBuf, client_ := client, length_ := length, dataId_ := dataId }] })

/-- `DTP::stopListenOfData` of the record at a position. -/
def stopListenOfData (mgr : Nat) (s : Sender) : Traced Event Sender :=
  match (s.dataListenMgrs[mgr]?).map DataListenMgr.stage with
  | some .listens => pure (s.setDataStage mgr .deleted)
  | some .finished => pure s
  | _ => .fault

/-- `DTP::acceptorCallbackOfSendData` of the record at a position. -/
def acceptorCallbackOfSendData (mgr : Nat) (s : Sender) : Traced Event Sender :=
  match s.dataListenMgrs[mgr]? with
  | none => .fault
  | some m =>
    match m.stage with
    | .listens => do
      let bytes ← s.read m.buffer_ (toSize m.length_)
      .tell [.onSend mgr bytes]
      return s
    | _ => .fault

/-- `DTP::sendDataCallback`, which the connection calls. -/
def sendDataCallback (mgr : Nat) (s : Sender) : Traced Event Sender :=
  match s.dataListenMgrs[mgr]? with
  | none => .fault
  | some m =>
    match m.stage with
    | .listens => do
      .tell [.client m.client_]
      if s.alive m.client_ = false then .fault
      else do
        .tell [.notice m.client_ (RecvData.makeDataNoticeMsg SENDDATASUCC m.dataId_)]
        return s.setDataStage mgr .finished
    | _ => .fault

/-- `DTP::sendDataOnUdp`, the offer. An entry of `udpDataMp_` that is there already stays. -/
def sendDataOnUdp (conn : Conn) (peerId : Int) (sendBuf : Option DataPtr) (length : Int)
    (client : Client) (dataId : List UInt8) (s : Sender) : Traced Event (Int × Sender) := do
  .tell [.newSession client]
  let info := { sendBuf_ := sendBuf, length_ := length, dtpClient_ := client }
  let key := cstring dataId
  let udpDataMp_ := Function.update s.udpDataMp_ key ((s.udpDataMp_ key).or (some info))
  let crc ← crc sendBuf length s
  .tell [.sendMessage conn 0 (makeUdpControlMsg SENDDATAONUDP peerId crc length dataId)]
  return (S_OK, { s with udpDataMp_ := udpDataMp_ })

/-- `DTP::sendDataOnUdp`, the datagram. The client is asked for the connection of its entity. `n` is
what `sendto` gives in `UdpEndpoint::onSend`, whose result is not looked at: a datagram that the
system has not taken is not sent. -/
def answerOnUdp (ip : List UInt8) (port : Int) (info : UdpInfo) (n : IoResult) (s : Sender) :
    Traced Event Sender := do
  .tell [.client info.dtpClient_]
  if s.alive info.dtpClient_ = false ∨ s.entity_ info.dtpClient_ = false then .fault
  else do
    .tell [.sendto ip port info.sendBuf_ info.length_ n]
    return s

end DTP

/-- `DTPClient::analysisProtobuf` of a `RECVDATAONUDP`. The variable `info` is set when the id is
found; otherwise it leads to `uninit`, or to no record. -/
def analysisProtobuf (uninit : Option UdpInfo) (n : IoResult) (msg : ControlMsg) (s : Sender) :
    Traced Event Sender := do
  let info :=
    match s.udpDataMp_ msg.dataId with
    | none => uninit
    | some info => some info
  .tell [.udpInfo]
  match info with
  | none => .fault
  | some info => DTP.answerOnUdp msg.ip msg.dataPort info n s

/-! ### `Multiplexer` -/

namespace Multiplexer

variable {κ : Type} (md5 : Md5 κ)

/-- The look-up of `sendFile`, `recvFile` and `sendData`. The variable `client` is not set when the
connection or the id is not found; it holds `uninit` then. -/
def findClient (uninit : Client) (conn : Conn) (peerId : Int) (s : Sender) : Client :=
  match s.mul.connMp_ conn with
  | none => uninit
  | some mp =>
    match mp peerId with
    | none => uninit
    | some client => client

/-- `Multiplexer::sendFile`. -/
def sendFile (uninit : Client) (sys : FileCalls) (conn : Conn) (peerId : Int)
    (filePath : List UInt8) (length : Int) (s : Sender) : Traced Event Sender := do
  let client := findClient uninit conn peerId s
  let (_, s) ← DTP.sendFile md5 sys conn peerId filePath length client s
  return s

/-- `Multiplexer::recvFile`. -/
def recvFile (uninit : Client) (conn : Conn) (peerId : Int) (filename : List UInt8)
    (s : Sender) : Traced Event Sender := do
  let client := findClient uninit conn peerId s
  let (_, s) ← DTP.recvFile conn peerId filename client s
  return s

/-- The block that `sendData` sends: without one, the copy under the id. -/
def resent (client : Client) (dataId : List UInt8) (sendBuf : Option DataPtr) (s : Sender) :
    Option DataPtr :=
  match sendBuf with
  | some sendBuf => some sendBuf
  | none => (s.find client dataId).map .node

/-- `Multiplexer::sendData`. `guid` is what a new id reads, when there is none. The zero that
`Guid::toString` writes behind the 32 characters of its block is not followed here. -/
def sendData (uninit : Client) (guid : List UInt8) (sys : DataCalls) (conn : Conn) (peerId : Int)
    (sendBuf : Option DataPtr) (length : Int) (dataId : Option (List UInt8)) (flag : Int)
    (s : Sender) : Traced Event Sender := do
  let client := findClient uninit conn peerId s
  let dataId := cstring (dataId.getD guid)
  if flag = TCP ∨ flag = RDMA then
    .tell [.client client]
    if s.alive client = false then .fault
    else do
      let sendBuf := resent client dataId sendBuf s
      let s ← s.insert client dataId sendBuf
      let (_, s) ← DTP.sendData sys conn peerId sendBuf length client dataId flag s
      return s
  else do
    let (_, s) ← DTP.sendDataOnUdp conn peerId sendBuf length client dataId s
    return s

end Multiplexer

/-! ### Runs -/

/-- A step: a call of the multiplexer, or of `DTP`; a message of the peer that asks for a datagram;
a peer connects to the listener of a record, was sent everything, or did not come in time; the user
erases an entry of `dataIdMp_`; a client is deleted, or its entity; the entities change the
registry. -/
inductive Op
  | sendFile (uninit : Client) (sys : FileCalls) (conn : Conn) (peerId : Int)
      (filePath : List UInt8) (length : Int)
  | recvFile (uninit : Client) (conn : Conn) (peerId : Int) (filename : List UInt8)
  | sendData (uninit : Client) (guid : List UInt8) (sys : DataCalls) (conn : Conn) (peerId : Int)
      (sendBuf : Option DataPtr) (length : Int) (dataId : Option (List UInt8)) (flag : Int)
  | sendDataOnUdp (conn : Conn) (peerId : Int) (sendBuf : Option DataPtr) (length : Int)
      (client : Client) (dataId : List UInt8)
  | analysisProtobuf (uninit : Option UdpInfo) (n : IoResult) (msg : ControlMsg)
  | stopListen (mgr : Nat)
  | acceptorCallback (mgr : Nat)
  | sendFileCallback (mgr : Nat)
  | senfFileClearMemory (mgr : Nat)
  | stopListenOfData (mgr : Nat)
  | acceptorCallbackOfSendData (mgr : Nat)
  | sendDataCallback (mgr : Nat)
  | erase (client : Client) (dataId : List UInt8)
  | delete (client : Client)
  | deleteEntity (client : Client)
  | registry (mul : Registry.Multiplexer)

variable {κ : Type} (md5 : Md5 κ)

/-- One step. -/
def step (s : Sender) : Op → Traced Event Sender
  | .sendFile uninit sys conn peerId filePath length =>
    Multiplexer.sendFile md5 uninit sys conn peerId filePath length s
  | .recvFile uninit conn peerId filename => Multiplexer.recvFile uninit conn peerId filename s
  | .sendData uninit guid sys conn peerId sendBuf length dataId flag =>
    Multiplexer.sendData uninit guid sys conn peerId sendBuf length dataId flag s
  | .sendDataOnUdp conn peerId sendBuf length client dataId => do
    let (_, s) ← DTP.sendDataOnUdp conn peerId sendBuf length client dataId s
    return s
  | .analysisProtobuf uninit n msg => analysisProtobuf uninit n msg s
  | .stopListen mgr => DTP.stopListen mgr s
  | .acceptorCallback mgr => DTP.acceptorCallback mgr s
  | .sendFileCallback mgr => DTP.sendFileCallback mgr s
  | .senfFileClearMemory mgr => DTP.senfFileClearMemory mgr s
  | .stopListenOfData mgr => DTP.stopListenOfData mgr s
  | .acceptorCallbackOfSendData mgr => DTP.acceptorCallbackOfSendData mgr s
  | .sendDataCallback mgr => DTP.sendDataCallback mgr s
  | .erase client dataId => pure (s.erase client dataId)
  | .delete client => pure (s.delete client)
  | .deleteEntity client => pure (s.deleteEntity client)
  | .registry mul => pure { s with mul := mul }

end Ndsl.Net.Sending
