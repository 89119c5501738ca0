import Ndsl.Lib.Wire
import Ndsl.Net.RdmaSession

/-!
# `Ndsl.Net.Offers`: the messages that offer a file or a data block

`DTP.cc`: `makeControlMsg`, `makeDataControlMsg` and `makeUdpControlMsg` fill in the messages that
`sendFile`, `sendData` and `sendDataOnUdp` send. The receiver goes by the flag of a message, which
`sendData` chooses by the transport that it is called with. `agreeRecvFile`, `agreeRecvData` and
`agreeRecvUdpData` begin the receives.

`ControlMsg.serialize` is what `SerializeToString` makes of a message, by `ControlMsg.proto`.

The receives themselves are in `Ndsl.Net.RecvFile`, `Ndsl.Net.RecvData`, `Ndsl.Net.RdmaSession` and
`Ndsl.Net.UdpSession`.
-/

set_option autoImplicit false

namespace Ndsl.Net.Dtp

open Ndsl.Lib

/-- `TCP`. -/
def TCP : Int := 0

/-- `UDP`. -/
def UDP : Int := 1

/-- `RDMA`. -/
def RDMA : Int := 2

/-- `SERV_PORT`: the port of every RDMA listener. -/
def SERV_PORT : Int := 9877

/-- `RDMA_IP`, and the address that `sendFile` gives: the characters `127.0.0.1`. -/
def RDMA_IP : List UInt8 := [0x31, 0x32, 0x37, 0x2e, 0x30, 0x2e, 0x30, 0x2e, 0x31]

/-- The loop of `getFileName`: the position of the last slash, or 0. -/
def lastSlash (filePath : List UInt8) : Nat :=
  (List.range filePath.length).foldl (fun st i => if filePath.getD i 0 = 0x2f then i else st) 0

/-- `DTP::getFileName`. A path without a slash loses its first character. Behind an empty path
there is nothing to read. -/
def getFileName (filePath : List UInt8) : Option (List UInt8) :=
  let filePath := cstring filePath
  if filePath = [] then none else some (filePath.drop (lastSlash filePath + 1))

example : getFileName [0x61, 0x2f, 0x62, 0x63] = some [0x62, 0x63] := by decide

/-- `DTP::makeControlMsg`, with the name that `getFileName` gives. -/
def makeControlMsg (type id : Int) (ip : List UInt8) (dataport : Int) (md5 fileName : List UInt8)
    (length : Int) : ControlMsg :=
  { flag := type
    id := id
    ip := cstring ip
    dataPort := dataport
    checkSum := cstring md5
    fileName := fileName
    length := length }

/-- `DTP::makeControlMsg`, with the path. Behind an empty path there is no name to read. -/
def makeControlMsgOfPath (type id : Int) (ip : List UInt8) (dataport : Int)
    (md5 filePath : List UInt8) (length : Int) : Option ControlMsg :=
  (getFileName filePath).map fun fileName =>
    makeControlMsg type id ip dataport md5 fileName length

/-- `DTP::makeDataControlMsg`. A `NULL` address is left out. -/
def makeDataControlMsg (type id : Int) (ip : Option (List UInt8)) (dataport : Int) (crc : Nat)
    (length : Int) (dataId : List UInt8) : ControlMsg :=
  { flag := type
    id := id
    ip := cstring (ip.getD [])
    dataPort := dataport
    length := length
    dataId := cstring dataId
    crcCheckSum := crc }

/-- `DTP::makeUdpControlMsg`. -/
def makeUdpControlMsg (type id : Int) (crc : Nat) (length : Int) (dataId : List UInt8) :
    ControlMsg :=
  { flag := type, id := id, length := length, dataId := cstring dataId, crcCheckSum := crc }

/-- `SerializeToString`. An `int` is passed as its 32 bits. -/
def ControlMsg.serialize (msg : ControlMsg) : List UInt8 :=
  Wire.int32 1 msg.flag ++ (Wire.int32 2 msg.id ++ (Wire.bytes 3 msg.ip ++
    (Wire.int32 4 msg.dataPort ++ (Wire.bytes 5 msg.checkSum ++ (Wire.bytes 6 msg.fileName ++
      (Wire.int32 7 msg.length ++ (Wire.bytes 8 msg.dataId ++
        Wire.uint32 9 msg.crcCheckSum)))))))

/-- The message that asks for a file `f`, with a negative number. -/
example : ControlMsg.serialize { flag := 2, id := -1, fileName := [0x66] } =
    [0x08, 0x02, 0x10, 0xff, 0xff, 0xff, 0xff, 0xff, 0xff, 0xff, 0xff, 0xff, 0x01, 0x32, 0x01,
      0x66] := by
  decide +kernel

/-- The flag of the message of `sendData`, which was called with the flag of a transport. -/
def offerFlag (flag : Int) : Int :=
  if flag = RDMA then SENDDATAONRDMA else if flag = TCP then SENDDATAFLAG else flag

/-- A receive, and the message that it is for. -/
inductive Receive
  | file (msg : ControlMsg)
  | tcp (msg : ControlMsg)
  | rdma (msg : ControlMsg)
  | udp (msg : ControlMsg)
  deriving Repr, DecidableEq

/-- The receive that `DTP` begins when a client calls it. `agreeRecvData` opens an `RdmaClient` for
one flag, and a `TcpClient` for all others. -/
def Receive.ofAct : Act → Option Receive
  | .recvFile msg => some (.file msg)
  | .recvData msg => some (if msg.flag = SENDDATAONRDMA then .rdma msg else .tcp msg)
  | .recvUdpData msg => some (.udp msg)
  | _ => none

end Ndsl.Net.Dtp
