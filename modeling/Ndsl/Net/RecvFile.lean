import Ndsl.Lib.Memory
import Ndsl.Net.DtpClient
import Ndsl.Net.TcpConnection

/-!
# `Ndsl.Net.RecvFile`: receiving a file

`DTP.cc`: `agreeRecvFile` connects to the sender of an offer and asks the new connection for data.
`recvFileCallback` is called with each chunk that has come in. It appends to the file, and then asks
for the next chunk, or compares the checksum of the file with the offered one and tells the user.

A `RecvFile` is the record of the receive with what it points to, the client, the data connection
and the disk. The checksum is the one of a library, which the model takes as a parameter. What is
written to a file that could be opened is stored. A checksum or a path that is too long for its
block is written on behind the block: the copy is told as `overrun`, and the receive goes on with
what was copied.
-/

set_option autoImplicit false

namespace Ndsl.Net.Dtp

open Ndsl.Lib
open Ndsl.Net.Tcp (EAGAIN RecvResult TcpConnection)

/-- `MD5LENTH`. -/
def MD5LENTH : Nat := 16

/-- `FILERECVROOT`: the two characters `./`. -/
def FILERECVROOT : List UInt8 := [0x2e, 0x2f]

/-- `MD5_Init`, `MD5_Update` and `MD5_Final`, with contexts of type `κ`. -/
structure Md5 (κ : Type) where
  init : κ
  update : κ → List UInt8 → κ
  final : κ → Fin MD5LENTH → UInt8

/-- A byte as `%02X` prints it. -/
def hexByte (b : UInt8) : List UInt8 :=
  [digit (b / 16), digit (b % 16)]
where
  /-- The character of a digit. -/
  digit (d : UInt8) : UInt8 := if d < 10 then 0x30 + d else 0x37 + d

namespace Md5

variable {κ : Type} (md5 : Md5 κ)

/-- A digest as `getMd5` prints it. -/
def print (ctx : κ) : List UInt8 :=
  (List.finRange MD5LENTH).flatMap fun i => hexByte (md5.final ctx i)

/-- The checksum of some bytes. -/
def checksum (bytes : List UInt8) : List UInt8 :=
  md5.print (md5.update md5.init bytes)

/-- The loop of `getMd5`: a read that gives less than it asks for is the last one. -/
def readLoop : Nat → List UInt8 → κ → κ
  | 0, _, ctx => ctx
  | fuel + 1, bytes, ctx =>
    let dataBuff := bytes.take MAXLINE
    let ctx := if dataBuff.length ≠ 0 then md5.update ctx dataBuff else ctx
    if dataBuff.length < MAXLINE then ctx else readLoop fuel (bytes.drop MAXLINE) ctx

/-- `DTP::getMd5` of a file that holds `bytes`. -/
def getMd5 (bytes : List UInt8) : List UInt8 :=
  md5.print (md5.readLoop (bytes.length + 1) bytes md5.init)

end Md5

/-- The files, by path, and the paths at which a file can be opened for appending. -/
structure Disk where
  content : List UInt8 → Option (List UInt8) := fun _ => none
  opens : List UInt8 → Bool := fun _ => true

namespace Disk

/-- `fwrite` to a file that was opened for appending. -/
def append (path bytes : List UInt8) (disk : Disk) : Disk :=
  { disk with
    content := Function.update disk.content path (some ((disk.content path).getD [] ++ bytes)) }

/-- `unlink`. -/
def unlink (path : List UInt8) (disk : Disk) : Disk :=
  { disk with content := Function.update disk.content path none }

end Disk

/-- `struct RecvFileInfo`. -/
structure RecvFileInfo where
  fileName_ : List UInt8
  length_ : Int
  checkSum_ : List UInt8
  deriving Repr, DecidableEq

/-- The receive of a file. -/
structure RecvFile where
  info : RecvFileInfo
  client : DTPClient
  /-- The bytes around `buf_`, which starts at 0. -/
  mem : Memory
  /-- What `len_` points to. It is set before it is read. -/
  len : Nat := 0
  disk : Disk
  /-- What `tcpClient_` points to. -/
  data : TcpConnection
  /-- The channel of the data connection is registered with the loop. -/
  enrolled : Bool := true
  /-- The loop has found it ready and has not called it yet. -/
  ready : Bool := false

namespace RecvFile

/-- What happens in the receive of a file. -/
inductive Event
  /-- What the data connection does. -/
  | data (act : Tcp.Act)
  /-- `fopen(path, "ab+")`. -/
  | fopen (path : List UInt8)
  /-- `fwrite` of `n` bytes of `buf_`. -/
  | fwrite (path : List UInt8) (n : Nat)
  /-- `unlink(path)`. -/
  | unlink (path : List UInt8)
  /-- `client->analysisProtobuf(msg)`. -/
  | analysisProtobuf (msg : ControlMsg)
  /-- What the client does. -/
  | client (act : Act)
  /-- The copy of a checksum or of a path writes behind its block. -/
  | overrun
  /-- `handleErro` deletes the record. -/
  | handleErro
  deriving Repr, DecidableEq

/-- `DTP::makeNoticeMsg`. -/
def makeNoticeMsg (type : Int) (fileName : List UInt8) : ControlMsg :=
  { flag := type, fileName := cstring fileName }

/-- `DTP::getFileRecvAbsolutePath` into a block of `FILEPATHSIZE` zeros. -/
def getFileRecvAbsolutePath (fileName : List UInt8) : Traced Event (List UInt8) := do
  let filePath := FILERECVROOT ++ cstring fileName
  .tell (Dtp.overrun .overrun FILEPATHSIZE filePath)
  return filePath

/-- `client->analysisProtobuf(msg)`. -/
def analysisProtobuf (msg : ControlMsg) (s : RecvFile) : Traced Event RecvFile := do
  .tell [.analysisProtobuf msg]
  let x := s.client.analysisProtobuf msg
  .tell (x.log.map .client)
  match x.value with
  | none => .fault
  | some client => return { s with client := client }

/-- `DTP::handleErro`. -/
def handleErro (s : RecvFile) : Traced Event RecvFile := do
  .tell [.handleErro]
  return { s with enrolled := false }

/-- What an act of the data connection does to the receive. `cb` is the callback of the request. -/
def perform (cb : RecvFile → Traced Event RecvFile) (s : RecvFile) (act : Tcp.Act) :
    Traced Event RecvFile := do
  .tell [.data act]
  match act with
  | .recv buf _ _ (.data bytes) => return { s with mem := s.mem.write buf bytes }
  | .setLen _ value => return { s with len := value }
  | .callback _ _ => cb s
  | .errorHandle _ _ _ => s.handleErro
  | _ => return s

/-- The call of a function of the data connection. -/
def onData (x : Traced Tcp.Act (Int × TcpConnection)) (cb : RecvFile → Traced Event RecvFile)
    (s : RecvFile) : Traced Event RecvFile :=
  match x.value with
  | none => .fault
  | some (_, data) => x.log.foldlM (perform cb) { s with data := data }

/-- The request of the receive: its callback is `recvFileCallback`, and `info` is the parameter. -/
def request : Tcp.Request :=
  { buf := 0, len := 0, flags := 0, cb := some 0, param := 0 }

section
variable {κ : Type} (md5 : Md5 κ)

/-- The part of `recvFileCallback` for a file that has arrived. -/
def complete (s : RecvFile) : Traced Event RecvFile := do
  let filePath ← getFileRecvAbsolutePath s.info.fileName_
  let newCheckSum := ((s.disk.content filePath).map md5.getMd5).getD []
  if cstring newCheckSum ≠ cstring s.info.checkSum_ then
    -- the file goes, with what was in it before
    .tell [.unlink filePath]
    { s with disk := s.disk.unlink filePath }.analysisProtobuf
      (makeNoticeMsg RECVFILEFAIL s.info.fileName_)
  else s.analysisProtobuf (makeNoticeMsg RECVFILESUCC s.info.fileName_)

/-- One call of `recvFileCallback`. When it asks for the next chunk, `result` is what `recv` gives,
and `again` is `recvFileCallback`. -/
def callback (result : RecvResult) (again : RecvFile → Traced Event RecvFile) (s : RecvFile) :
    Traced Event RecvFile := do
  let length := s.info.length_
  let filePath ← getFileRecvAbsolutePath s.info.fileName_
  .tell [.fopen filePath]
  -- `fwrite` has no file, or is to read more bytes than there are
  if s.disk.opens filePath = false ∨ length < 0 then .fault
  else
    .tell [.fwrite filePath length.toNat]
    -- as many bytes as the file has left, and not as many as have come in
    let s := { s with disk := s.disk.append filePath (s.mem.read 0 length.toNat) }
    if s.len = toSize length then s.complete md5
    else
      let s :=
        { s with
          mem := s.mem.write 0 (List.replicate MAXLINE 0)
          info := { s.info with length_ := length - toInt s.len } }
      s.onData (Tcp.onRecv request result s.data) again

/-- `DTP::recvFileCallback`. `results` are what the calls of `recv` give that follow each other
without the loop in between. -/
def recvFileCallback : List RecvResult → RecvFile → Traced Event RecvFile
  | [], s => s.callback md5 (.fail EAGAIN) pure
  | result :: results, s => s.callback md5 result (recvFileCallback results)

/-- `DTP::agreeRecvFile`, behind its timer. `data` is the connection that `onConnect` opens, and
`mem` is what the memory holds. -/
def agreeRecvFile (msg : ControlMsg) (client : DTPClient) (data : TcpConnection) (mem : Memory)
    (disk : Disk) (results : List RecvResult) : Traced Event RecvFile := do
  -- `strcpy` into a block of `MD5LENTH * 2 + 1` bytes
  .tell (Dtp.overrun .overrun (MD5LENTH * 2 + 1) (cstring msg.checkSum))
  let s : RecvFile :=
    { info :=
        { fileName_ := msg.fileName
          length_ := msg.length
          checkSum_ := cstring msg.checkSum }
      client := client
      mem := mem.write 0 (List.replicate MAXLINE 0)
      disk := disk
      data := data }
  let s ← s.onData (Tcp.onRecv request (results.headD (.fail EAGAIN)) s.data)
    (recvFileCallback md5 results.tail)
  return { s with data := setError s.data }
where
  /-- `pCli->onError(handleErro, info)`. -/
  setError (data : TcpConnection) : TcpConnection :=
    { data with
      pTcpChannel_ := data.pTcpChannel_.map fun channel =>
        { channel with errorHandle_ := some 0, errParam_ := 0 } }

/-- The loop calls `handleRead` of the data connection. -/
def handleRead (result : RecvResult) (results : List RecvResult) (s : RecvFile) :
    Traced Event RecvFile :=
  s.onData (Tcp.handleRead result s.data) (recvFileCallback md5 results)

end

/-- `DTP::handleRecvfileFail`: the timer of `recvFile` fires. -/
def handleRecvfileFail (s : RecvFile) : Traced Event RecvFile :=
  s.analysisProtobuf (makeNoticeMsg RECVFILEFAIL s.info.fileName_)

end RecvFile

end Ndsl.Net.Dtp
