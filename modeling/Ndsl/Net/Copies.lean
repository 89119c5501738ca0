import Ndsl.Lib.Blocks
import Ndsl.Net.RecvFile

/-!
# `Ndsl.Net.Copies`: the buffers that a control message is copied into

The functions of `DTPClient` and `DTP` that work on a control message of the peer, as the stores
that they make into buffers of characters: `analysisProtobuf` copies a name for the user,
`agreeRecvFile` copies the checksum, `recvFileCallback` builds the path, and `agreeRecvData`
allocates as many bytes as the message says. What else these functions do is in
`Ndsl.Net.DtpClient`, `Ndsl.Net.RecvFile` and `Ndsl.Net.RecvData`.
-/

set_option autoImplicit false

namespace Ndsl.Net.Dtp.Copies

open Ndsl.Lib

/-- The buffers, by the variables that point to them. -/
inductive Buffer
  | filename
  | checkSum_
  | buf
  | filePath
  | newCheckSum
  | recvbuf
  deriving Repr, DecidableEq

/-- `DTPClient::analysisProtobuf`. -/
def analysisProtobuf (noticeCallback_ : Option Nat) (msg : ControlMsg) :
    Traced (Store Buffer) Unit :=
  match noticeCallback_ with
  | none => pure ()
  | some _ =>
    match DTPClient.keyOf msg with
    | none => pure ()
    | some name => do
      Store.calloc .filename FILEPATHSIZE
      let _ ← Store.strcpy Buffer.filename name
      return ()

/-- The constructor of `RecvFileInfo`. -/
def newRecvFileInfo (fileName : List UInt8) (length : Int) (checkSum : List UInt8) :
    Traced (Store Buffer) RecvFileInfo := do
  Store.calloc .checkSum_ (MD5LENTH * 2 + 1)
  let checkSum_ ← Store.strcpy Buffer.checkSum_ checkSum
  return { fileName_ := fileName, length_ := length, checkSum_ := checkSum_ }

/-- `DTP::getFileRecvAbsolutePath`. -/
def getFileRecvAbsolutePath (fileName : List UInt8) : Traced (Store Buffer) (List UInt8) := do
  let filePath ← Store.strcat Buffer.filePath [] FILERECVROOT
  Store.strcat Buffer.filePath filePath fileName

/-- `DTP::getMd5` of a file that can be opened: `sprintf` writes two digits and a zero each time. -/
def getMd5 : Traced (Store Buffer) Unit :=
  .tell (((List.range MD5LENTH).map fun i => (i * 2, 3)).map fun x =>
    .write .newCheckSum x.1 x.2)

/-- `DTP::recvFileCallback`, for a chunk of `len` bytes. It returns the record when there is more to
receive. `opens` says whether the file can be opened. -/
def recvFileCallback (opens : Bool) (len : Nat) (info : RecvFileInfo) :
    Traced (Store Buffer) (Option RecvFileInfo) := do
  Store.calloc .filePath FILEPATHSIZE
  let _ ← getFileRecvAbsolutePath info.fileName_
  -- `fwrite` has no file, or is to read more bytes than there are
  if opens = false ∨ info.length_ < 0 then .fault
  else if len = toSize info.length_ then
    Store.calloc .newCheckSum (MD5LENTH * 2 + 1)
    Store.calloc .filePath FILEPATHSIZE
    let _ ← getFileRecvAbsolutePath info.fileName_
    getMd5
    return none
  else
    Store.memset .buf MAXLINE
    return some { info with length_ := info.length_ - toInt len }

/-- The data connection gives the file. `arrivals` are the numbers of bytes that are there when it
is asked, of which `recv` takes `MAXLINE` at most. -/
def receive (opens : Bool) : List Nat → RecvFileInfo → Traced (Store Buffer) Unit
  | [], _ => pure ()
  | n :: arrivals, info => do
    .tell [.write .buf 0 (min n MAXLINE)]
    match ← recvFileCallback opens (min n MAXLINE) info with
    | none => return ()
    | some info => receive opens arrivals info

/-- `DTP::agreeRecvFile`, and the receive that it begins. -/
def agreeRecvFile (opens : Bool) (msg : ControlMsg) (arrivals : List Nat) :
    Traced (Store Buffer) Unit := do
  Store.calloc .buf MAXLINE
  let info ← newRecvFileInfo msg.fileName msg.length msg.checkSum
  receive opens arrivals info

/-- `DTP::agreeRecvData`, up to its receive. -/
def agreeRecvData (msg : ControlMsg) : Traced (Store Buffer) Unit := do
  .tell [.alloc .recvbuf msg.length]
  -- `new char[length]` throws
  if msg.length < 0 then .fault
  else Store.memset .recvbuf msg.length.toNat

/-- The ways in which a control message is processed. -/
inductive Way
  | analysisProtobuf (noticeCallback_ : Option Nat)
  | agreeRecvFile (opens : Bool) (arrivals : List Nat)
  | agreeRecvData
  deriving Repr, DecidableEq

/-- A control message is processed. -/
def process (msg : ControlMsg) : Way → Traced (Store Buffer) Unit
  | .analysisProtobuf noticeCallback_ => analysisProtobuf noticeCallback_ msg
  | .agreeRecvFile opens arrivals => agreeRecvFile opens msg arrivals
  | .agreeRecvData => agreeRecvData msg

/-- The stores of a program that processes messages one after the other, whatever becomes of each.
-/
def stores (steps : List (ControlMsg × Way)) : List (Store Buffer) :=
  steps.flatMap fun step => (process step.1 step.2).log

end Ndsl.Net.Dtp.Copies
