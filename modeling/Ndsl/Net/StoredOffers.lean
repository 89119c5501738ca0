import Ndsl.Lib.Lifetime
import Ndsl.Net.RecvData
import Ndsl.Net.RecvFile

/-!
# `Ndsl.Net.StoredOffers`: the messages that a client remembers, as objects

`mp_` holds pointers to control messages. `analysisProtobuf` enters one there; the function that has
made the message calls it, and deletes the message afterwards, or leaves it alone. An agreement
works on the message that it finds, and takes the entry out when it is done.

A message goes by the number of those that were made before it. The callback of a client may call
functions which make messages, so a step is the begin of a call or the return of the last one that
has begun. The trace lists what is done to the messages.
-/

set_option autoImplicit false

namespace Ndsl.Net.Dtp

open Ndsl.Lib

/-- A `mnet::ControlMsg *`. -/
abbrev MsgPtr := Nat

namespace Stored

/-- The functions that make a message and call `analysisProtobuf` with it. -/
inductive Func
  | solve
  | analysis
  | handleRecvfileFail
  | sendFileCallback
  | recvFileCallback
  | sendDataCallback
  | recvDataCallback
  | recvUdpDataCallback
  deriving Repr, DecidableEq

/-- The messages that the functions make: what the peer has sent, and the notices. -/
inductive Makes : Func → ControlMsg → Prop
  | solve (msg : ControlMsg) : Makes .solve msg
  | analysis (msg : ControlMsg) : Makes .analysis msg
  | handleRecvfileFail (fileName : List UInt8) :
      Makes .handleRecvfileFail (RecvFile.makeNoticeMsg RECVFILEFAIL fileName)
  | sendFileCallback (fileName : List UInt8) :
      Makes .sendFileCallback (RecvFile.makeNoticeMsg SENDFILESUCC fileName)
  | recvFileFail (fileName : List UInt8) :
      Makes .recvFileCallback (RecvFile.makeNoticeMsg RECVFILEFAIL fileName)
  | recvFileSucc (fileName : List UInt8) :
      Makes .recvFileCallback (RecvFile.makeNoticeMsg RECVFILESUCC fileName)
  | sendDataCallback (dataId : List UInt8) :
      Makes .sendDataCallback (RecvData.makeDataNoticeMsg SENDDATASUCC dataId)
  | recvRdmaDataFail (dataId : List UInt8) :
      Makes .recvDataCallback (RecvData.makeDataNoticeMsg RECVRDMADATAFAIL dataId)
  | recvDataFail (dataId : List UInt8) :
      Makes .recvDataCallback (RecvData.makeDataNoticeMsg RECVDATAFAIL dataId)
  | recvDataSucc (dataId : List UInt8) :
      Makes .recvDataCallback (RecvData.makeDataNoticeMsg RECVDATASUCC dataId)
  | recvUdpDataFail (dataId : List UInt8) :
      Makes .recvUdpDataCallback (RecvData.makeDataNoticeMsg RECVUDPDATAFAIL dataId)
  | recvUdpDataSucc (dataId : List UInt8) :
      Makes .recvUdpDataCallback (RecvData.makeDataNoticeMsg RECVDATASUCC dataId)

/-- The functions that delete their message when `analysisProtobuf` has returned. -/
def Func.deletes : Func → Bool
  | .sendFileCallback | .recvFileCallback | .sendDataCallback | .recvUdpDataCallback => true
  | .solve | .analysis | .handleRecvfileFail | .recvDataCallback => false

/-- A call that has begun. -/
inductive Call
  /-- A function has called `analysisProtobuf` with its message. -/
  | notice (func : Func) (msg : MsgPtr)
  /-- An agreement works on what it has found under a key. -/
  | agree (key : List UInt8)
  deriving Repr, DecidableEq

end Stored

open Stored in
/-- A client with the messages that were made for it, those that were deleted, and the calls that
have begun, the last one first. -/
structure Stored where
  noticeCallback_ : Option Nat
  mp_ : List UInt8 → Option MsgPtr := fun _ => none
  msgs : List ControlMsg := []
  deleted : List MsgPtr := []
  calls : List Call := []

namespace Stored

/-- `DTPClient::analysisProtobuf` of a new message, up to the return of `noticeCallback_`. A
`RECVDATAONUDP` is not remembered either. -/
def analysisProtobuf (func : Func) (msg : ControlMsg) (s : Stored) :
    Traced (Access MsgPtr) Stored := do
  let ptr := s.msgs.length
  .tell [.use ptr]
  let s := { s with msgs := s.msgs ++ [msg], calls := .notice func ptr :: s.calls }
  match s.noticeCallback_ with
  | none => return s
  | some _ =>
    match DTPClient.keyOf msg with
    | none => return s
    | some key => return { s with mp_ := Function.update s.mp_ key ((s.mp_ key).or (some ptr)) }

/-- An agreement, up to the `erase`. -/
def agree (key : List UInt8) (s : Stored) : Traced (Access MsgPtr) Stored :=
  match s.mp_ key with
  | none => pure s
  | some ptr => do
    .tell [.use ptr]
    return { s with calls := .agree key :: s.calls }

/-- `DTPClient::agreeRecvFile`. -/
def agreeRecvFile (fileName : List UInt8) : Stored → Traced (Access MsgPtr) Stored :=
  agree fileName

/-- `DTPClient::agreeRecvData`. -/
def agreeRecvData (dataId : List UInt8) : Stored → Traced (Access MsgPtr) Stored :=
  agree dataId

/-- The call that has begun last returns. -/
def returns (s : Stored) : Traced (Access MsgPtr) Stored :=
  match s.calls with
  | [] => pure s
  | .notice func ptr :: calls =>
    if func.deletes then do
      .tell [.delete ptr]
      return { s with deleted := ptr :: s.deleted, calls := calls }
    else return { s with calls := calls }
  | .agree key :: calls =>
    pure { s with mp_ := Function.update s.mp_ key none, calls := calls }

/-- A step. -/
inductive Op
  | analysisProtobuf (func : Func) (msg : ControlMsg)
  | agreeRecvFile (fileName : List UInt8)
  | agreeRecvData (dataId : List UInt8)
  | returns
  deriving Repr, DecidableEq

/-- One step. -/
def step (s : Stored) : Op → Traced (Access MsgPtr) Stored
  | .analysisProtobuf func msg => s.analysisProtobuf func msg
  | .agreeRecvFile fileName => s.agreeRecvFile fileName
  | .agreeRecvData dataId => s.agreeRecvData dataId
  | .returns => s.returns

/-- The steps that can be taken. -/
def Possible (s : Stored) : Op → Prop
  | .analysisProtobuf func msg => Makes func msg
  | .agreeRecvFile _ | .agreeRecvData _ => True
  | .returns => s.calls ≠ []

end Stored

end Ndsl.Net.Dtp
