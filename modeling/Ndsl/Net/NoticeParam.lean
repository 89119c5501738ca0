import Ndsl.Net.DtpClient

/-!
# `Ndsl.Net.NoticeParam`: the parameter of a notice and the variable it points to

`DTPClient.cc`: `analysisProtobuf` lets `noticeParam_` point to a variable `length`, which is local
to a block of the function. `Ndsl.Net.DtpClient` gives the value that the pointer leads to; here the
variable comes and goes as the block does.

A variable goes by the number of those that were declared before it.
-/

set_option autoImplicit false

namespace Ndsl.Net.Dtp

open Ndsl.Lib

/-- What `noticeParam_` holds: what the user gave, or the address of a variable `length`, with the
value that the variable has or had. -/
inductive Param
  | user (p : Nat)
  | length (var : Nat) (value : Int)
  deriving Repr, DecidableEq

/-- A `DTPClient` with the variables of its calls. -/
structure Scoped where
  mp_ : List UInt8 → Option ControlMsg := fun _ => none
  noticeCallback_ : Option Nat
  noticeParam_ : Param
  udpDataMp_ : List UInt8 → Option Nat := fun _ => none
  /-- How many variables were declared. -/
  declared : Nat := 0

namespace Scoped

/-- What happens in the calls of a client. -/
inductive Event
  /-- The variable begins to live. -/
  | declare (var : Nat) (value : Int)
  /-- The block of the variable ends. -/
  | leave (var : Nat)
  /-- The copy of a name writes behind its block. -/
  | overrun
  /-- `noticeCallback_(flag, name, param)` for a message. -/
  | notice (msg : ControlMsg) (name : Option (List UInt8)) (param : Param)
  /-- `DTP::sendDataOnUdp(addr, info)`. -/
  | sendDataOnUdp (ip : List UInt8) (port : Int) (info : Nat)
  deriving Repr, DecidableEq

/-- The part of `analysisProtobuf` behind the two special flags. -/
def notify (msg : ControlMsg) (s : Scoped) : Traced Event Scoped :=
  match s.noticeCallback_ with
  | none => pure s
  | some _ =>
    match DTPClient.keyOf msg with
    | none => do
      .tell [.notice msg none s.noticeParam_]
      return s
    | some key => do
      .tell (Dtp.overrun .overrun FILEPATHSIZE (cstring key))
      .tell [.notice msg (some (cstring key)) s.noticeParam_]
      return { s with mp_ := Function.update s.mp_ key ((s.mp_ key).or (some msg)) }

/-- `DTPClient::analysisProtobuf`. -/
def analysisProtobuf (msg : ControlMsg) (s : Scoped) : Traced Event Scoped :=
  if msg.flag = SENDDATAFLAG then do
    .tell [.declare s.declared msg.length]
    let noticeParam_ := .length s.declared msg.length
    -- the variable belongs to this branch, and not to the function
    .tell [.leave s.declared]
    notify msg { s with noticeParam_ := noticeParam_, declared := s.declared + 1 }
  else if msg.flag = RECVDATAONUDP then
    match s.udpDataMp_ msg.dataId with
    | none => .fault
    | some info => do
      .tell [.sendDataOnUdp msg.ip msg.dataPort info]
      return s
  else notify msg s

/-- A step: a control message or a notice is processed; the user agrees to what is remembered under
a name; the user sends a data block over UDP. -/
inductive Op
  | message (msg : ControlMsg)
  | agree (key : List UInt8)
  | sendDataOnUdp (dataId : List UInt8) (info : Nat)
  deriving Repr, DecidableEq

/-- One step. -/
def step (s : Scoped) : Op → Traced Event Scoped
  | .message msg => s.analysisProtobuf msg
  | .agree key => pure { s with mp_ := Function.update s.mp_ key none }
  | .sendDataOnUdp dataId info =>
    pure { s with
      udpDataMp_ := Function.update s.udpDataMp_ dataId ((s.udpDataMp_ dataId).or (some info)) }

/-- `DTPClient::DTPClient`. -/
def new (noticecb : Option Nat) (noticeParam : Nat) : Scoped :=
  { noticeCallback_ := noticecb, noticeParam_ := .user noticeParam }

end Scoped

end Ndsl.Net.Dtp
