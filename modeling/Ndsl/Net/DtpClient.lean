import Mathlib.Logic.Function.Basic
import Ndsl.Lib.Bytes
import Ndsl.Lib.Traced
import Ndsl.Net.Basic

/-!
# `Ndsl.Net.DtpClient`: control messages and agreements

`DTPClient.cc`: `analysisProtobuf` takes a control message that came in, or a notice that the
library makes for its own user, remembers it under its file name or its data id, and notifies
the user. `agreeRecvFile` and `agreeRecvData` start a receive from the message remembered under
a name.

A control message is the record of `ControlMsg.proto`. Names are byte strings; what a C string
function sees of one ends at its first zero. A name that is too long for the block that it is copied
into is written on behind the block; the copy is told as `overrun`, and the functions go on with the
name that was copied.
-/

set_option autoImplicit false

namespace Ndsl.Net.Dtp

open Ndsl.Lib

/-- `FILEPATHSIZE`. -/
def FILEPATHSIZE : Nat := 64

section
variable {ε : Type} (event : ε) (size : Nat) (text : List UInt8)

/-- What is told of the copy of a text into a block of `size` bytes: `event`, when the text with its
zero does not fit. -/
def overrun : List ε := if size ≤ text.length then [event] else []

variable {event size text}

theorem overrun_of_lt (h : text.length < size) : overrun event size text = [] :=
  if_neg (Nat.not_le_of_lt h)

theorem eq_of_mem_overrun {e : ε} (h : e ∈ overrun event size text) : e = event := by
  unfold overrun at h
  split at h
  · exact List.mem_singleton.mp h
  · exact absurd h List.not_mem_nil

/-- Nothing is told exactly of a text that fits. -/
theorem not_mem_overrun_iff (event : ε) :
    event ∉ overrun event size text ↔ text.length < size := by
  unfold overrun
  split
  · next hle =>
      exact ⟨fun h => absurd (List.mem_singleton_self _) h, fun h => absurd hle (by omega)⟩
  · next hlt => exact ⟨fun _ => Nat.lt_of_not_le hlt, fun _ => List.not_mem_nil⟩

end

def SENDFILEFLAG : Int := 0
def RECVFILEFLAG : Int := 1
def SENDDATAFLAG : Int := 2
def SENDFILESUCC : Int := 4
def RECVFILESUCC : Int := 6
def RECVFILEFAIL : Int := 7
def SENDDATASUCC : Int := 8
def RECVDATASUCC : Int := 10
def RECVDATAFAIL : Int := 11
def OPPENDRECVSUCC : Int := 12
def OPPENDRECVFAIL : Int := 13
def SENDDATAONRDMA : Int := 15
def SENDDATAONUDP : Int := 16
def RECVRDMADATAFAIL : Int := 17
def RECVUDPDATAFAIL : Int := 18
def RECVDATAONUDP : Int := 20

/-- `mnet::ControlMsg`. -/
structure ControlMsg where
  flag : Int
  id : Int := 0
  ip : List UInt8 := []
  dataPort : Int := 0
  checkSum : List UInt8 := []
  fileName : List UInt8 := []
  length : Int := 0
  dataId : List UInt8 := []
  crcCheckSum : Nat := 0
  deriving Repr, DecidableEq

/-- What `noticeParam_` points to: what the user gave, or the local variable of a call of
`analysisProtobuf` that held this length. -/
inductive NoticeParam
  | user (p : Nat)
  | length (n : Int)
  deriving Repr, DecidableEq

/-- What a client does. -/
inductive Act
  /-- The copy of a name writes behind its block. -/
  | overrun
  /-- `noticeCallback_(flag, name, param)`. -/
  | notice (flag : Int) (name : Option (List UInt8)) (param : NoticeParam)
  /-- `dataCallback_(flag, buf, param)`, with the bytes at `buf`. -/
  | data (flag : Int) (buf : List UInt8) (param : Nat)
  /-- `DTP::sendDataOnUdp(addr, info)`. -/
  | sendDataOnUdp (ip : List UInt8) (port : Int) (info : Nat)
  /-- `DTP::agreeRecvFile(msg)`. -/
  | recvFile (msg : ControlMsg)
  /-- `DTP::agreeRecvData(msg)`. -/
  | recvData (msg : ControlMsg)
  /-- `DTP::agreeRecvUdpData(msg)`. -/
  | recvUdpData (msg : ControlMsg)
  deriving Repr, DecidableEq

/-- A `DTPClient`, with the `udpDataMp_` of its `DTP`. A `NULL` callback is `none`. -/
structure DTPClient where
  mp_ : List UInt8 → Option ControlMsg := fun _ => none
  noticeCallback_ : Option Nat
  dataCallback_ : Option Nat := none
  noticeParam_ : NoticeParam := .user 0
  dataParam_ : Nat := 0
  udpDataMp_ : List UInt8 → Option Nat := fun _ => none

namespace DTPClient

/-- `mp_.insert(key, msg)`: an entry that is there already stays. -/
def insert (key : List UInt8) (msg : ControlMsg) (client : DTPClient) : DTPClient :=
  { client with mp_ := Function.update client.mp_ key ((client.mp_ key).or (some msg)) }

/-- `mp_.erase(key)`. -/
def erase (key : List UInt8) (client : DTPClient) : DTPClient :=
  { client with mp_ := Function.update client.mp_ key none }

/-- `strcpy` of a name into a block of `FILEPATHSIZE` bytes. -/
def copyName (name : List UInt8) : Traced Act (List UInt8) := do
  .tell (overrun .overrun FILEPATHSIZE (cstring name))
  return cstring name

/-- The flags of the messages that are remembered under their data id. -/
def underDataId (flag : Int) : Bool :=
  flag = SENDDATAFLAG ∨ flag = RECVDATASUCC ∨ flag = RECVDATAFAIL ∨ flag = OPPENDRECVSUCC ∨
    flag = OPPENDRECVFAIL ∨ flag = SENDDATAONUDP

/-- The name a message is remembered under. -/
def keyOf (msg : ControlMsg) : Option (List UInt8) :=
  if msg.flag = SENDFILEFLAG then some msg.fileName
  else if underDataId msg.flag then some msg.dataId
  else none

/-- The part of `analysisProtobuf` behind the two special flags. -/
def notify (msg : ControlMsg) (client : DTPClient) : Traced Act DTPClient :=
  match client.noticeCallback_ with
  | none => pure client
  | some _ =>
    match keyOf msg with
    | none => do
      .tell [.notice msg.flag none client.noticeParam_]
      return client
    | some key => do
      let filename ← copyName key
      .tell [.notice msg.flag (some filename) client.noticeParam_]
      return client.insert key msg

/-- `DTPClient::analysisProtobuf`. A `SENDDATAFLAG` makes `noticeParam_` point to a local
variable, and it stays so. -/
def analysisProtobuf (msg : ControlMsg) (client : DTPClient) : Traced Act DTPClient :=
  if msg.flag = SENDDATAFLAG then
    notify msg { client with noticeParam_ := .length msg.length }
  else if msg.flag = RECVDATAONUDP then
    match client.udpDataMp_ msg.dataId with
    | none => .fault
    | some info => do
      .tell [.sendDataOnUdp msg.ip msg.dataPort info]
      return client
  else notify msg client

/-- The user can be told of a message inside of the blocks: its name, if it has one, fits. -/
def Tellable (msg : ControlMsg) (client : DTPClient) : Prop :=
  client.noticeCallback_ ≠ none → ∀ key, keyOf msg = some key → (cstring key).length < FILEPATHSIZE

/-- Notices take neither of the two special ways. -/
theorem analysisProtobuf_of_ne {msg : ControlMsg} (client : DTPClient)
    (hdata : msg.flag ≠ SENDDATAFLAG) (hudp : msg.flag ≠ RECVDATAONUDP) :
    client.analysisProtobuf msg = notify msg client := by
  rw [analysisProtobuf, if_neg hdata, if_neg hudp]

/-- What the user is told of a message: a notice, behind the copy of the name. -/
theorem notify_of_yields {msg : ControlMsg} {client client' : DTPClient} {es : List Act}
    (h : (notify msg client).Yields es client') :
    (.overrun ∉ es ↔ Tellable msg client) ∧ (client.noticeCallback_ = none ∧ es = [] ∨
      client.noticeCallback_ ≠ none ∧ ∃ size text name,
        es = overrun .overrun size text ++ [.notice msg.flag name client.noticeParam_]) := by
  unfold notify at h
  split at h
  case h_1 hnone =>
    obtain ⟨rfl, -⟩ := (Traced.pure_yields ..).mp h
    exact ⟨⟨fun _ hcb => absurd hnone hcb, fun _ => List.not_mem_nil⟩, .inl ⟨hnone, rfl⟩⟩
  case h_2 cb hcb =>
    have hset : client.noticeCallback_ ≠ none := hcb ▸ Option.some_ne_none cb
    split at h
    case h_1 hkey =>
      obtain ⟨rfl, -⟩ := (Traced.tell_pure_yields ..).mp h
      refine ⟨⟨fun _ _ key heq => ?_, fun _ => by simp⟩, .inr ⟨hset, 1, [], none, rfl⟩⟩
      exact absurd (hkey.symm.trans heq).symm (Option.some_ne_none _)
    case h_2 key hkey =>
      rw [copyName, Traced.bind_assoc, Traced.tell_bind_yields] at h
      obtain ⟨fs, hrest, rfl⟩ := h
      rw [Traced.pure_bind, Traced.tell_pure_yields] at hrest
      obtain ⟨rfl, -⟩ := hrest
      refine ⟨?_, .inr ⟨hset, _, _, _, rfl⟩⟩
      have hquiet : .overrun ∉ [Act.notice msg.flag (some (cstring key)) client.noticeParam_] := by
        simp
      rw [List.mem_append, not_or, and_iff_left hquiet, not_mem_overrun_iff]
      constructor
      · intro hshort _ key' heq
        obtain rfl := Option.some.inj (hkey.symm.trans heq)
        exact hshort
      · exact fun h => h hset key hkey

/-- `notify` returns. -/
theorem exists_notify (msg : ControlMsg) (client : DTPClient) :
    ∃ es client', (notify msg client).Yields es client' := by
  unfold notify
  split
  · exact ⟨_, _, rfl, rfl⟩
  · split
    · exact ⟨_, _, rfl, rfl⟩
    · exact ⟨_, _, rfl, rfl⟩

/-- `DTPClient::agreeRecvFile`. -/
def agreeRecvFile (fileName : List UInt8) (client : DTPClient) : Traced Act DTPClient :=
  match client.mp_ fileName with
  | none => pure client
  | some msg => do
    .tell [.recvFile msg]
    return client.erase fileName

/-- `DTPClient::agreeRecvData`, with `Multiplexer::agreeRecvData`. -/
def agreeRecvData (dataId : List UInt8) (client : DTPClient) : Traced Act DTPClient :=
  match client.mp_ dataId with
  | none => pure client
  | some msg => do
    .tell [if msg.flag = SENDDATAONUDP then .recvUdpData msg else .recvData msg]
    return client.erase dataId

end DTPClient

end Ndsl.Net.Dtp
