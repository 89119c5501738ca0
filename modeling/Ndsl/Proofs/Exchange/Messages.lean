import Ndsl.Proofs.Dtp.Delivers
import Ndsl.Proofs.Dtp.Offers

/-!
# `Ndsl.Proofs.Exchange.Messages`: the messages of an exchange

What the exchanges have in common. The messages that offer a block, or say what has become of it,
are short, so that a connection can carry them (`sendable_makeDataControlMsg`). A client that hears
one of them tells its user the name that it comes with, and keeps it (`hears_named`).
-/

set_option autoImplicit false

namespace Ndsl.Proofs.Exchange

open Ndsl.Lib
open Ndsl.Lib.Wire (IsInt32)
open Ndsl.Net.Delivery (ClientEvent)
open Ndsl.Net.Dtp
open Ndsl.Proofs.Delivers (Hears Sendable)
open Ndsl.Proofs.NoZero (Strings)
open Ndsl.Proofs.Parse (InRange Text)

/-! ### Sizes -/

/-- The bytes that the strings of a message take. -/
def stringsLength (msg : ControlMsg) : Nat :=
  msg.ip.length + msg.checkSum.length + msg.fileName.length + msg.dataId.length

section
variable {msg : ControlMsg}

/-- Five numbers and four strings, with their tags and sizes. -/
theorem length_serialize_le (h : InRange msg) :
    msg.serialize.length ≤ 79 + stringsLength msg := by
  have hflag := Wire.length_int32_le (show 1 < 16 by decide) msg.flag
  have hid := Wire.length_int32_le (show 2 < 16 by decide) msg.id
  have hip := Wire.length_bytes_le (show 3 < 16 by decide) h.ip
  have hport := Wire.length_int32_le (show 4 < 16 by decide) msg.dataPort
  have hsum := Wire.length_bytes_le (show 5 < 16 by decide) h.checkSum
  have hname := Wire.length_bytes_le (show 6 < 16 by decide) h.fileName
  have hlength := Wire.length_int32_le (show 7 < 16 by decide) msg.length
  have hdataId := Wire.length_bytes_le (show 8 < 16 by decide) h.dataId
  have hcrc := Wire.length_uint32_le (show 9 < 16 by decide) msg.crcCheckSum
  simp only [ControlMsg.serialize, List.length_append, stringsLength]
  omega

/-- A message with short strings can be carried. -/
theorem sendable_of_short (hrange : InRange msg) (htext : Text msg) (hstrings : Strings msg)
    (hne : msg ≠ { flag := 0 }) (hshort : stringsLength msg < 2 ^ 30) : Sendable msg := by
  refine ⟨hrange, htext, hstrings, hne, ?_⟩
  have hlength := length_serialize_le hrange
  unfold Ndsl.Net.Multiplexer.msgSize
  omega

end

/-! ### Messages about a block -/

theorem utf8_nil : Wire.utf8 [] = true :=
  Wire.utf8_of_ascii fun _ hmem => absurd hmem List.not_mem_nil

/-- The string is an address, or there is none. -/
structure IsIp (ip : Option (List UInt8)) : Prop where
  text : Wire.utf8 (cstring (ip.getD [])) = true
  length : (cstring (ip.getD [])).length < 16

theorem isIp_none : IsIp none := ⟨utf8_nil, by decide⟩

/-- An address is written in digits and dots. -/
theorem isIp_of_ascii {ip : List UInt8} (hlength : ip.length < 16)
    (hascii : ∀ c ∈ ip, c.toNat < 128) :
    IsIp (some ip) := by
  have hle : (cstring ip).length ≤ ip.length := by
    rw [cstring, List.length_take]
    exact Nat.min_le_right _ _
  exact ⟨Wire.utf8_of_ascii fun c hc => hascii c (List.mem_of_mem_take hc),
    Nat.lt_of_le_of_lt hle hlength⟩

theorem isIp_RDMA_IP : IsIp (some RDMA_IP) :=
  isIp_of_ascii (by decide) (by simp [RDMA_IP])

/-- A message about a block whose id the user can be told can be carried. -/
theorem sendable_makeDataControlMsg {type id dataport length : Int} {ip : Option (List UInt8)}
    {crc : Nat} {dataId : List UInt8} (htype : IsInt32 type) (hne : type ≠ 0) (hid : IsInt32 id)
    (hip : IsIp ip) (hport : IsInt32 dataport) (hcrc : crc < 2 ^ 32) (hlength : IsInt32 length)
    (hdataId : (cstring dataId).length < FILEPATHSIZE) :
    Sendable (makeDataControlMsg type id ip dataport crc length dataId) := by
  have hipLength := hip.length
  unfold FILEPATHSIZE at hdataId
  refine sendable_of_short ?_ ⟨hip.text, utf8_nil, utf8_nil⟩
    (NoZero.Built.makeDataControlMsg ..).strings
    (fun hdefault => hne (congrArg ControlMsg.flag hdefault)) ?_
  · exact
      { flag := htype
        id := hid
        ip := Nat.lt_trans hipLength (by decide)
        dataPort := hport
        checkSum := Nat.two_pow_pos 31
        fileName := Nat.two_pow_pos 31
        length := hlength
        dataId := Nat.lt_trans hdataId (by decide)
        crcCheckSum := hcrc }
  · show (cstring (ip.getD [])).length + 0 + 0 + (cstring dataId).length < 2 ^ 30
    omega

/-- A message over UDP is one without an address. -/
theorem makeUdpControlMsg_eq (type id : Int) (crc : Nat) (length : Int) (dataId : List UInt8) :
    makeUdpControlMsg type id crc length dataId =
      makeDataControlMsg type id none 0 crc length dataId := rfl

/-- The answer to a notice can be carried. -/
theorem sendable_sendAck {type peerId : Int} {dataId : List UInt8} (htype : IsInt32 (ackType type))
    (hne : ackType type ≠ 0) (hid : IsInt32 peerId)
    (hdataId : (cstring dataId).length < FILEPATHSIZE) : Sendable (sendAck peerId type dataId) :=
  sendable_makeDataControlMsg htype hne hid isIp_none (by constructor <;> decide) (by decide)
    (by constructor <;> decide) hdataId

/-! ### Clients -/

section
variable {msg : ControlMsg} {client client' : DTPClient} {acts : List Act}

theorem hears_one (h : (client.analysisProtobuf msg).Yields acts client') :
    Hears [msg] client (.analysisProtobuf msg :: acts.map .act) client' := by
  rw [Hears, List.foldlM_cons]
  simp only [List.foldlM_nil, Traced.bind_pure]
  refine (Traced.tell_bind_yields ..).mpr ⟨acts.map .act, ?_, rfl⟩
  exact Traced.view_yields.mpr ⟨acts, client', h, List.map_eq_flatMap, rfl⟩

/-- What the callback is called with, next to the flag and the name. -/
def noticeParam (msg : ControlMsg) (client : DTPClient) : NoticeParam :=
  if msg.flag = SENDDATAFLAG then .length msg.length else client.noticeParam_

/-- The client, when it has told its user of a message that comes with this name. -/
def told (key : List UInt8) (msg : ControlMsg) (client : DTPClient) : DTPClient :=
  DTPClient.insert key msg { client with noticeParam_ := noticeParam msg client }

theorem told_mp_ {key : List UInt8} (hnew : client.mp_ key = none) :
    (told key msg client).mp_ key = some msg := by
  have hmp : (told key msg client).mp_ key = (client.mp_ key).or (some msg) :=
    (DtpClient.insert_mp key msg _).trans (if_pos rfl)
  rw [hmp, hnew]
  rfl

/-- The agreement to an offer that is kept under an id. -/
theorem agreeRecvData_yields {id : List UInt8} (h : client.mp_ id = some msg) :
    (client.agreeRecvData id).Yields
      [if msg.flag = SENDDATAONUDP then .recvUdpData msg else .recvData msg]
      (client.erase id) := by
  simp only [DTPClient.agreeRecvData, h]
  exact ⟨rfl, rfl⟩

/-- The user is told of a message and its name. -/
theorem hears_named {key : List UInt8} (hcb : client.noticeCallback_ ≠ none)
    (hflag : msg.flag ≠ RECVDATAONUDP) (hkey : DTPClient.keyOf msg = some key) (hzero : 0 ∉ key)
    (hshort : key.length < FILEPATHSIZE) :
    Hears [msg] client
      [.analysisProtobuf msg, .act (.notice msg.flag (some key) (noticeParam msg client))]
      (told key msg client) := by
  obtain ⟨cb, hcb⟩ := Option.ne_none_iff_exists'.mp hcb
  have hself := (cstring_eq_self_iff key).mpr hzero
  have hnotify : client.analysisProtobuf msg =
      DTPClient.notify msg { client with noticeParam_ := noticeParam msg client } := by
    rw [DTPClient.analysisProtobuf, if_neg hflag, noticeParam]
    split
    next => rfl
    next => rfl
  have hcb' : ({ client with noticeParam_ := noticeParam msg client } : DTPClient).noticeCallback_ =
      some cb := hcb
  have htold := (DtpClient.notify_named hcb' hkey).mpr ⟨rfl, rfl⟩
  rw [hself, overrun_of_lt hshort, List.nil_append, ← hnotify] at htold
  exact hears_one htold

/-- The user is told of a message that comes without a name, and nothing is kept. -/
theorem hears_unnamed (hcb : client.noticeCallback_ ≠ none) (hdata : msg.flag ≠ SENDDATAFLAG)
    (hudp : msg.flag ≠ RECVDATAONUDP) (hkey : DTPClient.keyOf msg = none) :
    Hears [msg] client [.analysisProtobuf msg, .act (.notice msg.flag none client.noticeParam_)]
      client := by
  obtain ⟨cb, hcb⟩ := Option.ne_none_iff_exists'.mp hcb
  have hnotice : (client.analysisProtobuf msg).Yields
      [.notice msg.flag none client.noticeParam_] client := by
    rw [DTPClient.analysisProtobuf_of_ne client hdata hudp]
    simp only [DTPClient.notify, hcb, hkey]
    exact ⟨rfl, rfl⟩
  exact hears_one hnotice

end

end Ndsl.Proofs.Exchange
