import Ndsl.Net.Multiplexer
import Ndsl.Proofs.Dtp.FileName

/-!
# `Ndsl.Proofs.Dtp.NoZero`: control messages as strings

The receiver measures a payload with `strlen` and reads it as a C string, although it is not text.
Here is why that works: the strings in a message come from C strings, and everything else that is
written of a message has no zero byte in it. `strlen` is right as soon as the payload is complete.
-/

set_option autoImplicit false

namespace Ndsl.Proofs.NoZero

open Ndsl.Lib
open Ndsl.Net Ndsl.Net.Dtp
open Ndsl.Net.Sending (Event Sender)

/-! ### Statements -/

/-- The messages that the functions of `DTP` build. -/
inductive Built : ControlMsg → Prop
  | makeNoticeMsg (type : Int) (fileName : List UInt8) :
      Built (RecvFile.makeNoticeMsg type fileName)
  | makeControlMsg (type id : Int) (ip : List UInt8) (dataport : Int)
      (md5 filePath fileName : List UInt8) (length : Int)
      (h : getFileName filePath = some fileName) :
      Built (Dtp.makeControlMsg type id ip dataport md5 fileName length)
  | makeDataNoticeMsg (type : Int) (dataId : List UInt8) :
      Built (RecvData.makeDataNoticeMsg type dataId)
  | makeDataControlMsg (type id : Int) (ip : Option (List UInt8)) (dataport : Int) (crc : Nat)
      (length : Int) (dataId : List UInt8) :
      Built (Dtp.makeDataControlMsg type id ip dataport crc length dataId)
  | makeUdpControlMsg (type id : Int) (crc : Nat) (length : Int) (dataId : List UInt8) :
      Built (Dtp.makeUdpControlMsg type id crc length dataId)
  /-- The message that `recvFile` sends. -/
  | recvFile (conn : Registry.Conn) (peerId : Int) (filename : List UInt8)
      (client : Registry.Client) (s : Sender) (msg : ControlMsg) (dest : Registry.Conn) (id : Int)
      (h : .sendMessage dest id msg ∈ (Sending.DTP.recvFile conn peerId filename client s).log) :
      Built msg

/-- The fields that hold bytes are strings. -/
structure Strings (msg : ControlMsg) : Prop where
  ip : 0 ∉ msg.ip
  checkSum : 0 ∉ msg.checkSum
  fileName : 0 ∉ msg.fileName
  dataId : 0 ∉ msg.dataId

/-! ### The messages -/

theorem Built.strings {msg : ControlMsg} (h : Built msg) : Strings msg := by
  have hnil : (0 : UInt8) ∉ ([] : List UInt8) := List.not_mem_nil
  cases h with
  | makeNoticeMsg type fileName =>
      exact { ip := hnil, checkSum := hnil, fileName := zero_not_mem_cstring _, dataId := hnil }
  | makeControlMsg type id ip dataport md5 filePath fileName length h =>
      exact { ip := zero_not_mem_cstring _, checkSum := zero_not_mem_cstring _,
              fileName := FileName.zero_not_mem_getFileName h, dataId := hnil }
  | makeDataNoticeMsg type dataId =>
      exact { ip := hnil, checkSum := hnil, fileName := hnil, dataId := zero_not_mem_cstring _ }
  | makeDataControlMsg type id ip dataport crc length dataId =>
      exact { ip := zero_not_mem_cstring _, checkSum := hnil, fileName := hnil,
              dataId := zero_not_mem_cstring _ }
  | makeUdpControlMsg type id crc length dataId =>
      exact { ip := hnil, checkSum := hnil, fileName := hnil, dataId := zero_not_mem_cstring _ }
  | recvFile conn peerId filename client s msg dest id h =>
      -- the only message of the trace
      have hmsg : msg = { flag := RECVFILEFLAG, id := peerId, fileName := cstring filename } := by
        have hlog : (Sending.DTP.recvFile conn peerId filename client s).log =
            [.newSession client, .runAfter, .sendMessage conn 0
              { flag := RECVFILEFLAG, id := peerId, fileName := cstring filename }] := rfl
        rw [hlog] at h
        have hevent : dest = conn ∧ id = 0 ∧
            msg = { flag := RECVFILEFLAG, id := peerId, fileName := cstring filename } := by
          simpa using h
        exact hevent.2.2
      rw [hmsg]
      exact { ip := hnil, checkSum := hnil, fileName := zero_not_mem_cstring _, dataId := hnil }

/-- A message whose strings have no zero byte is written without one. -/
theorem Strings.zero_not_mem_serialize {msg : ControlMsg} (h : Strings msg) :
    0 ∉ msg.serialize := by
  simp only [ControlMsg.serialize, List.mem_append, not_or]
  exact ⟨Wire.zero_not_mem_number (by decide) _, Wire.zero_not_mem_number (by decide) _,
    Wire.zero_not_mem_bytes (by decide) h.ip, Wire.zero_not_mem_number (by decide) _,
    Wire.zero_not_mem_bytes (by decide) h.checkSum, Wire.zero_not_mem_bytes (by decide) h.fileName,
    Wire.zero_not_mem_number (by decide) _, Wire.zero_not_mem_bytes (by decide) h.dataId,
    Wire.zero_not_mem_number (by decide) _⟩

/-! ### The receiver -/

/-- `strlen` of a complete payload with a zero behind it. -/
theorem strlen_payload {env : Multiplexer.Env} {payload : List UInt8} (hzero : 0 ∉ payload)
    (hslack : env.slack payload.length = true) :
    Multiplexer.strlen env payload =
      ⟨[.readString payload.length payload.length], some payload.length⟩ := by
  have hfound : ¬ (payload.length = payload.length ∧ env.slack payload.length = false) := by
    intro h
    exact Bool.false_ne_true (h.2.symm.trans hslack)
  rw [Multiplexer.strlen, cstrlen_of_not_mem hzero, if_neg hfound]
  rfl

/-- `solve` finds the payload. -/
theorem solve_payload {env : Multiplexer.Env} {payload : List UInt8} (hzero : 0 ∉ payload)
    (hslack : env.slack payload.length = true) :
    Multiplexer.solve env (some payload) =
      ⟨[.readString payload.length payload.length, .solve payload], some ()⟩ := by
  rw [Multiplexer.solve, strlen_payload hzero hslack]
  show (⟨[.readString payload.length payload.length, .solve (payload.take payload.length)],
    some ()⟩ : Traced Multiplexer.Act Unit) = _
  rw [List.take_length]

/-! ### The result -/

/-- A message that `DTP` builds is written without a zero byte. So with a zero behind it the
receiver measures and reads the payload as it was sent. -/
theorem no_zero_byte {msg : ControlMsg} (h : Built msg) :
    0 ∉ msg.serialize ∧
      cstrlen (msg.serialize ++ [0]) = msg.serialize.length ∧
      cstring (msg.serialize ++ [0]) = msg.serialize ∧
      ∀ env : Multiplexer.Env, env.slack msg.serialize.length = true →
        (Multiplexer.strlen env msg.serialize).value = some msg.serialize.length ∧
        .solve msg.serialize ∈ (Multiplexer.solve env (some msg.serialize)).log := by
  have hzero := h.strings.zero_not_mem_serialize
  refine ⟨hzero, ?_, ?_, ?_⟩
  · rw [cstrlen_append hzero, cstrlen_zero_cons, Nat.add_zero]
  · rw [cstring_append hzero, cstring, cstrlen_zero_cons, List.take_zero, List.append_nil]
  · intro env hslack
    rw [strlen_payload hzero hslack, solve_payload hzero hslack]
    exact ⟨rfl, by simp⟩

/-- A notice with a negative flag, whose file name is `f`. -/
theorem no_zero_byte_notice :
    0 ∉ (RecvFile.makeNoticeMsg (-1) [0x66, 0x00, 0x67]).serialize ∧
      cstrlen ((RecvFile.makeNoticeMsg (-1) [0x66, 0x00, 0x67]).serialize ++ [0]) =
        (RecvFile.makeNoticeMsg (-1) [0x66, 0x00, 0x67]).serialize.length ∧
      cstring ((RecvFile.makeNoticeMsg (-1) [0x66, 0x00, 0x67]).serialize ++ [0]) =
        (RecvFile.makeNoticeMsg (-1) [0x66, 0x00, 0x67]).serialize := by
  obtain ⟨hzero, hlength, hstring, -⟩ := no_zero_byte (.makeNoticeMsg (-1) [0x66, 0x00, 0x67])
  exact ⟨hzero, hlength, hstring⟩

end Ndsl.Proofs.NoZero
