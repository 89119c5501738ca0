import Ndsl.Lib.WireReader
import Ndsl.Net.Offers

/-!
# `Ndsl.Proofs.Dtp.Parse`: a control message comes back from its bytes

`Parses` is what the code relies on of `ParseFromString`: it gives the message that
`SerializeToString` has written. The one condition is on the three fields that `ControlMsg.proto`
declares as text. The program puts any bytes into them, and a `string` field is documented to hold
UTF-8 only.

`parses_readMsg`: a reader of the wire format does so (`Ndsl.Lib.WireReader`), whatever the fields
hold, and so also when fields are left out for their default values.
-/

set_option autoImplicit false

namespace Ndsl.Proofs.Parse

open Ndsl.Lib
open Ndsl.Net.Dtp

/-- The fields hold values of their types, and sizes are `int`s. -/
structure InRange (msg : ControlMsg) : Prop where
  flag : Wire.IsInt32 msg.flag
  id : Wire.IsInt32 msg.id
  ip : msg.ip.length < 2 ^ 31
  dataPort : Wire.IsInt32 msg.dataPort
  checkSum : msg.checkSum.length < 2 ^ 31
  fileName : msg.fileName.length < 2 ^ 31
  length : Wire.IsInt32 msg.length
  dataId : msg.dataId.length < 2 ^ 31
  crcCheckSum : msg.crcCheckSum < 2 ^ 32

/-- The fields that are declared as text hold text. -/
structure Text (msg : ControlMsg) : Prop where
  ip : Wire.utf8 msg.ip = true
  checkSum : Wire.utf8 msg.checkSum = true
  fileName : Wire.utf8 msg.fileName = true

instance (msg : ControlMsg) : Decidable (Text msg) :=
  decidable_of_iff (Wire.utf8 msg.ip = true ∧ Wire.utf8 msg.checkSum = true ∧
    Wire.utf8 msg.fileName = true)
    ⟨fun h => ⟨h.1, h.2.1, h.2.2⟩, fun h => ⟨h.ip, h.checkSum, h.fileName⟩⟩

/-- Behind `ParseFromString` a message holds what was serialised. -/
structure Parses (parse : List UInt8 → ControlMsg) : Prop where
  parse_serialize : ∀ msg, InRange msg → Text msg → parse msg.serialize = msg

/-! ### A reader of control messages -/

/-- What the fields are, by `ControlMsg.proto`. -/
def mergeField : Wire.Reader ControlMsg := fun tag bs msg =>
  match tag with
  | 8 => Wire.readAs Wire.readInt32 (fun msg value => { msg with flag := value }) bs msg
  | 16 => Wire.readAs Wire.readInt32 (fun msg value => { msg with id := value }) bs msg
  | 26 => Wire.readAs Wire.readString (fun msg value => { msg with ip := value }) bs msg
  | 32 => Wire.readAs Wire.readInt32 (fun msg value => { msg with dataPort := value }) bs msg
  | 42 => Wire.readAs Wire.readString (fun msg value => { msg with checkSum := value }) bs msg
  | 50 => Wire.readAs Wire.readString (fun msg value => { msg with fileName := value }) bs msg
  | 56 => Wire.readAs Wire.readInt32 (fun msg value => { msg with length := value }) bs msg
  | 66 => Wire.readAs Wire.readBytes (fun msg value => { msg with dataId := value }) bs msg
  | 72 => Wire.readAs Wire.readVarint32 (fun msg value => { msg with crcCheckSum := value }) bs msg
  | _ => Wire.readUnknown tag bs msg

/-- The message in these bytes, if there is one. -/
def readMsg? (bs : List UInt8) : Option ControlMsg := Wire.readFields mergeField bs { flag := 0 }

/-- The same, and otherwise a message without its fields. -/
def readMsg (bs : List UInt8) : ControlMsg := (readMsg? bs).getD { flag := 0 }

section
variable {msg : ControlMsg}

/-- The fields behind the file name. -/
theorem reads_behind_fileName (h : InRange msg) :
    Wire.Reads mergeField
      (Wire.int32 7 msg.length ++ (Wire.bytes 8 msg.dataId ++ Wire.uint32 9 msg.crcCheckSum))
      { msg with length := 0, dataId := [], crcCheckSum := 0 } (some msg) := by
  refine .int32 (by decide) (fun _ => by rw [mergeField]) h.length ?_ ?_
  · rfl
  refine .bytes (by decide) (fun _ => by rw [mergeField]) h.dataId ?_ ?_
  · rfl
  rw [← List.append_nil (Wire.uint32 9 msg.crcCheckSum)]
  refine .uint32 (by decide) (fun _ => by rw [mergeField]) h.crcCheckSum ?_ ?_
  · rfl
  exact .nil _

/-- The fields of a message, which are written in the order of their numbers. -/
theorem reads_serialize (h : InRange msg) :
    Wire.Reads mergeField msg.serialize { flag := 0 }
      (if Text msg then some msg else none) := by
  have hnot {value : Bool} (hvalue : value = false) (hfield : Text msg → value = true) :
      (if Text msg then some msg else none) = none :=
    if_neg fun htext => Bool.false_ne_true (hvalue.symm.trans (hfield htext))
  refine .int32 (by decide) (fun _ => by rw [mergeField]) h.flag ?_ ?_
  · rfl
  refine .int32 (by decide) (fun _ => by rw [mergeField]) h.id ?_ ?_
  · rfl
  refine .string (by decide) (fun _ => by rw [mergeField]) h.ip ?_
    (fun hip => hnot hip Text.ip) fun hip => ?_
  · rfl
  refine .int32 (by decide) (fun _ => by rw [mergeField]) h.dataPort ?_ ?_
  · rfl
  refine .string (by decide) (fun _ => by rw [mergeField]) h.checkSum ?_
    (fun hsum => hnot hsum Text.checkSum) fun hsum => ?_
  · rfl
  refine .string (by decide) (fun _ => by rw [mergeField]) h.fileName ?_
    (fun hname => hnot hname Text.fileName) fun hname => ?_
  · rfl
  rw [if_pos (⟨hip, hsum, hname⟩ : Text msg)]
  exact reads_behind_fileName h

/-- Of a message with another text nothing can be read. -/
theorem readMsg?_serialize (h : InRange msg) :
    readMsg? msg.serialize = if Text msg then some msg else none :=
  (reads_serialize h).readFields

end

theorem parses_readMsg : Parses readMsg := by
  refine ⟨fun msg hrange htext => ?_⟩
  rw [readMsg, readMsg?_serialize hrange, if_pos htext, Option.getD_some]

end Ndsl.Proofs.Parse
