import Ndsl.Proofs.Exchange.Data
import Ndsl.Proofs.Sending.UdpAnswers
import Ndsl.Proofs.Udp.Session

/-!
# `Ndsl.Proofs.Exchange.Datagram`: a block goes from one user to another in a datagram

A block that is sent with `sendData` over UDP takes one message more: the receiver, when its user
has agreed, asks for the datagram, with the port that it waits at. `DTPClient::analysisProtobuf`
answers that without its user.

`exchangesOnUdp`: whenever the request comes, and the client still leads to its loop, the block is
given to `sendto`, once. The receiver's user is handed the block if that is what has arrived, and
nothing if it came shorter, or with the right length and differences within 16 bits. A block that is
larger than the receive buffer never arrives. When the receive has failed the sender's user is not
told for which block, unlike over TCP.
-/

set_option autoImplicit false

namespace Ndsl.Proofs.Exchange

open Ndsl.Lib
open Ndsl.Lib.Wire (IsInt32)
open Ndsl.Net
open Ndsl.Net.Dtp
open Ndsl.Net.Dtp.UdpSession (agreeRecvUdpData)
open Ndsl.Net.Registry (Client Conn)
open Ndsl.Net.Sending (DataCalls DataPtr Event Op Sender UdpInfo step)
open Ndsl.Net.Tcp (EAGAIN EWOULDBLOCK IoResult RecvResult)
open Ndsl.Proofs.Delivers (Hears Sendable)
open Ndsl.Proofs.Sending (Connected Reads)

/-! ### Statements -/

/-- A block that can be offered over UDP. -/
structure ReadyOnUdp (conn : Conn) (peerId : Int) (client : Client) (block : Nat) (length : Int)
    (id : List UInt8) (s : Sender) : Prop extends
    Offerable conn peerId client block length id s where
  /-- Nothing else was sent under the id. -/
  new : s.udpDataMp_ id = none

/-- The offer of a block over UDP. -/
def offerOnUdp (peerId length : Int) (id bytes : List UInt8) : ControlMsg :=
  makeUdpControlMsg SENDDATAONUDP peerId (getCRC16_CCITT bytes).toNat length id

/-- The answer to a request is one `sendto` of these bytes to the address of the request, with the
result `n`. -/
def Answered (client : Client) (n : IoResult) (request : ControlMsg) (bytes : List UInt8)
    (x : Traced Event Sender) : Prop :=
  ∃ sendBuf length s, x.Yields
    [.udpInfo, .client client, .sendto request.ip request.dataPort sendBuf length n] s ∧
      (s.read sendBuf (toSize length)).Yields [] bytes

/-- A call returns, and has sent one message. Whenever a peer asks for the datagram under the id,
and the client leads to its loop, the bytes are given to `sendto`. -/
def OffersOnUdp {κ : Type} (md5 : Md5 κ) (conn : Conn) (client : Client) (msg : ControlMsg)
    (bytes : List UInt8) (x : Traced Event Sender) : Prop :=
  ∃ es s, x.Yields es s ∧ messages es = [(conn, 0, msg)] ∧
    ∀ (ops : List Op) log t, (ops.foldlM (step md5) s).Yields log t → Connected t client →
      ∀ request uninit n, request.dataId = msg.dataId →
        Answered client n request bytes (Sending.analysisProtobuf uninit n request t)

/-- What the callback was called with. -/
def handedOver (log : List UdpSession.Event) : List (Int × List UInt8) :=
  log.filterMap fun
    | .dataCallback flag buf => some (flag, buf)
    | _ => none

/-- The flags of the notices. -/
def noticed (log : List UdpSession.Event) : List Int :=
  log.filterMap fun
    | .analysisProtobuf flag => some flag
    | _ => none

@[simp] theorem handedOver_append (es fs : List UdpSession.Event) :
    handedOver (es ++ fs) = handedOver es ++ handedOver fs := List.filterMap_append

@[simp] theorem noticed_append (es fs : List UdpSession.Event) :
    noticed (es ++ fs) = noticed es ++ noticed fs := List.filterMap_append

/-- A datagram that was not made longer, and has other differences than a shorter length within 16
bits only. -/
def NearOnUdp (bytes datagram : List UInt8) : Prop :=
  datagram.length < bytes.length ∨ Near bytes datagram

/-- The flag of the notice about a datagram. -/
def verdictOnUdp (bytes arrived : List UInt8) : Int :=
  if arrived = bytes then RECVDATASUCC else RECVUDPDATAFAIL

/-- A client is told of an offer with its id, and agrees to it with the id. It waits, and when the
datagram comes it hands over the bytes that were sent, and reports what has become of them. -/
def TakesOnUdp (msg : ControlMsg) (bytes arrived : List UInt8) (client : DTPClient)
    (wait : Traced UdpSession.Event UdpSession)
    (read : UdpSession → Traced UdpSession.Event UdpSession) : Prop :=
  ∃ client₁ client₂ es s log t,
    Hears [msg] client [.analysisProtobuf msg,
      .act (.notice SENDDATAONUDP (some msg.dataId) client.noticeParam_)] client₁ ∧
    (client₁.agreeRecvData msg.dataId).Yields [.recvUdpData msg] client₂ ∧
    wait.Yields es s ∧ handedOver es = [] ∧ noticed es = [] ∧
    (read s).Yields log t ∧
    handedOver log = (if arrived = bytes then [(RECVDATASUCC, bytes)] else []) ∧
    noticed log = [verdictOnUdp bytes arrived]

/-- The answer can be carried, and the client that hears it tells its user that a block was received
and which, or that one was not. -/
def AnswersOnUdp (msg : ControlMsg) (bytes arrived : List UInt8) (id : List UInt8)
    (client : DTPClient) : Prop :=
  Sendable msg ∧ ∃ client', Hears [msg] client [.analysisProtobuf msg,
    .act (if arrived = bytes then .notice OPPENDRECVSUCC (some id) client.noticeParam_
      else .notice RECVUDPDATAFAIL none client.noticeParam_)] client'

/-! ### The sender -/

section
variable {κ : Type} {md5 : Md5 κ} {s : Sender} {conn : Conn} {peerId : Int} {client : Client}
  {block : Nat} {length : Int} {id : List UInt8}

theorem sendDataOnUdp_yields (h : ReadyOnUdp conn peerId client block length id s)
    {dataId : Option (List UInt8)} {guid : List UInt8} (hid : cstring (dataId.getD guid) = id)
    (uninit : Client) (sys : DataCalls) :
    ∃ es s', (Sending.Multiplexer.sendData uninit guid sys conn peerId (some (.user block)) length
        dataId UDP s).Yields es s' ∧
      messages es = [(conn, 0, offerOnUdp peerId length id (content block length s))] ∧
      s'.udpDataMp_ id = some (Sending.udpInfo (some (.user block)) length client) ∧
      s'.blocks = s.blocks := by
  have hclient := Sending.findClient_of_lookup h.registered uninit
  have hcount : (length % 2 ^ 32).toNat = length.toNat := by
    have hpos := h.length_pos
    have hlt := h.length_lt
    omega
  have hcrc := Sending.crc_yields.mpr ⟨rfl, _, h.reads hcount rfl, rfl⟩
  have hself : cstring id = id := (cstring_eq_self_iff id).mpr h.string
  let info := Sending.udpInfo (some (.user block)) length client
  let s' : Sender := { s with
    udpDataMp_ := Function.update s.udpDataMp_ (cstring id)
      ((s.udpDataMp_ (cstring id)).or (some info)) }
  let es : List Event := [.newSession client,
    .sendMessage conn 0 (offerOnUdp peerId length id (content block length s))]
  have hsend : (Sending.DTP.sendDataOnUdp conn peerId (some (.user block)) length client id
      s).Yields es (S_OK, s') :=
    (Traced.tell_bind_yields ..).mpr ⟨_, Traced.bind_yields.mpr ⟨[], _, _, hcrc,
      (Traced.tell_pure_yields ..).mpr ⟨rfl, rfl⟩, rfl⟩, rfl⟩
  refine ⟨es, s', ?_, rfl, ?_, rfl⟩
  · have hudp : ¬ (UDP = TCP ∨ UDP = RDMA) := by decide
    unfold Sending.Multiplexer.sendData
    dsimp only
    rw [if_neg hudp, hid, hclient]
    exact Traced.bind_yields.mpr ⟨es, _, [], hsend, (Traced.pure_yields ..).mpr ⟨rfl, rfl⟩, rfl⟩
  · show Function.update s.udpDataMp_ (cstring id) _ id = _
    rw [hself, Function.update_self, h.new]
    rfl

/-- Whatever the sender has done since, also under the same id, it answers with the block. -/
theorem answered_run (h : ReadyOnUdp conn peerId client block length id s) {s' t : Sender}
    (hinfo : s'.udpDataMp_ id = some (Sending.udpInfo (some (.user block)) length client))
    (hblocks : s'.blocks = s.blocks) {ops : List Op} {log : List Event}
    (hrun : (ops.foldlM (step md5) s').Yields log t) (hconnected : Connected t client)
    {request : ControlMsg} (hrequest : request.dataId = id) (uninit : Option UdpInfo)
    (n : IoResult) :
    Answered client n request (content block length s)
      (Sending.analysisProtobuf uninit n request t) := by
  have hcount : toSize length = length.toNat := by
    have hpos := h.length_pos
    have hlt := h.length_lt
    unfold toSize
    omega
  refine ⟨some (.user block), length, t, ?_, ?_⟩
  · refine Sending.analysisProtobuf_yields.mpr
      ⟨rfl, Sending.udpInfo (some (.user block)) length client, ?_, hconnected, rfl⟩
    rw [hrequest, Sending.run_udpInfo hinfo hrun]
    rfl
  · exact Sending.read_yields.mpr
      ⟨rfl, h.reads hcount ((run_blocks hrun).trans hblocks)⟩

theorem offersOnUdp (h : ReadyOnUdp conn peerId client block length id s)
    {dataId : Option (List UInt8)} {guid : List UInt8} (hid : cstring (dataId.getD guid) = id)
    (uninit : Client) (sys : DataCalls) :
    OffersOnUdp md5 conn client (offerOnUdp peerId length id (content block length s))
      (content block length s)
      (Sending.Multiplexer.sendData uninit guid sys conn peerId (some (.user block)) length dataId
        UDP s) := by
  obtain ⟨es, s', hcall, hmessages, hinfo, hblocks⟩ := sendDataOnUdp_yields h hid uninit sys
  refine ⟨es, s', hcall, hmessages, fun ops log t hrun hconnected request uninit n hrequest => ?_⟩
  exact answered_run h hinfo hblocks hrun hconnected
    (hrequest.trans ((cstring_eq_self_iff id).mpr h.string)) uninit n

theorem sendable_offerOnUdp (h : Offerable conn peerId client block length id s)
    (bytes : List UInt8) : Sendable (offerOnUdp peerId length id bytes) := by
  have hcrc := (getCRC16_CCITT bytes).toNat_lt
  have hpos := h.length_pos
  have hlt := h.length_lt
  rw [offerOnUdp, makeUdpControlMsg_eq]
  refine sendable_makeDataControlMsg (by constructor <;> decide) (by decide) h.peerId isIp_none
    (by constructor <;> decide) (by omega) ?_ ?_
  · constructor <;> omega
  · rw [(cstring_eq_self_iff id).mpr h.string]
    exact h.id_lt

end

/-! ### The receiver -/

section
variable {s : UdpSession} {bytes arrived datagram : List UInt8}

/-- The check hands over the bytes that were sent, and nothing else. -/
theorem check_yields (hbuf : s.info.recvBuf_ = some 0) (hsize : s.info.dataSize_ = bytes.length)
    (hsum : s.info.checkSum_ = getCRC16_CCITT bytes) (hlt : bytes.length < 2 ^ 31)
    (hlen : s.bufLen = arrived.length) (hread : s.mem.read 0 arrived.length = arrived)
    (hnear : NearOnUdp bytes arrived) :
    ∃ es t, s.check.Yields es (verdictOnUdp bytes arrived, t) ∧ t.info.temp_ = s.info.temp_ ∧
      handedOver es = (if arrived = bytes then [(RECVDATASUCC, bytes)] else []) ∧
      noticed es = [] := by
  have hcount : toSize s.info.dataSize_ = bytes.length := by
    unfold toSize
    omega
  rcases hnear with hshort | hnear
  · -- a shorter datagram is not looked at
    have hne : ¬ s.bufLen = toSize s.info.dataSize_ := by omega
    have hverdict : ¬ arrived = bytes := fun heq => Nat.ne_of_lt hshort (congrArg _ heq)
    rw [verdictOnUdp, if_neg hverdict, if_neg hverdict]
    have hcheck : s.check.Yields [.access .recvUdpDataCallback (.delete .recvBuf),
        UdpSession.use .recvUdpDataCallback .info]
        (RECVUDPDATAFAIL, { s with info := { s.info with recvBuf_ := none } }) := by
      simp only [UdpSession.check, if_neg hne, UdpSession.deleteRecvBuf, hbuf]
      exact ⟨rfl, rfl⟩
    exact ⟨_, _, hcheck, rfl, rfl, rfl⟩
  · have heq : s.bufLen = toSize s.info.dataSize_ := by
      rw [hlen, hcount, hnear.1]
    have hblock : s.mem.read (0 : Nat) s.info.dataSize_.toNat = arrived := by
      have hn : s.info.dataSize_.toNat = arrived.length := by
        rw [hnear.1, hsize]
        exact Int.toNat_natCast _
      rw [hn]
      exact hread
    by_cases hsame : arrived = bytes
    · rw [hsame] at hblock
      have hcrc : ¬ getCRC16_CCITT bytes ≠ s.info.checkSum_ := by
        rw [hsum]
        exact fun h => h rfl
      rw [verdictOnUdp, if_pos hsame, if_pos hsame]
      have hcheck : s.check.Yields [UdpSession.use .recvUdpDataCallback .recvBuf,
          UdpSession.use .recvUdpDataCallback .info, .dataCallback RECVDATASUCC bytes]
          (RECVDATASUCC, s) := by
        simp only [UdpSession.check, if_pos heq, UdpSession.check.block, hbuf, Traced.pure_bind,
          hblock, if_neg hcrc]
        exact ⟨rfl, rfl⟩
      exact ⟨_, _, hcheck, rfl, rfl, rfl⟩
    · have hcrc : getCRC16_CCITT arrived ≠ s.info.checkSum_ := by
        rw [hsum]
        exact fun h => hsame (hnear.eq_of_crc h)
      rw [verdictOnUdp, if_neg hsame, if_neg hsame]
      have hcheck : s.check.Yields [UdpSession.use .recvUdpDataCallback .recvBuf,
          UdpSession.use .recvUdpDataCallback .info] (RECVUDPDATAFAIL, s) := by
        simp only [UdpSession.check, if_pos heq, UdpSession.check.block, hbuf, Traced.pure_bind,
          hblock, if_pos hcrc]
        exact ⟨rfl, rfl⟩
      exact ⟨_, _, hcheck, rfl, rfl, rfl⟩

/-- What the user sees of a call of the callback. -/
theorem seen_called (block : List UdpSession.Event) (flag : Int) :
    handedOver ([.recvUdpDataCallback] ++ Udp.called block flag) = handedOver block ∧
      noticed ([.recvUdpDataCallback] ++ Udp.called block flag) = noticed block ++ [flag] := by
  simp only [Udp.called, handedOver_append, noticed_append]
  exact ⟨List.append_nil _, rfl⟩

/-- The session that waits for a datagram. -/
def waiting (msg : ControlMsg) (fd : Int) (mem : Memory) : UdpSession :=
  { info :=
      { recvBuf_ := some 0
        dataSize_ := msg.length
        dataLength_ := none
        checkSum_ := UInt16.ofNat msg.crcCheckSum
        dataId_ := msg.dataId
        temp_ := true }
    point :=
      { fd := fd
        RecvInfo_ :=
          { recvBuf_ := 0
            flags_ := 0 ||| Tcp.MSG_NOSIGNAL
            len_ := 0
            cb_ := some 0
            p_ := 0
            inUse_ := true } }
    mem := mem
    bufLen := msg.length.toNat }

theorem agreeRecvUdpData_yields {msg : ControlMsg} {fd : Int} {mem : Memory} {errno : Int}
    (hlength : 0 ≤ msg.length) (hagain : errno = EAGAIN ∨ errno = EWOULDBLOCK) :
    ∃ es, (agreeRecvUdpData msg fd mem (.fail errno)).Yields es (waiting msg fd mem) ∧
      handedOver es = [] ∧ noticed es = [] := by
  have hrecv : (Udp.onRecv (UdpSession.request msg.length.toNat) (.fail errno)
      { fd := fd }).Yields
        [.recvfrom 0 msg.length.toNat 0 (.fail errno)] (S_OK, (waiting msg fd mem).point) := by
    simp only [Udp.onRecv, if_pos hagain]
    exact ⟨rfl, rfl⟩
  obtain ⟨hlog, hvalue⟩ := hrecv
  refine ⟨[UdpSession.use .onRecv .point, .point (.recvfrom 0 msg.length.toNat 0 (.fail errno)),
    UdpSession.use .agreeRecvUdpData .info], ?_, rfl, rfl⟩
  simp only [agreeRecvUdpData, if_neg (Int.not_lt.mpr hlength), UdpSession.onPoint, hlog, hvalue,
    List.foldlM_cons, List.foldlM_nil, UdpSession.perform]
  exact ⟨rfl, rfl⟩

/-- The callback of the session, with what the loop has received. -/
theorem handleRead_yields {msg : ControlMsg} {fd : Int} (hfd : 0 ≤ fd) (mem : Memory)
    (datagram : List UInt8) :
    (waiting msg fd mem).handleRead (.data datagram) =
      Traced.tell (Udp.reading (waiting msg fd mem).point (.data datagram) ++
        [UdpSession.use .handleRead .point, .point (.callback 0 0)]) >>= fun _ =>
          (Udp.read (.data datagram) (waiting msg fd mem)).recvUdpDataCallback := by
  have hread : (Udp.handleRead (.data datagram) (waiting msg fd mem).point).Yields
      (Udp.receiving (waiting msg fd mem).point (.data datagram) ++ [.callback 0 0])
      (S_OK, (waiting msg fd mem).point) := by
    have hopen : ¬ (waiting msg fd mem).point.fd < 0 := Int.not_lt.mpr hfd
    simp only [Udp.handleRead, if_neg hopen]
    exact ⟨rfl, rfl⟩
  obtain ⟨hlog, hvalue⟩ := hread
  simp only [UdpSession.handleRead, UdpSession.onPoint, hlog, hvalue, Udp.receiving,
    List.cons_append, List.nil_append, List.foldlM_cons, List.foldlM_nil, UdpSession.perform,
    Traced.bind_assoc, Traced.pure_bind, Traced.bind_pure, Traced.tell_bind_tell_bind]
  rfl

/-- The datagram is checked, handed over, and reported. -/
theorem exists_datagram {msg : ControlMsg} {fd : Int} (hfd : 0 ≤ fd)
    (hsize : msg.length = bytes.length)
    (hsum : UInt16.ofNat msg.crcCheckSum = getCRC16_CCITT bytes) (hlt : bytes.length < 2 ^ 31)
    (hnear : NearOnUdp bytes (datagram.take MAXLINE)) (mem : Memory) :
    ∃ log t, ((waiting msg fd mem).handleRead (.data datagram)).Yields log t ∧
      handedOver log = (if datagram.take MAXLINE = bytes then [(RECVDATASUCC, bytes)] else []) ∧
      noticed log = [verdictOnUdp bytes (datagram.take MAXLINE)] := by
  let s := Udp.read (.data datagram) (waiting msg fd mem)
  have hread : s.mem.read 0 (datagram.take MAXLINE).length = datagram.take MAXLINE :=
    Memory.read_write mem 0 (datagram.take MAXLINE)
  obtain ⟨es, t, hcheck, htemp, hhanded, hnoticed⟩ := check_yields (s := s) rfl hsize hsum hlt rfl
    hread hnear
  have hcallback := Udp.recvUdpDataCallback_of_check hcheck htemp
  obtain ⟨hhanded', hnoticed'⟩ := seen_called es (verdictOnUdp bytes (datagram.take MAXLINE))
  rw [handleRead_yields hfd]
  refine ⟨_, _, (Traced.tell_bind_yields ..).mpr ⟨_, hcallback, rfl⟩, ?_, ?_⟩
  · rw [handedOver_append]
    exact hhanded'.trans hhanded
  · rw [hnoticed] at hnoticed'
    rw [noticed_append]
    exact hnoticed'

end

/-- A client takes the offer of a block that is ready. -/
theorem takesOnUdp {s : Sender} {conn : Conn} {peerId : Int} {client : Client} {block : Nat}
    {length : Int} {id datagram : List UInt8}
    (h : Offerable conn peerId client block length id s) {receiver : DTPClient}
    (hcb : receiver.noticeCallback_ ≠ none) (hnew : receiver.mp_ id = none) {fd errno : Int}
    (hfd : 0 ≤ fd) (hagain : errno = EAGAIN ∨ errno = EWOULDBLOCK)
    (hnear : NearOnUdp (content block length s) (datagram.take MAXLINE)) (mem : Memory) :
    let bytes := content block length s
    let msg := offerOnUdp peerId length id bytes
    TakesOnUdp msg bytes (datagram.take MAXLINE) receiver
      (agreeRecvUdpData msg fd mem (.fail errno)) (·.handleRead (.data datagram)) := by
  dsimp only
  let msg := offerOnUdp peerId length id (content block length s)
  have hself : cstring id = id := (cstring_eq_self_iff id).mpr h.string
  have hid : msg.dataId = id := hself
  have hpos := h.length_pos
  have hlt := h.length_lt
  have hbytes := h.length_content
  have hlength : msg.length = length := rfl
  -- the user is told of the offer, and agrees to it
  have hne : SENDDATAONUDP ≠ RECVDATAONUDP ∧ SENDDATAONUDP ≠ SENDDATAFLAG := by decide
  have hkey : DTPClient.keyOf msg = some id :=
    (DtpClient.keyOf_offer (show msg.flag = DtpClient.Kind.udp.flag from rfl)).trans
      (congrArg some hself)
  have htold := hears_named hcb (show msg.flag ≠ RECVDATAONUDP from hne.1) hkey h.string h.id_lt
  rw [noticeParam, if_neg (show msg.flag ≠ SENDDATAFLAG from hne.2)] at htold
  have hagree := agreeRecvData_yields (told_mp_ hnew : (told id msg receiver).mp_ id = some msg)
  rw [if_pos (show msg.flag = SENDDATAONUDP from rfl)] at hagree
  -- the datagram comes
  obtain ⟨es, hwait, hhanded, hnoticed⟩ := agreeRecvUdpData_yields
    (show 0 ≤ msg.length by rw [hlength]; omega) hagain
  obtain ⟨log, t, hread, hlog⟩ := exists_datagram hfd (show msg.length = _ by rw [hlength, hbytes])
    (show UInt16.ofNat msg.crcCheckSum = _ from UInt16.ofNat_toNat) (by omega) hnear mem
  refine ⟨told id msg receiver, (told id msg receiver).erase id, es, _, log, t, ?_, ?_, hwait,
    hhanded, hnoticed, hread, hlog⟩
  · show Hears [msg] receiver [_, .act (.notice _ (some msg.dataId) _)] _
    rw [hid]
    exact htold
  · show ((told id msg receiver).agreeRecvData msg.dataId).Yields _ _
    rw [hid]
    exact hagree

/-! ### The messages that go back -/

/-- The request for the datagram goes to the client of the offer, and asks for its block. -/
theorem sendable_requestDatagram {msg : ControlMsg} {ipstr : List UInt8} (hid : IsInt32 msg.id)
    (hip : IsIp (some ipstr)) (hzero : 0 ∉ msg.dataId) (hshort : msg.dataId.length < FILEPATHSIZE)
    (getsockname : Option UInt16) :
    Sendable (requestDatagram msg ipstr getsockname) ∧
      (requestDatagram msg ipstr getsockname).dataId = msg.dataId ∧
      (requestDatagram msg ipstr getsockname).id = msg.id := by
  have hself := (cstring_eq_self_iff msg.dataId).mpr hzero
  have hport := (getsockname.getD 0).toNat_lt
  refine ⟨sendable_makeDataControlMsg (by constructor <;> decide) (by decide) hid hip ?_
    (by decide) (by constructor <;> decide) (by rwa [hself]), hself, rfl⟩
  constructor <;> omega

theorem answersOnUdp {bytes arrived id : List UInt8} {peerId : Int} {user : DTPClient}
    (hpeerId : IsInt32 peerId) (hid : 0 ∉ id) (hshort : id.length < FILEPATHSIZE)
    (hcb : user.noticeCallback_ ≠ none) :
    AnswersOnUdp (sendAck peerId (verdictOnUdp bytes arrived) id) bytes arrived id user := by
  by_cases hsame : arrived = bytes
  · -- the answer is the one over TCP
    have hverdict : verdictOnUdp bytes arrived = verdict bytes arrived := by
      rw [verdictOnUdp, if_pos hsame, verdict, if_pos hsame]
    have hanswers : Answers (sendAck peerId (verdict bytes arrived) id) bytes arrived id user :=
      answers hpeerId hid hshort hcb
    obtain ⟨hsendable, client', hheard⟩ := hanswers
    rw [if_pos hsame] at hheard
    rw [hverdict]
    refine ⟨hsendable, client', ?_⟩
    rw [if_pos hsame]
    exact hheard
  · rw [verdictOnUdp, if_neg hsame]
    refine ⟨sendable_sendAck (by constructor <;> decide) (by decide) hpeerId ?_, user, ?_⟩
    · rwa [(cstring_eq_self_iff id).mpr hid]
    · rw [if_neg hsame]
      have hne : RECVUDPDATAFAIL ≠ SENDDATAFLAG ∧ RECVUDPDATAFAIL ≠ RECVDATAONUDP := by decide
      have hkey : DTPClient.keyOf (sendAck peerId RECVUDPDATAFAIL id) = none := rfl
      exact hears_unnamed hcb hne.1 hne.2 hkey

/-! ### The result -/

/-- A block that is sent over UDP, and its answer. -/
theorem exchangesOnUdp {κ : Type} (md5 : Md5 κ) {s : Sender} {conn : Conn} {peerId : Int}
    {client : Client} {block : Nat} {length : Int} {id datagram : List UInt8}
    (hready : ReadyOnUdp conn peerId client block length id s) {dataId : Option (List UInt8)}
    {guid : List UInt8} (hid : cstring (dataId.getD guid) = id) {receiver user : DTPClient}
    (hreceiver : Willing id receiver) (huser : user.noticeCallback_ ≠ none) {fd errno : Int}
    (hfd : 0 ≤ fd) (hagain : errno = EAGAIN ∨ errno = EWOULDBLOCK) {ipstr : List UInt8}
    (hip : IsIp (some ipstr)) (hnear : NearOnUdp (content block length s) (datagram.take MAXLINE))
    {ackId : Int} (hackId : IsInt32 ackId) (uninit : Client) (sys : DataCalls) (mem : Memory)
    (getsockname : Option UInt16) :
    let bytes := content block length s
    let msg := offerOnUdp peerId length id bytes
    let request := requestDatagram msg ipstr getsockname
    let arrived := datagram.take MAXLINE
    (OffersOnUdp md5 conn client msg bytes
        (Sending.Multiplexer.sendData uninit guid sys conn peerId (some (.user block)) length dataId
          UDP s) ∧
      Sendable msg) ∧
    (Sendable request ∧ request.dataId = msg.dataId ∧ request.id = peerId) ∧
    TakesOnUdp msg bytes arrived receiver (agreeRecvUdpData msg fd mem (.fail errno))
      (·.handleRead (.data datagram)) ∧
    AnswersOnUdp (sendAck ackId (verdictOnUdp bytes arrived) id) bytes arrived id user := by
  have hself : cstring id = id := (cstring_eq_self_iff id).mpr hready.string
  dsimp only
  refine ⟨⟨offersOnUdp hready hid uninit sys, sendable_offerOnUdp hready.toOfferable _⟩,
    sendable_requestDatagram hready.peerId hip ?_ ?_ getsockname,
    takesOnUdp hready.toOfferable hreceiver.noticeCallback_ hreceiver.new hfd hagain hnear mem,
    answersOnUdp hackId hready.string hready.id_lt huser⟩
  · show 0 ∉ cstring id
    exact zero_not_mem_cstring id
  · show (cstring id).length < FILEPATHSIZE
    rw [hself]
    exact hready.id_lt

theorem oneBlock_readyOnUdp : ReadyOnUdp 1 3 7 0 3 [0x64] oneBlock where
  toOfferable := oneBlock_ready.toOfferable
  new := rfl

/-- The datagram is cut. -/
theorem exchangesOnUdp_cut :
    let msg := offerOnUdp 3 3 [0x64] [1, 2, 0]
    let request := requestDatagram msg RDMA_IP (some 3000)
    (OffersOnUdp Sending.zeroMd5 1 7 msg [1, 2, 0]
        (Sending.Multiplexer.sendData 0 [] listenCalls 1 3 (some (.user 0)) 3 (some [0x64]) UDP
          oneBlock) ∧
      Sendable msg) ∧
    (Sendable request ∧ request.dataId = msg.dataId ∧ request.id = 3) ∧
    TakesOnUdp msg [1, 2, 0] [1, 2] willing (agreeRecvUdpData msg 5 (fun _ => 0) (.fail EAGAIN))
      (·.handleRead (.data [1, 2])) ∧
    AnswersOnUdp (sendAck 9 RECVUDPDATAFAIL [0x64]) [1, 2, 0] [1, 2] [0x64] willing := by
  have hwilling : Willing [0x64] willing :=
    ⟨Option.some_ne_none 0, Option.some_ne_none 0, rfl⟩
  have hshort : NearOnUdp [1, 2, 0] (([1, 2] : List UInt8).take MAXLINE) := .inl (by decide)
  exact exchangesOnUdp Sending.zeroMd5 oneBlock_readyOnUdp (by decide) hwilling
    (Option.some_ne_none 0) (by decide) (.inl rfl) isIp_RDMA_IP hshort
    (by constructor <;> decide) 0 listenCalls (fun _ => 0) (some 3000)

end Ndsl.Proofs.Exchange
