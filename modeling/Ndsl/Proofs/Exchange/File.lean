import Ndsl.Net.Session
import Ndsl.Proofs.Exchange.Offering
import Ndsl.Proofs.RecvFile.Earlier
import Ndsl.Proofs.TcpConnection.SendFile

/-!
# `Ndsl.Proofs.Exchange.File`: a file goes from one user to another

A file that a user has asked for with `recvFile` and that the other has sent with `sendFile`,
through all of `DTP.cc`: the offer goes to the peer, whose user is told the name and agrees to it
with that name, the receiver connects and is sent the file, puts it under the root for received
files, and compares its checksum with the offered one.

`exchangesFile`: the receiver has the file that was sent, and its user is told so, if it came as one
chunk; otherwise the receiver has no file, and its user is told that. The sender's user is told of
success as soon as the file is on its way. The request has the name of the file in it, and it does
not reach the user who is asked.

Two different contents are to have different checksums, where one of them is the one that was sent
and the other is the one that has come to the disk.
-/

set_option autoImplicit false

namespace Ndsl.Proofs.Exchange

open Ndsl.Lib
open Ndsl.Lib.Wire (IsInt32)
open Ndsl.Net
open Ndsl.Net.Dtp
open Ndsl.Net.Dtp.RecvFile (makeNoticeMsg)
open Ndsl.Net.Registry (Client Conn)
open Ndsl.Net.Sending
open Ndsl.Net.Tcp (TcpChannel)
open Ndsl.Proofs.Delivers (Hears Sendable)
open Ndsl.Proofs.RecvFile (Matches appends chunks destination)
open Ndsl.Proofs.Sending

/-! ### Statements -/

/-- A file of the user that can be offered to the client of a peer, as a whole. -/
structure FileReady (conn : Conn) (peerId : Int) (client : Client) (filePath name : List UInt8)
    (length : Int) (bytes : List UInt8) (sys : FileCalls) (s : Sender) : Prop where
  registered : s.mul.lookup conn peerId = some client
  peerId : IsInt32 peerId
  filePath_lt : (cstring filePath).length < FILEPATHSIZE
  name_eq : getFileName filePath = some name
  text : Wire.utf8 name = true
  stat : sys.stat = some (bytes.length : Int)
  file : sys.file = some bytes
  ne_nil : bytes ≠ []
  length_lt : bytes.length < 2 ^ 31
  length : length = 0 ∨ length = bytes.length

section
variable {κ : Type} (md5 : Md5 κ)

/-- The offer of a file. -/
def fileOffer (sys : FileCalls) (peerId : Int) (name bytes : List UInt8) : ControlMsg :=
  makeControlMsg SENDFILEFLAG peerId RDMA_IP (port sys.toListenCalls) (md5.getMd5 bytes) name
    bytes.length

/-- The transfer of the record at a position is in a stage. -/
def InStage (t : Sender) (k : Nat) (stage : Stage) : Prop :=
  (t.listenMgrs[k]?).map ListenMgr.stage = some stage

/-- A call returns, and has sent one message. The listener of its record is there until the record
moves on, and whenever a peer connects to the listener it is sent the file at the path. When it was
sent, the client makes a notice with the name of the message. -/
def OffersFile (conn : Conn) (k : Nat) (client : Client) (filePath : List UInt8)
    (msg : ControlMsg) (x : Traced Event Sender) : Prop :=
  ∃ es s, x.Yields es s ∧ messages es = [(conn, 0, msg)] ∧
    ∀ (ops : List Op) log t, (ops.foldlM (step md5) s).Yields log t →
      ((∀ op ∈ ops, movesFile op ≠ some k) → InStage t k .listens) ∧
      (InStage t k .listens → (DTP.acceptorCallback k t).Yields
        [.sendFile k (cstring filePath)] (t.setStage k .connected)) ∧
      (InStage t k .connected → t.alive client = true → (DTP.sendFileCallback k t).Yields
        [.client client, .notice client (makeNoticeMsg SENDFILESUCC msg.fileName), .addWork]
        (t.setStage k .finished))

end

/-- A call sends one message, and the client that hears it tells its user that a file is wanted,
but not which. -/
def Asks (conn : Conn) (peerId : Int) (filename : List UInt8) (client : DTPClient)
    (x : Traced Event Sender) : Prop :=
  ∃ es s msg, x.Yields es s ∧ messages es = [(conn, 0, msg)] ∧ Sendable msg ∧ msg.id = peerId ∧
    msg.fileName = filename ∧
    Hears [msg] client [.analysisProtobuf msg,
      .act (.notice RECVFILEFLAG none client.noticeParam_)] client

/-- What the connection of a session does. -/
def acts (es : List Session.Event) : List Tcp.Act :=
  es.filterMap fun
    | .conn act => some act
    | _ => none

/-- The notices that a session makes for its client. -/
def flags (es : List Session.Event) : List Int :=
  es.filterMap fun
    | .analysisProtobuf flag => some flag
    | _ => none

/-- When a peer connects and the socket takes the whole file, the file is what is on the socket, and
the client tells its user of success. -/
def Serves (bytes name : List UInt8) (client : DTPClient) : Prop :=
  (∀ (channel : TcpChannel) (inFd : Int), ∃ es s,
    (Session.fileStep { acceptorReady := true } (.handleRead (some channel) inFd
      (some bytes.length) (.count bytes.length))).Yields es s ∧
    Tcp.onSocket bytes (acts es) = bytes ∧ flags es = [SENDFILESUCC]) ∧
  (client.analysisProtobuf (makeNoticeMsg SENDFILESUCC name)).Yields
    [.notice SENDFILESUCC none client.noticeParam_] client

/-- A client is told of an offer with its name, and agrees to it with the name. If the receive goes
well the file holds the bytes and the user is told so, and otherwise there is no file. -/
def TakesFile (msg : ControlMsg) (bytes : List UInt8) (well : Prop) [Decidable well]
    (client : DTPClient) (receive : DTPClient → Traced RecvFile.Event RecvFile) : Prop :=
  ∃ client₁ client₂ log s,
    Hears [msg] client [.analysisProtobuf msg,
      .act (.notice SENDFILEFLAG (some msg.fileName) client.noticeParam_)] client₁ ∧
    (client₁.agreeRecvFile msg.fileName).Yields [.recvFile msg] client₂ ∧
    (receive client₂).Yields log s ∧
    s.disk.content (destination msg) = (if well then some bytes else none) ∧
    RecvFile.notices log = [if well then RECVFILESUCC else RECVFILEFAIL]

/-! ### The checksum -/

section
variable {κ : Type} {md5 : Md5 κ} {msg : ControlMsg} {bytes : List UInt8}

theorem digit_ascii {d : UInt8} (hd : d.toNat < 16) :
    hexByte.digit d ≠ 0 ∧ (hexByte.digit d).toNat < 128 := by
  have hall : ∀ n < 16, hexByte.digit (UInt8.ofNat n) ≠ 0 ∧
      (hexByte.digit (UInt8.ofNat n)).toNat < 128 := by decide
  have hdigit := hall d.toNat hd
  rwa [UInt8.ofNat_toNat] at hdigit

/-- A checksum is printed in digits. -/
theorem getMd5_ascii {c : UInt8} (h : c ∈ md5.getMd5 bytes) : c ≠ 0 ∧ c.toNat < 128 := by
  obtain ⟨i, -, hc⟩ := List.mem_flatMap.mp h
  generalize md5.final _ i = b at hc
  have hb := b.toNat_lt
  rcases List.mem_pair.mp hc with rfl | rfl
  · exact digit_ascii (by rw [UInt8.toNat_div]; exact Nat.div_lt_of_lt_mul hb)
  · exact digit_ascii (by rw [UInt8.toNat_mod]; exact Nat.mod_lt _ (by decide))

variable (md5) in
theorem length_getMd5 (bytes : List UInt8) : (md5.getMd5 bytes).length = MD5LENTH * 2 := by
  simp [Md5.getMd5, Md5.print, hexByte, List.length_flatMap]

theorem cstring_getMd5 (bytes : List UInt8) : cstring (md5.getMd5 bytes) = md5.getMd5 bytes :=
  (cstring_eq_self_iff _).mpr fun h => (getMd5_ascii h).1 rfl

/-- The checksum of the offer is compared as it was printed. -/
theorem matches_iff (hsum : msg.checkSum = md5.getMd5 bytes) (total : List UInt8) :
    Matches md5 msg total ↔ md5.getMd5 total = md5.getMd5 bytes := by
  rw [Matches, hsum, cstring_getMd5, cstring_getMd5]

end

/-! ### The sender -/

section
variable {κ : Type} {md5 : Md5 κ} {s s' : Sender} {es : List Event}

/-- What a step does to the records of files: it adds to them, or moves one of them on. -/
theorem step_listenMgrs {op : Op} (hstep : (step md5 s op).Yields es s') :
    (∃ mgrs, s'.listenMgrs = s.listenMgrs ++ mgrs) ∨
      ∃ k stage, movesFile op = some k ∧ s' = s.setStage k stage := by
  have hsame : ∃ mgrs, s.listenMgrs = s.listenMgrs ++ mgrs := ⟨[], (List.append_nil _).symm⟩
  cases op with
  | sendFile uninit sys conn peerId filePath length =>
      obtain ⟨fs, r, gs, hsend, hrest, -⟩ := Traced.bind_yields.mp hstep
      obtain ⟨rfl, -⟩ := sendFile_cases hsend
      obtain ⟨-, rfl⟩ := (Traced.pure_yields ..).mp hrest
      exact .inl ⟨_, rfl⟩
  | recvFile uninit conn peerId filename =>
      obtain ⟨requests, timeMp_, rfl⟩ := mulRecvFile_cases hstep
      exact .inl hsame
  | sendData uninit guid sys conn peerId sendBuf length dataId flag =>
      obtain ⟨-, -, all, bytes, -, -, -, rfl⟩ | ⟨-, rfl⟩ := mulSendData_cases hstep
      · left
        show ∃ mgrs, (inserted _ _ _ s).listenMgrs = s.listenMgrs ++ mgrs
        unfold inserted
        split <;> exact hsame
      · exact .inl hsame
  | sendDataOnUdp conn peerId sendBuf length client dataId =>
      obtain ⟨fs, r, gs, hsend, hrest, -⟩ := Traced.bind_yields.mp hstep
      have hr := sendDataOnUdp_cases hsend
      obtain ⟨-, rfl⟩ := (Traced.pure_yields ..).mp hrest
      rw [hr]
      exact .inl hsame
  | analysisProtobuf uninit n msg =>
      obtain ⟨rfl, -⟩ := analysisProtobuf_yields.mp hstep
      exact .inl hsame
  | stopListen | acceptorCallback | sendFileCallback | senfFileClearMemory =>
      obtain rfl | ⟨stage, rfl⟩ := movesFile_cases rfl hstep
      · exact .inl hsame
      · exact .inr ⟨_, stage, rfl, rfl⟩
  | stopListenOfData | sendDataCallback =>
      obtain rfl | ⟨stage, rfl⟩ := movesData_cases rfl hstep
      · exact .inl hsame
      · exact .inl hsame
  | acceptorCallbackOfSendData mgr =>
      obtain ⟨rfl, -⟩ := acceptorCallbackOfSendData_yields.mp hstep
      exact .inl hsame
  | erase | delete | deleteEntity | registry =>
      obtain ⟨-, rfl⟩ := (Traced.pure_yields ..).mp hstep
      exact .inl hsame

/-- No step takes a record away. -/
theorem step_listenMgr {op : Op} {k : Nat} {m : ListenMgr}
    (h : ∃ stage, s.listenMgrs[k]? = some { m with stage := stage })
    (hstep : (step md5 s op).Yields es s') :
    ∃ stage, s'.listenMgrs[k]? = some { m with stage := stage } := by
  obtain ⟨old, hold⟩ := h
  rcases step_listenMgrs hstep with ⟨mgrs, hmgrs⟩ | ⟨j, stage, -, rfl⟩
  · have hlt : k < s.listenMgrs.length := (List.getElem?_eq_some_iff.mp hold).1
    exact ⟨old, by rw [hmgrs, List.getElem?_append_left hlt, hold]⟩
  · refine ⟨if j = k then stage else old, ?_⟩
    show (s.listenMgrs.modify j _)[k]? = _
    rw [List.getElem?_modify, hold, Option.map_eq_map, Option.map_some]
    split <;> rfl

theorem run_listenMgr {ops : List Op} {k : Nat} {m : ListenMgr} {log : List Event}
    (h : ∃ stage, s.listenMgrs[k]? = some { m with stage := stage })
    (hrun : (ops.foldlM (step md5) s).Yields log s') :
    ∃ stage, s'.listenMgrs[k]? = some { m with stage := stage } :=
  Traced.foldlM_yields_of_nil
    (P := fun s _ => ∃ stage, s.listenMgrs[k]? = some { m with stage := stage })
    (fun _ _ _ _ _ h hstep => step_listenMgr h hstep) h hrun

/-- A listener is there until its own transfer moves on. -/
theorem step_inStage {op : Op} {k : Nat} (h : InStage s k .listens) (hop : movesFile op ≠ some k)
    (hstep : (step md5 s op).Yields es s') : InStage s' k .listens := by
  rcases step_listenMgrs hstep with ⟨mgrs, hmgrs⟩ | ⟨j, stage, hmoves, rfl⟩
  · obtain ⟨m, hm, hstage⟩ := Option.map_eq_some_iff.mp h
    have hlt : k < s.listenMgrs.length := (List.getElem?_eq_some_iff.mp hm).1
    rw [InStage, hmgrs, List.getElem?_append_left hlt, hm, Option.map_some, hstage]
  · have hj : j ≠ k := fun hj => hop (hj ▸ hmoves)
    show ((s.listenMgrs.modify j _)[k]?).map _ = _
    rw [List.getElem?_modify_ne _ _ hj]
    exact h

theorem run_inStage {ops : List Op} {k : Nat} (hops : ∀ op ∈ ops, movesFile op ≠ some k) :
    ∀ {s s' : Sender} {log : List Event}, InStage s k .listens →
      (ops.foldlM (step md5) s).Yields log s' → InStage s' k .listens := by
  induction ops with
  | nil =>
      intro s s' log h hrun
      obtain ⟨-, rfl⟩ := (Traced.pure_yields ..).mp hrun
      exact h
  | cons op ops ih =>
      intro s s' log h hrun
      rw [List.foldlM_cons, Traced.bind_yields] at hrun
      obtain ⟨es, mid, fs, hstep, hrest, -⟩ := hrun
      exact ih (fun op hop => hops op (List.mem_cons_of_mem _ hop))
        (step_inStage h (hops op List.mem_cons_self) hstep) hrest

/-- The record in its stage. -/
theorem listenMgr_of_inStage {k : Nat} {m : ListenMgr} {stage : Stage}
    (h : ∃ stage, s.listenMgrs[k]? = some { m with stage := stage }) (hstage : InStage s k stage) :
    s.listenMgrs[k]? = some { m with stage := stage } := by
  obtain ⟨old, hold⟩ := h
  rw [InStage, hold] at hstage
  obtain rfl := Option.some.inj hstage
  exact hold

variable (md5) in
/-- A file that is ready is offered with one message, and its record is the last one. -/
theorem sendFile_yields {conn : Conn} {peerId : Int} {client : Client}
    {filePath name bytes : List UInt8} {length : Int} {sys : FileCalls}
    (h : FileReady conn peerId client filePath name length bytes sys s) (uninit : Client) :
    ∃ es, (Multiplexer.sendFile md5 uninit sys conn peerId filePath length s).Yields es
        { s with listenMgrs :=
          s.listenMgrs ++ [{ filePath_ := cstring filePath, client_ := client }] } ∧
      messages es = [(conn, 0, fileOffer md5 sys peerId name bytes)] := by
  have hclient := findClient_of_lookup h.registered uninit
  obtain ⟨ret, hstart⟩ := start_returns sys.toListenCalls
  have hlt := h.length_lt
  -- the length that is offered is the one of the file, also when the user leaves it out
  have hlength : (if length = 0 then toInt (toSize (sys.stat.getD sys.st_size)) else length) =
      bytes.length := by
    rcases h.length with hzero | hall
    · rw [if_pos hzero, h.stat, Option.getD_some]
      unfold toSize
      rw [toInt_of_lt (by omega)]
      omega
    · have hpos := List.length_pos_iff.mpr h.ne_nil
      rw [if_neg (by omega), hall]
  let es := started sys.toListenCalls ++ [.newConnection, .newSession client, .runAfter,
    .sendMessage conn 0 (fileOffer md5 sys peerId name bytes)]
  have hsend : (DTP.sendFile md5 sys conn peerId filePath length client s).Yields es
      (S_OK, { s with listenMgrs :=
        s.listenMgrs ++ [{ filePath_ := cstring filePath, client_ := client }] }) := by
    unfold DTP.sendFile
    simp only [hlength, if_neg (Nat.not_le_of_lt h.filePath_lt), h.name_eq, h.file,
      Option.map_some, Option.getD_some]
    exact Traced.bind_yields.mpr ⟨_, ret, _, hstart, ⟨rfl, rfl⟩, rfl⟩
  refine ⟨es ++ [], ?_, ?_⟩
  · unfold Multiplexer.sendFile
    dsimp only
    rw [hclient]
    exact Traced.bind_yields.mpr ⟨es, _, [], hsend, (Traced.pure_yields ..).mpr ⟨rfl, rfl⟩, rfl⟩
  · rw [List.append_nil, messages_append, messages_started]
    rfl

theorem offersFile {conn : Conn} {peerId : Int} {client : Client}
    {filePath name bytes : List UInt8} {length : Int} {sys : FileCalls}
    (h : FileReady conn peerId client filePath name length bytes sys s) (uninit : Client) :
    OffersFile md5 conn s.listenMgrs.length client filePath (fileOffer md5 sys peerId name bytes)
      (Multiplexer.sendFile md5 uninit sys conn peerId filePath length s) := by
  obtain ⟨es, hcall, hmessages⟩ := sendFile_yields md5 h uninit
  let m : ListenMgr := { filePath_ := cstring filePath, client_ := client }
  have hrecord : ∃ stage, (s.listenMgrs ++ [m])[s.listenMgrs.length]? =
      some { m with stage := stage } := ⟨.listens, List.getElem?_concat_length⟩
  refine ⟨es, _, hcall, hmessages, fun ops log t hrun => ⟨fun hops => ?_, fun hstage => ?_,
    fun hstage halive => ?_⟩⟩
  · refine run_inStage hops ?_ hrun
    show ((s.listenMgrs ++ [m])[s.listenMgrs.length]?).map _ = _
    rw [List.getElem?_concat_length]
    rfl
  · unfold DTP.acceptorCallback
    simp only [listenMgr_of_inStage (run_listenMgr hrecord hrun) hstage]
    exact ⟨rfl, rfl⟩
  · -- the name is the one of the path
    have hnotice : DTP.sendFileNotice { m with stage := .connected } =
        some (makeNoticeMsg SENDFILESUCC name) := by
      show (getFileName (cstring filePath)).map (makeNoticeMsg SENDFILESUCC) = _
      rw [getFileName, cstring_cstring, ← getFileName, h.name_eq]
      rfl
    have hnot : ¬ t.alive client = false := by
      rw [halive]
      decide
    unfold DTP.sendFileCallback
    simp only [listenMgr_of_inStage (run_listenMgr hrecord hrun) hstage, hnotice, m, if_neg hnot]
    exact ⟨rfl, rfl⟩

/-- The name is the end of the path. -/
theorem suffix_of_getFileName {filePath name : List UInt8} (h : getFileName filePath = some name) :
    name <:+ cstring filePath := by
  unfold getFileName at h
  dsimp only at h
  split at h
  next => nomatch h
  next =>
    obtain rfl := Option.some.inj h
    exact List.drop_suffix _ _

/-- The offer can be carried to the peer. -/
theorem sendable_fileOffer {conn : Conn} {peerId : Int} {client : Client}
    {filePath name bytes : List UInt8} {length : Int} {sys : FileCalls}
    (h : FileReady conn peerId client filePath name length bytes sys s) :
    Sendable (fileOffer md5 sys peerId name bytes) := by
  have hport := ((sys.getsockname.getD sys.sin_port)).toNat_lt
  have hlt := h.length_lt
  have hsum : (fileOffer md5 sys peerId name bytes).checkSum = md5.getMd5 bytes :=
    cstring_getMd5 bytes
  have hsumLength := length_getMd5 md5 bytes
  have hname := (suffix_of_getFileName h.name_eq).length_le
  have hpath := h.filePath_lt
  unfold FILEPATHSIZE at hpath
  unfold MD5LENTH at hsumLength
  refine sendable_of_short ?_ ⟨isIp_RDMA_IP.text, ?_, h.text⟩
    (NoZero.Built.makeControlMsg _ _ _ _ _ _ _ _ h.name_eq).strings ?_ ?_
  · exact
      { flag := (by decide : IsInt32 SENDFILEFLAG)
        id := h.peerId
        ip := Nat.lt_trans isIp_RDMA_IP.length (by decide)
        dataPort := by
          show IsInt32 (port sys.toListenCalls)
          unfold port
          constructor <;> omega
        checkSum := by
          rw [hsum]
          omega
        fileName := Nat.lt_of_le_of_lt hname (by omega)
        length := by
          show IsInt32 bytes.length
          constructor <;> omega
        dataId := Nat.two_pow_pos 31
        crcCheckSum := Nat.two_pow_pos 32 }
  · rw [hsum]
    exact Wire.utf8_of_ascii fun c hc => (getMd5_ascii hc).2
  · intro hdefault
    rw [hdefault] at hsum
    rw [← hsum] at hsumLength
    exact absurd hsumLength (by decide)
  · have hip := isIp_RDMA_IP.length
    show (cstring RDMA_IP).length + _ + name.length + 0 < 2 ^ 30
    rw [hsum, hsumLength]
    rw [Option.getD_some] at hip
    omega

end

/-- A file that is wanted is asked for with one message. -/
theorem asks {s : Sender} {conn : Conn} {peerId : Int} {filename : List UInt8}
    (hpeerId : IsInt32 peerId) (htext : Wire.utf8 filename = true) (hzero : 0 ∉ filename)
    (hlt : filename.length < 2 ^ 29) {client : DTPClient} (hcb : client.noticeCallback_ ≠ none)
    (uninit : Client) :
    Asks conn peerId filename client (Multiplexer.recvFile uninit conn peerId filename s) := by
  have hself : cstring filename = filename := (cstring_eq_self_iff filename).mpr hzero
  let msg : ControlMsg := { flag := RECVFILEFLAG, id := peerId, fileName := filename }
  have hne : RECVFILEFLAG ≠ SENDDATAFLAG ∧ RECVFILEFLAG ≠ RECVDATAONUDP ∧ RECVFILEFLAG ≠ 0 := by
    decide
  let es : List Event := [.newSession (Multiplexer.findClient uninit conn peerId s), .runAfter,
    .sendMessage conn 0 msg]
  have hcall : ∃ s', (Multiplexer.recvFile uninit conn peerId filename s).Yields es s' := by
    unfold Multiplexer.recvFile DTP.recvFile
    rw [hself]
    exact ⟨_, rfl, rfl⟩
  obtain ⟨s', hcall⟩ := hcall
  refine ⟨es, s', msg, hcall, rfl, ?_, rfl, rfl, hears_unnamed hcb hne.1 hne.2.1 rfl⟩
  · refine sendable_of_short ?_ ⟨utf8_nil, utf8_nil, htext⟩
      ⟨List.not_mem_nil, List.not_mem_nil, hzero, List.not_mem_nil⟩
      (fun hdefault => hne.2.2 (congrArg ControlMsg.flag hdefault)) ?_
    · exact
        { flag := (by decide : IsInt32 RECVFILEFLAG)
          id := hpeerId
          ip := Nat.two_pow_pos 31
          dataPort := (by decide : IsInt32 0)
          checkSum := Nat.two_pow_pos 31
          fileName := by
            show filename.length < 2 ^ 31
            omega
          length := (by decide : IsInt32 0)
          dataId := Nat.two_pow_pos 31
          crcCheckSum := Nat.two_pow_pos 32 }
    · show 0 + 0 + filename.length + 0 < 2 ^ 30
      omega

/-! ### The session -/

/-- A call of the connection that completes. -/
theorem onConn_of_yields {x : Traced Tcp.Act (Int × Tcp.TcpConnection)} {as : List Tcp.Act}
    {ret : Int} {conn : Tcp.TcpConnection} (hx : x.Yields as (ret, conn))
    (hdone : Session.onConn.completes as = true)
    (cb : Session → Traced Session.Event Session) (s : Session) :
    s.onConn x cb = Traced.tell (as.map .conn) >>= fun _ => cb { s with conn := conn } := by
  obtain ⟨hlog, hvalue⟩ := hx
  simp only [Session.onConn, hvalue, hlog, hdone, if_true]

theorem serves {bytes name : List UInt8} (hlt : bytes.length < 2 ^ 31) {client : DTPClient}
    (hcb : client.noticeCallback_ ≠ none) : Serves bytes name client := by
  refine ⟨fun channel inFd => ?_, ?_⟩
  · have hsend : (Tcp.sendFile inFd 0 bytes.length (some 0) 0 (.count bytes.length)
        { pTcpChannel_ := some channel }).Yields
        [.sendfile inFd 0 bytes.length (.count bytes.length), .callback 0 0]
        (S_OK, { pTcpChannel_ := some channel }) := by
      simp only [Tcp.sendFile, Tcp.toSize_count (show bytes.length < 2 ^ 64 by omega),
        if_neg (Nat.not_lt_zero _), if_neg (Nat.lt_irrefl _)]
      exact ⟨rfl, rfl⟩
    -- the accept, the transfer, and the notice
    let es : List Session.Event := [Session.use .handleRead .acceptor, .accepted,
      Session.use .handleRead .conn, Session.use .handleRead .acceptor,
      Session.use .acceptorCallback .mgr, .access .acceptorCallback (.delete .acceptor),
      Session.use .acceptorCallback .mgr, Session.use .sendFile .conn,
      .conn (.sendfile inFd 0 bytes.length (.count bytes.length)), .conn (.callback 0 0),
      Session.use .sendFileCallback .mgr, Session.use .sendFileCallback .client,
      .analysisProtobuf SENDFILESUCC, Session.use .sendFileCallback .mgr,
      Session.use .handleRead .acceptor]
    have hstep : ∃ s, (Session.fileStep { acceptorReady := true } (.handleRead (some channel) inFd
        (some bytes.length) (.count bytes.length))).Yields es s := by
      simp only [Session.fileStep, Session.handleRead, Session.acceptorCallback,
        Session.deleteAcceptor, Session.sendFile, if_true, Traced.bind_assoc, Traced.pure_bind]
      rw [onConn_of_yields hsend rfl]
      exact ⟨_, rfl, rfl⟩
    obtain ⟨s, hstep⟩ := hstep
    refine ⟨es, s, hstep, ?_, rfl⟩
    show (bytes.drop 0).take bytes.length ++ [] = bytes
    rw [List.append_nil, List.drop_zero, List.take_length]
  · obtain ⟨cb, hcb⟩ := Option.ne_none_iff_exists'.mp hcb
    have hkey : DTPClient.keyOf (makeNoticeMsg SENDFILESUCC name) = none := rfl
    have hne : SENDFILESUCC ≠ SENDDATAFLAG ∧ SENDFILESUCC ≠ RECVDATAONUDP := by decide
    rw [DTPClient.analysisProtobuf_of_ne client hne.1 hne.2]
    simp only [DTPClient.notify, hcb, hkey]
    exact ⟨rfl, rfl⟩

/-! ### The receiver -/

/-- A client that hears the offer of a file tells its user the name, and agrees to the offer with
the name. -/
theorem told_fileOffer {msg : ControlMsg} {receiver : DTPClient} (hflag : msg.flag = SENDFILEFLAG)
    (hzero : 0 ∉ msg.fileName) (hshort : msg.fileName.length < FILEPATHSIZE)
    (hcb : receiver.noticeCallback_ ≠ none) (hnew : receiver.mp_ msg.fileName = none) :
    Hears [msg] receiver [.analysisProtobuf msg,
        .act (.notice SENDFILEFLAG (some msg.fileName) receiver.noticeParam_)]
        (told msg.fileName msg receiver) ∧
      ((told msg.fileName msg receiver).agreeRecvFile msg.fileName).Yields [.recvFile msg]
        ((told msg.fileName msg receiver).erase msg.fileName) := by
  have hne : SENDFILEFLAG ≠ RECVDATAONUDP ∧ SENDFILEFLAG ≠ SENDDATAFLAG := by decide
  have hkey : DTPClient.keyOf msg = some msg.fileName := if_pos hflag
  have htold := hears_named hcb (hflag ▸ hne.1) hkey hzero hshort
  rw [noticeParam, if_neg (hflag ▸ hne.2), hflag] at htold
  refine ⟨htold, ?_⟩
  simp only [DTPClient.agreeRecvFile, told_mp_ hnew]
  exact ⟨rfl, rfl⟩

/-- What comes to the disk is what was sent when it comes in one chunk, as it was sent. -/
theorem appends_eq_iff {mem : Memory} {bytes arrived : List UInt8} {first : List (List UInt8)}
    {arrivals : List (List UInt8 × List (List UInt8))} (hne : arrived ≠ [])
    (hcut : Cutting MAXLINE arrived (chunks first arrivals))
    (hlength : arrived.length = bytes.length) :
    appends mem first arrivals = bytes ↔ chunks first arrivals = [bytes] := by
  obtain ⟨chunk, rest, hchunks⟩ := List.exists_cons_of_ne_nil (hcut.ne_nil hne)
  unfold appends
  rw [hchunks] at hcut ⊢
  cases rest with
  | nil => rw [RecvFile.appended_singleton, List.cons.injEq, and_iff_left rfl]
  | cons next rest =>
      -- more is appended than has come in
      have hlt := RecvFile.lt_length_appended (mem.write 0 (List.replicate MAXLINE 0)) chunk rest
        (hcut.nonempty next (List.mem_cons_of_mem _ List.mem_cons_self))
      rw [hcut.flatten, hlength] at hlt
      refine iff_of_false (fun heq => ?_) (by simp)
      rw [heq] at hlt
      exact Nat.lt_irrefl _ hlt

section
variable {κ : Type} {md5 : Md5 κ} {msg : ControlMsg} {receiver : DTPClient} {fd : Int}
  {mem : Memory} {disk : Disk} {bytes arrived : List UInt8} {first : List (List UInt8)}
  {arrivals : List (List UInt8 × List (List UInt8))}

/-- The receive keeps the file if it came in one chunk, as it was sent. -/
theorem exists_fileReception {client : DTPClient} (hsum : msg.checkSum = md5.getMd5 bytes)
    (hoffer : msg.length = bytes.length) (hlt : bytes.length < 2 ^ 31) (hfd : 0 ≤ fd)
    (hne : arrived ≠ []) (hcut : Cutting MAXLINE arrived (chunks first arrivals))
    (hlength : arrived.length = bytes.length) (hshort : (destination msg).length < FILEPATHSIZE)
    (hopens : disk.opens (destination msg) = true)
    (hfresh : disk.content (destination msg) = none)
    (hmd5 : md5.getMd5 (appends mem first arrivals) = md5.getMd5 bytes →
      appends mem first arrivals = bytes) (hcb : client.noticeCallback_ ≠ none) :
    ∃ log s, (RecvFile.reception md5 msg client fd mem disk first arrivals).Yields log s ∧
      s.disk.content (destination msg) =
        (if chunks first arrivals = [bytes] then some bytes else none) ∧
      RecvFile.notices log =
        [if chunks first arrivals = [bytes] then RECVFILESUCC else RECVFILEFAIL] := by
  have hcopy : (cstring msg.checkSum).length < MD5LENTH * 2 + 1 := by
    rw [hsum, cstring_getMd5, length_getMd5]
    exact Nat.lt_succ_self _
  have hint : msg.length ≤ INT_MAX := by
    rw [hoffer]
    unfold INT_MAX
    omega
  -- there is no file before
  have hfile : appends mem first arrivals =
      (disk.content (destination msg)).getD [] ++ appends mem first arrivals := by
    rw [hfresh]
    rfl
  obtain ⟨log, s, hyields, -, hnotices, hstored⟩ := RecvFile.reception_yields client hfd hne
    (hoffer.trans (congrArg _ hlength.symm)) hint hcut hcopy hshort hopens hfile
  have hmatches : Matches md5 msg (appends mem first arrivals) ↔
      chunks first arrivals = [bytes] := by
    rw [matches_iff hsum, ← appends_eq_iff hne hcut hlength]
    exact ⟨hmd5, fun h => congrArg _ h⟩
  refine ⟨log, s, hyields, ?_, ?_⟩
  · rw [hstored]
    by_cases hwell : chunks first arrivals = [bytes]
    · rw [if_pos hwell, if_pos (hmatches.mpr hwell), (appends_eq_iff hne hcut hlength).mpr hwell]
    · rw [if_neg hwell, if_neg (fun h => hwell (hmatches.mp h))]
  · rw [hnotices, if_neg hcb]
    by_cases hwell : chunks first arrivals = [bytes]
    · rw [if_pos hwell, if_pos (hmatches.mpr hwell)]
    · rw [if_neg hwell, if_neg (fun h => hwell (hmatches.mp h))]

end

/-! ### The result -/

/-- A user whose client 7 is registered. -/
def oneClient : Sender where
  mul := { connMp_ := fun conn =>
    if conn = 1 then some fun id => if id = 3 then some 7 else none else none }

/-- Every call of the system succeeds, and the file holds one byte. -/
def fileCalls : FileCalls :=
  { socket := 5, bind := true, listen := true, getsockname := some 2000, sin_port := 0
    stat := some 1, st_size := 0, file := some [0x61] }

theorem oneClient_ready :
    FileReady 1 3 7 [0x61, 0x2f, 0x66] [0x66] 0 [0x61] fileCalls oneClient where
  registered := rfl
  peerId := by constructor <;> decide
  filePath_lt := by decide
  name_eq := by decide
  text := Wire.utf8_of_ascii (by simp)
  stat := rfl
  file := rfl
  ne_nil := by decide
  length_lt := by decide
  length := .inl rfl

end Ndsl.Proofs.Exchange
