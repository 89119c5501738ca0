import Ndsl.Net.Sending

/-!
# `Ndsl.Proofs.Sending.Cases`: what the calls that begin a transfer do

One inversion lemma for each function of `Ndsl.Net.Sending`: what a call has done that has returned,
and the state that it has left. Everything else about these functions is derived from them.
-/

set_option autoImplicit false

namespace Ndsl.Proofs.Sending

open Ndsl.Lib
open Ndsl.Net
open Ndsl.Net.Dtp
open Ndsl.Net.Registry (Client Conn)
open Ndsl.Net.Sending
open Ndsl.Net.Tcp (IoResult)

variable {κ : Type} {md5 : Md5 κ} {s s' : Sender} {es : List Event}

/-! ### Data -/

/-- The bytes that a call of `read` gives. -/
def Reads (s : Sender) (sendBuf : Option DataPtr) (n : Nat) (bytes : List UInt8) : Prop :=
  n = 0 ∧ bytes = [] ∨
    n ≠ 0 ∧ ∃ all, sendBuf.bind s.data = some all ∧ n ≤ all.length ∧ bytes = all.take n

theorem read_yields {sendBuf : Option DataPtr} {n : Nat} {bytes : List UInt8} :
    (s.read sendBuf n).Yields es bytes ↔ es = [] ∧ Reads s sendBuf n bytes := by
  unfold Sender.read Reads
  by_cases hn : n = 0
  · rw [if_pos hn, Traced.pure_yields]
    simp [hn, eq_comm]
  · rw [if_neg hn]
    cases hdata : sendBuf.bind s.data with
    | none => simp [hn]
    | some all =>
        by_cases hle : n ≤ all.length
        · simp only [if_pos hle, Traced.pure_yields]
          simp [hn, hle, eq_comm]
        · simp [hn, hle]

/-- What `crc` reads is there. -/
theorem crc_yields {sendBuf : Option DataPtr} {length : Int} {c : Nat} :
    (DTP.crc sendBuf length s).Yields es c ↔ es = [] ∧ ∃ bytes,
      Reads s sendBuf (length % 2 ^ 32).toNat bytes ∧ c = (getCRC16_CCITT bytes).toNat := by
  unfold DTP.crc
  rw [Traced.bind_yields]
  constructor
  · rintro ⟨fs, bytes, gs, hread, hpure, rfl⟩
    obtain ⟨rfl, hreads⟩ := read_yields.mp hread
    obtain ⟨rfl, rfl⟩ := (Traced.pure_yields ..).mp hpure
    exact ⟨rfl, bytes, hreads, rfl⟩
  · rintro ⟨rfl, bytes, hreads, rfl⟩
    exact ⟨[], bytes, [], read_yields.mpr ⟨rfl, hreads⟩,
      (Traced.pure_yields ..).mpr ⟨rfl, rfl⟩, rfl⟩

theorem string_yields {sendBuf : Option DataPtr} {value : List UInt8} :
    (s.string sendBuf).Yields es value ↔
      es = [] ∧ ∃ all, sendBuf.bind s.data = some all ∧ 0 ∈ all ∧ value = cstring all := by
  unfold Sender.string
  cases hdata : sendBuf.bind s.data with
  | none => simp
  | some all =>
      by_cases hzero : 0 ∈ all
      · simp only [if_pos hzero, Traced.pure_yields]
        simp [hzero, eq_comm]
      · simp [hzero]

/-- The state that `insert` leaves, when the copy would be `value`. -/
def inserted (client : Client) (dataId value : List UInt8) (s : Sender) : Sender :=
  match s.find client dataId with
  | some _ => s
  | none => { s with nodes := s.nodes ++ [{ client := client, dataId := dataId, value := value }] }

theorem insert_yields {client : Client} {dataId : List UInt8} {sendBuf : Option DataPtr} :
    (s.insert client dataId sendBuf).Yields es s' ↔
      ∃ value, (s.string sendBuf).Yields es value ∧ s' = inserted client dataId value s := by
  unfold Sender.insert inserted
  rw [Traced.bind_yields]
  constructor
  · rintro ⟨fs, value, gs, hstring, hrest, rfl⟩
    refine ⟨value, ?_⟩
    cases hfind : s.find client dataId with
    | none =>
        rw [hfind] at hrest
        obtain ⟨rfl, rfl⟩ := (Traced.pure_yields ..).mp hrest
        rw [List.append_nil]
        exact ⟨hstring, rfl⟩
    | some n =>
        rw [hfind] at hrest
        obtain ⟨rfl, rfl⟩ := (Traced.pure_yields ..).mp hrest
        rw [List.append_nil]
        exact ⟨hstring, rfl⟩
  · rintro ⟨value, hstring, rfl⟩
    refine ⟨es, value, [], hstring, ?_, (List.append_nil es).symm⟩
    cases hfind : s.find client dataId with
    | none => exact (Traced.pure_yields ..).mpr ⟨rfl, rfl⟩
    | some n => exact (Traced.pure_yields ..).mpr ⟨rfl, rfl⟩

/-! ### `DTP` -/

/-- What the start of a listener does. -/
def started (sys : ListenCalls) : List Event :=
  if createAndListen sys < 0 then [.newAcceptor] else [.newAcceptor, .enrollIn]

theorem start_yields {sys : ListenCalls} {ret : Int} (h : (start sys).Yields es ret) :
    es = started sys := by
  unfold start at h
  rw [Traced.tell_bind_yields] at h
  obtain ⟨fs, h, rfl⟩ := h
  unfold started
  split at h
  · next hfail =>
      obtain ⟨rfl, -⟩ := (Traced.pure_yields ..).mp h
      rw [if_pos hfail]
      rfl
  · next hok =>
      obtain ⟨rfl, -⟩ := (Traced.tell_pure_yields ..).mp h
      rw [if_neg hok]
      rfl

theorem newAcceptor_mem_started (sys : ListenCalls) : .newAcceptor ∈ started sys := by
  unfold started
  split <;> exact List.mem_cons_self ..

/-- A call of `sendFile` that returns has made everything, and has sent an offer with the name that
`getFileName` gives. -/
theorem sendFile_cases {sys : FileCalls} {conn : Conn} {peerId : Int} {filePath : List UInt8}
    {length : Int} {client : Client} {r : Int × Sender}
    (h : (DTP.sendFile md5 sys conn peerId filePath length client s).Yields es r) :
    r = (S_OK, { s with
        listenMgrs := s.listenMgrs ++ [{ filePath_ := cstring filePath, client_ := client }] }) ∧
      ∃ msg, (∃ sum fileName size, getFileName filePath = some fileName ∧
          msg = makeControlMsg SENDFILEFLAG peerId RDMA_IP (port sys.toListenCalls) sum fileName
            size) ∧
        es = started sys.toListenCalls ++
          [.newConnection, .newSession client, .runAfter, .sendMessage conn 0 msg] := by
  unfold DTP.sendFile at h
  dsimp only at h
  obtain ⟨fs, ret, gs, hstart, hrest, rfl⟩ := Traced.bind_yields.mp h
  rw [start_yields hstart]
  rw [Traced.tell_bind_yields] at hrest
  obtain ⟨hs, hcopied, rfl⟩ := hrest
  split at hcopied
  · -- the path does not fit its block
    exact absurd hcopied (Traced.fault_yields _ _)
  · rw [Traced.tell_bind_yields] at hcopied
    obtain ⟨is, hnamed, rfl⟩ := hcopied
    split at hnamed
    · -- the path has no name behind a slash
      exact absurd hnamed (Traced.fault_yields _ _)
    · next fileName hname =>
      obtain ⟨rfl, rfl⟩ := (Traced.tell_pure_yields ..).mp hnamed
      exact ⟨rfl, _, ⟨_, fileName, _, hname, rfl⟩, rfl⟩

theorem recvFile_cases {conn : Conn} {peerId : Int} {filename : List UInt8} {client : Client}
    {r : Int × Sender} (h : (DTP.recvFile conn peerId filename client s).Yields es r) :
    ∃ requests timeMp_, r = (S_OK, { s with requests := requests, timeMp_ := timeMp_ }) := by
  unfold DTP.recvFile at h
  rw [Traced.tell_bind_yields] at h
  obtain ⟨fs, h, rfl⟩ := h
  obtain ⟨rfl, rfl⟩ := (Traced.tell_pure_yields ..).mp h
  exact ⟨_, _, rfl⟩

/-- A call of `sendData` that returns has read the block, and has made a record. -/
theorem sendData_cases {sys : DataCalls} {conn : Conn} {peerId : Int} {sendBuf : Option DataPtr}
    {length : Int} {client : Client} {dataId : List UInt8} {flag : Int} {r : Int × Sender}
    (h : (DTP.sendData sys conn peerId sendBuf length client dataId flag s).Yields es r) :
    (∃ bytes, Reads s sendBuf (length % 2 ^ 32).toNat bytes) ∧
      r = (S_OK, { s with
        dataListenMgrs := s.dataListenMgrs ++
          [{ buffer_ := sendBuf, client_ := client, length_ := length, dataId_ := dataId }] }) := by
  unfold DTP.sendData at h
  rw [Traced.tell_bind_yields] at h
  obtain ⟨fs, h, rfl⟩ := h
  obtain ⟨gs, port, hs, -, hlistens, rfl⟩ := Traced.bind_yields.mp h
  rw [Traced.tell_bind_yields] at hlistens
  obtain ⟨is, htimed, rfl⟩ := hlistens
  obtain ⟨js, c, ks, hcrc, hsent, rfl⟩ := Traced.bind_yields.mp htimed
  obtain ⟨rfl, bytes, hreads, rfl⟩ := crc_yields.mp hcrc
  obtain ⟨rfl, rfl⟩ := (Traced.tell_pure_yields ..).mp hsent
  exact ⟨⟨bytes, hreads⟩, rfl⟩

/-- Whatever the system does, there is a port to offer. -/
theorem listenForData_returns (sys : DataCalls) (flag : Int) :
    ∃ es port, (DTP.listenForData sys flag).Yields es port := by
  unfold DTP.listenForData
  split
  · have hstart : ∃ es ret, (start sys.toListenCalls).Yields es ret := by
      unfold start
      split
      · exact ⟨_, _, rfl, rfl⟩
      · exact ⟨_, _, rfl, rfl⟩
    obtain ⟨es, ret, hstart⟩ := hstart
    rw [hstart.eq_tell_bind]
    exact ⟨_, _, rfl, rfl⟩
  · exact ⟨_, _, rfl, rfl⟩

/-- A call of `sendData` returns when the block can be read. -/
theorem sendData_returns {sendBuf : Option DataPtr} {length : Int} {bytes : List UInt8}
    (hreads : Reads s sendBuf (length % 2 ^ 32).toNat bytes) (sys : DataCalls) (conn : Conn)
    (peerId : Int) (client : Client) (dataId : List UInt8) (flag : Int) :
    ∃ es r, (DTP.sendData sys conn peerId sendBuf length client dataId flag s).Yields es r := by
  obtain ⟨fs, port, hlisten⟩ := listenForData_returns sys flag
  have hcrc := crc_yields.mpr ⟨rfl, bytes, hreads, rfl⟩
  -- both halves that can stop are replaced by what they do
  unfold DTP.sendData
  simp only [hlisten.eq_tell_bind, hcrc.eq_tell_bind]
  exact ⟨_, _, rfl, rfl⟩

theorem acceptorCallbackOfSendData_yields {mgr : Nat} :
    (DTP.acceptorCallbackOfSendData mgr s).Yields es s' ↔
      s' = s ∧ ∃ m bytes, s.dataListenMgrs[mgr]? = some m ∧ m.stage = .listens ∧
        Reads s m.buffer_ (toSize m.length_) bytes ∧ es = [.onSend mgr bytes] := by
  unfold DTP.acceptorCallbackOfSendData
  cases hm : s.dataListenMgrs[mgr]? with
  | none => simp
  | some m =>
      cases hstage : m.stage with
      | listens =>
          simp only [hstage]
          rw [Traced.bind_yields]
          constructor
          · rintro ⟨fs, bytes, gs, hread, h, rfl⟩
            obtain ⟨rfl, hreads⟩ := read_yields.mp hread
            obtain ⟨rfl, rfl⟩ := (Traced.tell_pure_yields ..).mp h
            exact ⟨rfl, m, bytes, rfl, hstage, hreads, rfl⟩
          · rintro ⟨rfl, m', bytes, hm', -, hreads, rfl⟩
            obtain rfl := Option.some.inj hm'
            exact ⟨[], bytes, _, read_yields.mpr ⟨rfl, hreads⟩,
              (Traced.tell_pure_yields ..).mpr ⟨rfl, rfl⟩, rfl⟩
      | connected | finished | deleted | freed => simp [hstage]

/-! ### Stages -/

/-- The record of a file that a step moves to another stage. -/
def movesFile : Op → Option Nat
  | .stopListen mgr => some mgr
  | .acceptorCallback mgr => some mgr
  | .sendFileCallback mgr => some mgr
  | .senfFileClearMemory mgr => some mgr
  | _ => none

/-- The record of a block that a step moves to another stage. -/
def movesData : Op → Option Nat
  | .stopListenOfData mgr => some mgr
  | .sendDataCallback mgr => some mgr
  | _ => none

theorem setStage_of_pure {x : Sender} (h : (pure x : Traced Event Sender).Yields es s') : s' = x :=
  ((Traced.pure_yields ..).mp h).2.symm

/-- A step that moves the transfer of a file changes its stage, or nothing. -/
theorem movesFile_cases {op : Op} {mgr : Nat} (hmoves : movesFile op = some mgr)
    (h : (step md5 s op).Yields es s') : s' = s ∨ ∃ stage, s' = s.setStage mgr stage := by
  cases op with
  | stopListen k =>
      obtain rfl := Option.some.inj hmoves
      change (DTP.stopListen k s).Yields es s' at h
      unfold DTP.stopListen at h
      split at h
      · exact .inr ⟨_, setStage_of_pure h⟩
      · exact .inl (setStage_of_pure h)
      · exact .inl (setStage_of_pure h)
      · exact absurd h (Traced.fault_yields _ _)
  | acceptorCallback k =>
      obtain rfl := Option.some.inj hmoves
      change (DTP.acceptorCallback k s).Yields es s' at h
      unfold DTP.acceptorCallback at h
      split at h
      · exact absurd h (Traced.fault_yields _ _)
      split at h
      · exact .inr ⟨_, ((Traced.tell_pure_yields ..).mp h).2.symm⟩
      · exact absurd h (Traced.fault_yields _ _)
  | sendFileCallback k =>
      obtain rfl := Option.some.inj hmoves
      change (DTP.sendFileCallback k s).Yields es s' at h
      unfold DTP.sendFileCallback at h
      split at h
      · exact absurd h (Traced.fault_yields _ _)
      split at h
      · obtain ⟨fs, hrest, -⟩ := (Traced.tell_bind_yields ..).mp h
        split at hrest
        · exact absurd hrest (Traced.fault_yields _ _)
        · exact .inr ⟨_, ((Traced.tell_pure_yields ..).mp hrest).2.symm⟩
      · exact absurd h (Traced.fault_yields _ _)
  | senfFileClearMemory k =>
      obtain rfl := Option.some.inj hmoves
      change (DTP.senfFileClearMemory k s).Yields es s' at h
      unfold DTP.senfFileClearMemory at h
      split at h
      · exact .inr ⟨_, setStage_of_pure h⟩
      · exact absurd h (Traced.fault_yields _ _)
  | _ => exact absurd hmoves.symm (Option.some_ne_none _)

/-- A step that moves the transfer of a block changes its stage, or nothing. -/
theorem movesData_cases {op : Op} {mgr : Nat} (hmoves : movesData op = some mgr)
    (h : (step md5 s op).Yields es s') : s' = s ∨ ∃ stage, s' = s.setDataStage mgr stage := by
  cases op with
  | stopListenOfData k =>
      obtain rfl := Option.some.inj hmoves
      change (DTP.stopListenOfData k s).Yields es s' at h
      unfold DTP.stopListenOfData at h
      split at h
      · exact .inr ⟨_, setStage_of_pure h⟩
      · exact .inl (setStage_of_pure h)
      · exact absurd h (Traced.fault_yields _ _)
  | sendDataCallback k =>
      obtain rfl := Option.some.inj hmoves
      change (DTP.sendDataCallback k s).Yields es s' at h
      unfold DTP.sendDataCallback at h
      split at h
      · exact absurd h (Traced.fault_yields _ _)
      split at h
      · obtain ⟨fs, hrest, -⟩ := (Traced.tell_bind_yields ..).mp h
        split at hrest
        · exact absurd hrest (Traced.fault_yields _ _)
        · exact .inr ⟨_, ((Traced.tell_pure_yields ..).mp hrest).2.symm⟩
      · exact absurd h (Traced.fault_yields _ _)
  | _ => exact absurd hmoves.symm (Option.some_ne_none _)

/-! ### Datagrams -/

/-- What `sendDataOnUdp` is called with, as a record. -/
def udpInfo (sendBuf : Option DataPtr) (length : Int) (client : Client) : UdpInfo :=
  { sendBuf_ := sendBuf, length_ := length, dtpClient_ := client }

/-- An entry of `udpDataMp_` that is there already stays. -/
theorem sendDataOnUdp_cases {conn : Conn} {peerId : Int} {sendBuf : Option DataPtr}
    {length : Int} {client : Client} {dataId : List UInt8} {r : Int × Sender}
    (h : (DTP.sendDataOnUdp conn peerId sendBuf length client dataId s).Yields es r) :
    r.2 = { s with
      udpDataMp_ := Function.update s.udpDataMp_ (cstring dataId)
        ((s.udpDataMp_ (cstring dataId)).or (some (udpInfo sendBuf length client))) } := by
  unfold DTP.sendDataOnUdp at h
  rw [Traced.tell_bind_yields] at h
  obtain ⟨fs, h, rfl⟩ := h
  dsimp only at h
  obtain ⟨gs, c, hs, -, hsent, rfl⟩ := Traced.bind_yields.mp h
  obtain ⟨rfl, rfl⟩ := (Traced.tell_pure_yields ..).mp hsent
  rfl

/-- A client leads to the loop of its connection. -/
structure Connected (s : Sender) (client : Client) : Prop where
  alive : s.alive client = true
  entity_ : s.entity_ client = true

/-- What is done to send a datagram. -/
def answering (msg : ControlMsg) (info : UdpInfo) (n : IoResult) : List Event :=
  [.udpInfo, .client info.dtpClient_, .sendto msg.ip msg.dataPort info.sendBuf_ info.length_ n]

theorem answerOnUdp_yields {ip : List UInt8} {port : Int} {info : UdpInfo} {n : IoResult} :
    (DTP.answerOnUdp ip port info n s).Yields es s' ↔
      s' = s ∧ Connected s info.dtpClient_ ∧
        es = [.client info.dtpClient_, .sendto ip port info.sendBuf_ info.length_ n] := by
  unfold DTP.answerOnUdp
  rw [Traced.tell_bind_yields]
  by_cases hdead : s.alive info.dtpClient_ = false ∨ s.entity_ info.dtpClient_ = false
  · rw [if_pos hdead]
    constructor
    · rintro ⟨fs, hfault, -⟩
      exact absurd hfault (Traced.fault_yields _ _)
    · rintro ⟨-, hconnected, -⟩
      rcases hdead with hdead | hdead
      · exact absurd (hdead.symm.trans hconnected.alive) Bool.false_ne_true
      · exact absurd (hdead.symm.trans hconnected.entity_) Bool.false_ne_true
  · rw [if_neg hdead]
    obtain ⟨halive, hentity⟩ := not_or.mp hdead
    constructor
    · rintro ⟨fs, hsent, rfl⟩
      obtain ⟨rfl, rfl⟩ := (Traced.tell_pure_yields ..).mp hsent
      exact ⟨rfl, ⟨Bool.not_eq_false _ ▸ halive, Bool.not_eq_false _ ▸ hentity⟩, rfl⟩
    · rintro ⟨rfl, -, rfl⟩
      exact ⟨_, (Traced.tell_pure_yields ..).mpr ⟨rfl, rfl⟩, rfl⟩

/-- A message that asks for a datagram changes nothing. -/
theorem analysisProtobuf_yields {uninit : Option UdpInfo} {n : IoResult} {msg : ControlMsg} :
    (analysisProtobuf uninit n msg s).Yields es s' ↔
      s' = s ∧ ∃ info, (s.udpDataMp_ msg.dataId).or uninit = some info ∧
        Connected s info.dtpClient_ ∧ es = answering msg info n := by
  have hanswer : ∀ info : UdpInfo,
      (∃ gs, (DTP.answerOnUdp msg.ip msg.dataPort info n s).Yields gs s' ∧
          es = [.udpInfo] ++ gs) ↔
        s' = s ∧ ∃ info', some info = some info' ∧ Connected s info'.dtpClient_ ∧
          es = answering msg info' n := by
    intro info
    simp only [answerOnUdp_yields, Option.some.injEq, exists_eq_left']
    constructor
    · rintro ⟨gs, ⟨rfl, hconnected, rfl⟩, rfl⟩
      exact ⟨rfl, hconnected, rfl⟩
    · rintro ⟨rfl, hconnected, rfl⟩
      exact ⟨_, ⟨rfl, hconnected, rfl⟩, rfl⟩
  unfold analysisProtobuf
  dsimp only
  rw [Traced.tell_bind_yields]
  cases hfound : s.udpDataMp_ msg.dataId with
  | some info => exact hanswer info
  | none =>
      cases uninit with
      | none => simp
      | some info => exact hanswer info

/-! ### `Multiplexer` -/

/-- The client of a connection and an id that are registered. -/
theorem findClient_of_lookup {client : Client} {conn : Conn} {peerId : Int}
    (h : s.mul.lookup conn peerId = some client) (uninit : Client) :
    Multiplexer.findClient uninit conn peerId s = client := by
  unfold Registry.Multiplexer.lookup at h
  obtain ⟨mp, hmp, hclient⟩ := Option.bind_eq_some_iff.mp h
  simp only [Multiplexer.findClient, hmp, hclient]

theorem mulSendFile_cases {uninit : Client} {sys : FileCalls} {conn : Conn} {peerId : Int}
    {filePath : List UInt8} {length : Int}
    (h : (Multiplexer.sendFile md5 uninit sys conn peerId filePath length s).Yields es s') :
    ∃ listenMgrs, s' = { s with listenMgrs := listenMgrs } := by
  unfold Multiplexer.sendFile at h
  dsimp only at h
  obtain ⟨fs, r, gs, hsend, hrest, rfl⟩ := Traced.bind_yields.mp h
  obtain ⟨rfl, -⟩ := sendFile_cases hsend
  obtain ⟨-, rfl⟩ := (Traced.pure_yields ..).mp hrest
  exact ⟨_, rfl⟩

theorem mulRecvFile_cases {uninit : Client} {conn : Conn} {peerId : Int} {filename : List UInt8}
    (h : (Multiplexer.recvFile uninit conn peerId filename s).Yields es s') :
    ∃ requests timeMp_, s' = { s with requests := requests, timeMp_ := timeMp_ } := by
  unfold Multiplexer.recvFile at h
  dsimp only at h
  obtain ⟨fs, r, gs, hrecv, hrest, rfl⟩ := Traced.bind_yields.mp h
  obtain ⟨requests, timeMp_, rfl⟩ := recvFile_cases hrecv
  obtain ⟨-, rfl⟩ := (Traced.pure_yields ..).mp hrest
  exact ⟨requests, timeMp_, rfl⟩

/-- A block that is sent over TCP or RDMA is copied, unless there is a copy under its id, and a
record is made. Over UDP an entry of `udpDataMp_` is made, unless there is one. -/
theorem mulSendData_cases {uninit : Client} {guid : List UInt8} {sys : DataCalls} {conn : Conn}
    {peerId : Int} {sendBuf : Option DataPtr} {length : Int} {dataId : Option (List UInt8)}
    {flag : Int} (h : (Multiplexer.sendData uninit guid sys conn peerId sendBuf length dataId flag
      s).Yields es s') :
    let client := Multiplexer.findClient uninit conn peerId s
    let id := cstring (dataId.getD guid)
    let buffer_ := Multiplexer.resent client id sendBuf s
    ((flag = TCP ∨ flag = RDMA) ∧ s.alive client = true ∧ ∃ all bytes,
      buffer_.bind s.data = some all ∧ 0 ∈ all ∧
      Reads (inserted client id (cstring all) s) buffer_ (length % 2 ^ 32).toNat bytes ∧
      s' = { inserted client id (cstring all) s with
        dataListenMgrs := (inserted client id (cstring all) s).dataListenMgrs ++
          [{ buffer_ := buffer_, client_ := client, length_ := length, dataId_ := id }] }) ∨
    (¬ (flag = TCP ∨ flag = RDMA) ∧
      s' = { s with
        udpDataMp_ := Function.update s.udpDataMp_ id
          ((s.udpDataMp_ id).or (some (udpInfo sendBuf length client))) }) := by
  unfold Multiplexer.sendData at h
  dsimp only at h ⊢
  split at h
  · next hflag =>
      rw [Traced.tell_bind_yields] at h
      obtain ⟨fs, hcall, rfl⟩ := h
      split at hcall
      · -- the client was deleted
        exact absurd hcall (Traced.fault_yields _ _)
      · next halive =>
          -- the copy is made before `DTP::sendData` reads the block
          obtain ⟨gs, t, hs, hinsert, hrest, rfl⟩ := Traced.bind_yields.mp hcall
          obtain ⟨value, hstring, rfl⟩ := insert_yields.mp hinsert
          obtain ⟨rfl, all, hall, hzero, rfl⟩ := string_yields.mp hstring
          obtain ⟨is, r, js, hsend, hpure, rfl⟩ := Traced.bind_yields.mp hrest
          obtain ⟨⟨bytes, hreads⟩, rfl⟩ := sendData_cases hsend
          obtain ⟨-, rfl⟩ := (Traced.pure_yields ..).mp hpure
          exact .inl ⟨hflag, eq_true_of_ne_false halive, all, bytes, hall, hzero, hreads,
            rfl⟩
  · next hflag =>
      obtain ⟨fs, r, gs, hsend, hrest, rfl⟩ := Traced.bind_yields.mp h
      have hr := sendDataOnUdp_cases hsend
      rw [cstring_cstring] at hr
      obtain ⟨-, rfl⟩ := (Traced.pure_yields ..).mp hrest
      exact .inr ⟨hflag, hr⟩

/-- A checksum that is zero, for examples. -/
def zeroMd5 : Md5 Unit where
  init := ()
  update := fun _ _ => ()
  final := fun _ _ => 0

end Ndsl.Proofs.Sending
