import Ndsl.Proofs.Exchange.Messages
import Ndsl.Proofs.Sending.Entries

/-!
# `Ndsl.Proofs.Exchange.Offering`: offering a block

The sender's half of an exchange. `sendData` sends one message, which describes the block
(`sendData_yields`). Its record stays, and so does the block, and whoever connects to the listener
of the record is sent the block (`onSend_run`). The listener is there until the timer deletes it, or
the block was sent, and then the user of the client is told so.

The block is the user's. It stays as it is until it was sent.
-/

set_option autoImplicit false

namespace Ndsl.Proofs.Exchange

open Ndsl.Lib
open Ndsl.Lib.Wire (IsInt32)
open Ndsl.Net
open Ndsl.Net.Dtp
open Ndsl.Net.Registry (Client Conn)
open Ndsl.Net.Sending
open Ndsl.Proofs.Delivers (Sendable)
open Ndsl.Proofs.Sending

/-! ### Statements -/

/-- The messages of a trace, with where they go. -/
def messages (es : List Event) : List (Conn × Int × ControlMsg) :=
  es.filterMap fun
    | .sendMessage conn id msg => some (conn, id, msg)
    | _ => none

@[simp] theorem messages_append (es fs : List Event) :
    messages (es ++ fs) = messages es ++ messages fs := List.filterMap_append

/-- A block of the user that can be offered under an id, for the client of a peer. -/
structure Offerable (conn : Conn) (peerId : Int) (client : Client) (block : Nat) (length : Int)
    (id : List UInt8) (s : Sender) : Prop where
  registered : s.mul.lookup conn peerId = some client
  length_pos : 0 < length
  length_lt : length < 2 ^ 31
  length_le : length.toNat ≤ (s.blocks block).length
  peerId : IsInt32 peerId
  string : 0 ∉ id
  id_lt : id.length < FILEPATHSIZE

/-- A block that can be offered over TCP. A copy of it is kept by the client, as a string, which is
to end. -/
structure Ready (conn : Conn) (peerId : Int) (client : Client) (block : Nat) (length : Int)
    (id : List UInt8) (s : Sender) : Prop extends
    Offerable conn peerId client block length id s where
  alive : s.alive client = true
  zero : 0 ∈ s.blocks block

/-- The bytes of a block that are sent. -/
def content (block : Nat) (length : Int) (s : Sender) : List UInt8 :=
  (s.blocks block).take length.toNat

/-- The offer of a block over TCP. -/
def offer (sys : DataCalls) (peerId length : Int) (id bytes : List UInt8) : ControlMsg :=
  makeDataControlMsg SENDDATAFLAG peerId (some RDMA_IP) (port sys.toListenCalls)
    (getCRC16_CCITT bytes).toNat length id

/-- A call returns, and has sent one message. The listener of its record is there until the record
moves on, whenever a peer connects to the listener the peer is sent the bytes, and when they were
sent the client makes a notice of it. -/
def Offers {κ : Type} (md5 : Md5 κ) (conn : Conn) (k : Nat) (client : Client) (msg : ControlMsg)
    (bytes : List UInt8) (x : Traced Event Sender) : Prop :=
  ∃ es s, x.Yields es s ∧ messages es = [(conn, 0, msg)] ∧
    ∀ (ops : List Op) log t, (ops.foldlM (step md5) s).Yields log t →
      ((∀ op ∈ ops, movesData op ≠ some k) → Listens t k) ∧
      (Listens t k → (DTP.acceptorCallbackOfSendData k t).Yields [.onSend k bytes] t) ∧
      (Listens t k → t.alive client = true → (DTP.sendDataCallback k t).Yields
        [.client client, .notice client (RecvData.makeDataNoticeMsg SENDDATASUCC msg.dataId)]
        (t.setDataStage k .finished))

/-! ### The call -/

section
variable {κ : Type} {md5 : Md5 κ} {s s' : Sender} {es : List Event}

theorem messages_started (sys : ListenCalls) : messages (started sys) = [] := by
  unfold started
  split <;> rfl

theorem start_returns (sys : ListenCalls) : ∃ ret, (start sys).Yields (started sys) ret := by
  unfold start started
  split
  next => exact ⟨_, rfl, rfl⟩
  next => exact ⟨_, rfl, rfl⟩

/-- A listener offers its port, also when it could not be started. -/
theorem listenForData_yields (sys : DataCalls) :
    (DTP.listenForData sys TCP).Yields (started sys.toListenCalls ++ [.newConnection])
      (port sys.toListenCalls) := by
  obtain ⟨ret, hstart⟩ := start_returns sys.toListenCalls
  rw [DTP.listenForData, if_pos rfl]
  exact Traced.bind_yields.mpr ⟨_, ret, _, hstart,
    (Traced.tell_pure_yields ..).mpr ⟨rfl, rfl⟩, rfl⟩

/-- The record of a block of the user. -/
def record (client : Client) (block : Nat) (length : Int) (id : List UInt8) : DataListenMgr :=
  { buffer_ := some (.user block), client_ := client, length_ := length, dataId_ := id }

theorem dtpSendData_yields {block : Nat} {length : Int} {bytes : List UInt8}
    (hreads : Reads s (some (.user block)) (length % 2 ^ 32).toNat bytes) (sys : DataCalls)
    (conn : Conn) (peerId : Int) (client : Client) (id : List UInt8) :
    ∃ es, (DTP.sendData sys conn peerId (some (.user block)) length client id TCP s).Yields es
        (S_OK, { s with dataListenMgrs := s.dataListenMgrs ++ [record client block length id] }) ∧
      messages es = [(conn, 0, offer sys peerId length id bytes)] := by
  have hlisten := listenForData_yields sys
  have hcrc := crc_yields.mpr ⟨rfl, bytes, hreads, rfl⟩
  refine ⟨_, (Traced.tell_bind_yields ..).mpr ⟨_, Traced.bind_yields.mpr ⟨_, _, _, hlisten,
    (Traced.tell_bind_yields ..).mpr ⟨_, Traced.bind_yields.mpr ⟨_, _, _, hcrc,
      (Traced.tell_pure_yields ..).mpr ⟨rfl, rfl⟩, rfl⟩, rfl⟩, rfl⟩, rfl⟩, ?_⟩
  rw [messages_append, messages_append, messages_append, messages_started]
  rfl

theorem Offerable.length_content {conn : Conn} {peerId : Int} {client : Client} {block : Nat}
    {length : Int} {id : List UInt8} (h : Offerable conn peerId client block length id s) :
    ((content block length s).length : Int) = length := by
  have hpos := h.length_pos
  have hle := h.length_le
  rw [content, List.length_take]
  omega

/-- What the checksum reads is what is sent. -/
theorem Offerable.reads {conn : Conn} {peerId : Int} {client : Client} {block : Nat}
    {length : Int} {id : List UInt8} (h : Offerable conn peerId client block length id s)
    {count : Nat}
    (hcount : count = length.toNat) (hblocks : s'.blocks = s.blocks) :
    Reads s' (some (.user block)) count (content block length s) := by
  have hpos := h.length_pos
  refine .inr ⟨by omega, s'.blocks block, rfl, ?_, ?_⟩
  · rw [hblocks, hcount]
    exact h.length_le
  · rw [hblocks, hcount, content]

theorem inserted_blocks (client : Client) (dataId value : List UInt8) (s : Sender) :
    (inserted client dataId value s).blocks = s.blocks := by
  unfold inserted
  split <;> rfl

/-- A block is offered with one message, and its record is the last one. -/
theorem sendData_yields {conn : Conn} {peerId : Int} {client : Client} {block : Nat}
    {length : Int} {id : List UInt8} (h : Ready conn peerId client block length id s)
    {dataId : Option (List UInt8)} {guid : List UInt8} (hid : cstring (dataId.getD guid) = id)
    (uninit : Client) (sys : DataCalls) :
    ∃ es s', (Multiplexer.sendData uninit guid sys conn peerId (some (.user block)) length dataId
        TCP s).Yields es s' ∧
      messages es = [(conn, 0, offer sys peerId length id (content block length s))] ∧
      s'.dataListenMgrs[s.dataListenMgrs.length]? = some (record client block length id) ∧
      s'.blocks = s.blocks := by
  have hclient := findClient_of_lookup h.registered uninit
  -- the copy under the id
  let copied := inserted client id (cstring (s.blocks block)) s
  have hinsert : (s.insert client id (some (.user block))).Yields [] copied :=
    insert_yields.mpr ⟨_, string_yields.mpr ⟨rfl, s.blocks block, rfl, h.zero, rfl⟩, rfl⟩
  have hcount : (length % 2 ^ 32).toNat = length.toNat := by
    have hpos := h.length_pos
    have hlt := h.length_lt
    omega
  -- and then the offer
  obtain ⟨es, hsend, hmessages⟩ := dtpSendData_yields
    (h.reads hcount (inserted_blocks client id (cstring (s.blocks block)) s)) sys conn peerId
    client id
  refine ⟨[.client client] ++ ([] ++ (es ++ [])), { copied with
    dataListenMgrs := copied.dataListenMgrs ++ [record client block length id] }, ?_, ?_, ?_, ?_⟩
  · unfold Multiplexer.sendData
    dsimp only
    rw [if_pos (.inl rfl), hid, hclient, if_neg (by rw [h.alive]; decide)]
    refine (Traced.tell_bind_yields ..).mpr
      ⟨_, Traced.bind_yields.mpr ⟨[], copied, _, hinsert, ?_, rfl⟩, rfl⟩
    exact Traced.bind_yields.mpr ⟨es, _, [], hsend, (Traced.pure_yields ..).mpr ⟨rfl, rfl⟩, rfl⟩
  · rw [messages_append, List.nil_append, List.append_nil, hmessages]
    rfl
  · show (copied.dataListenMgrs ++ [record client block length id])[_]? = _
    rw [inserted_dataListenMgrs]
    exact List.getElem?_concat_length
  · exact inserted_blocks client id (cstring (s.blocks block)) s

/-! ### Later -/

/-- No step changes the blocks of the user. -/
theorem step_blocks {op : Op} (h : (step md5 s op).Yields es s') : s'.blocks = s.blocks := by
  cases op with
  | sendFile uninit sys conn peerId filePath length =>
      obtain ⟨listenMgrs, rfl⟩ := mulSendFile_cases h
      rfl
  | recvFile uninit conn peerId filename =>
      obtain ⟨requests, timeMp_, rfl⟩ := mulRecvFile_cases h
      rfl
  | sendData uninit guid sys conn peerId sendBuf length dataId flag =>
      obtain ⟨-, -, all, bytes, -, -, -, rfl⟩ | ⟨-, rfl⟩ := mulSendData_cases h
      · exact inserted_blocks ..
      · rfl
  | sendDataOnUdp conn peerId sendBuf length client dataId =>
      obtain ⟨fs, r, gs, hsend, hrest, -⟩ := Traced.bind_yields.mp h
      have hr := sendDataOnUdp_cases hsend
      obtain ⟨-, rfl⟩ := (Traced.pure_yields ..).mp hrest
      rw [hr]
  | analysisProtobuf uninit n msg =>
      obtain ⟨rfl, -⟩ := analysisProtobuf_yields.mp h
      rfl
  | stopListen | acceptorCallback | sendFileCallback | senfFileClearMemory =>
      obtain rfl | ⟨stage, rfl⟩ := movesFile_cases rfl h
      · rfl
      · rfl
  | stopListenOfData | sendDataCallback =>
      obtain rfl | ⟨stage, rfl⟩ := movesData_cases rfl h
      · rfl
      · rfl
  | acceptorCallbackOfSendData mgr =>
      obtain ⟨rfl, -⟩ := acceptorCallbackOfSendData_yields.mp h
      rfl
  | erase c id =>
      obtain ⟨-, rfl⟩ := (Traced.pure_yields ..).mp h
      rfl
  | delete c =>
      obtain ⟨-, rfl⟩ := (Traced.pure_yields ..).mp h
      rfl
  | deleteEntity c =>
      obtain ⟨-, rfl⟩ := (Traced.pure_yields ..).mp h
      rfl
  | registry mul =>
      obtain ⟨-, rfl⟩ := (Traced.pure_yields ..).mp h
      rfl

theorem run_blocks {ops : List Op} {log : List Event}
    (h : (ops.foldlM (step md5) s).Yields log s') : s'.blocks = s.blocks :=
  Traced.foldlM_yields_of_nil (P := fun t _ => t.blocks = s.blocks)
    (fun _ _ _ _ _ ht hstep => (step_blocks hstep).trans ht) rfl h

/-- Whatever the sender has done since, a peer that connects to the listener is sent the block. -/
theorem onSend_run {conn : Conn} {peerId : Int} {client : Client} {block : Nat} {length : Int}
    {id : List UInt8} (h : Ready conn peerId client block length id s) {k : Nat}
    (hrecord : s'.dataListenMgrs[k]? = some (record client block length id))
    (hblocks : s'.blocks = s.blocks) {ops : List Op} {log : List Event} {t : Sender}
    (hrun : (ops.foldlM (step md5) s').Yields log t) (hlistens : Listens t k) :
    (DTP.acceptorCallbackOfSendData k t).Yields [.onSend k (content block length s)] t := by
  have hcount : toSize length = length.toNat := by
    have hpos := h.length_pos
    have hlt := h.length_lt
    unfold toSize
    omega
  have hkept : Recorded t k (record client block length id) :=
    run_record ⟨.listens, hrecord⟩ hrun
  have hmgr := hkept.of_listens hlistens
  exact acceptorCallbackOfSendData_yields.mpr ⟨rfl, _, _, hmgr, rfl,
    h.reads hcount ((run_blocks hrun).trans hblocks), rfl⟩

/-- When the block was sent, the client makes a notice, and the listener is deleted. -/
theorem sendDataCallback_yields {k : Nat} {m : DataListenMgr} (hrecord : Recorded s k m)
    (hlistens : Listens s k) (halive : s.alive m.client_ = true) :
    (DTP.sendDataCallback k s).Yields
      [.client m.client_, .notice m.client_ (RecvData.makeDataNoticeMsg SENDDATASUCC m.dataId_)]
      (s.setDataStage k .finished) := by
  have hnot : ¬ s.alive m.client_ = false := by
    rw [halive]
    decide
  unfold DTP.sendDataCallback
  simp only [hrecord.of_listens hlistens, if_neg hnot]
  exact ⟨rfl, rfl⟩

/-! ### The result -/

theorem offers {conn : Conn} {peerId : Int} {client : Client} {block : Nat} {length : Int}
    {id : List UInt8} (h : Ready conn peerId client block length id s)
    {dataId : Option (List UInt8)} {guid : List UInt8} (hid : cstring (dataId.getD guid) = id)
    (uninit : Client) (sys : DataCalls) :
    Offers md5 conn s.dataListenMgrs.length client
      (offer sys peerId length id (content block length s)) (content block length s)
      (Multiplexer.sendData uninit guid sys conn peerId (some (.user block)) length dataId TCP
        s) := by
  obtain ⟨es, s', hcall, hmessages, hrecord, hblocks⟩ := sendData_yields h hid uninit sys
  have hid' : (offer sys peerId length id (content block length s)).dataId = id :=
    (cstring_eq_self_iff id).mpr h.string
  refine ⟨es, s', hcall, hmessages, fun ops log t hrun => ⟨fun hops => ?_, ?_, ?_⟩⟩
  · refine run_listens hops ?_ hrun
    rw [Listens, hrecord]
    rfl
  · exact onSend_run h hrecord hblocks hrun
  · intro hlistens halive
    have hkept : Recorded t s.dataListenMgrs.length (record client block length id) :=
      run_record ⟨.listens, hrecord⟩ hrun
    rw [hid']
    exact sendDataCallback_yields hkept hlistens halive

/-- The offer can be carried to the peer. -/
theorem sendable_offer {conn : Conn} {peerId : Int} {client : Client} {block : Nat} {length : Int}
    {id : List UInt8} (h : Ready conn peerId client block length id s) (sys : DataCalls)
    (bytes : List UInt8) : Sendable (offer sys peerId length id bytes) := by
  have hport := ((sys.getsockname.getD sys.sin_port)).toNat_lt
  have hcrc := (getCRC16_CCITT bytes).toNat_lt
  have hpos := h.length_pos
  have hlt := h.length_lt
  refine sendable_makeDataControlMsg ?_ (by decide) h.peerId isIp_RDMA_IP ?_ (by omega) ?_ ?_
  · constructor <;> decide
  · unfold port
    constructor <;> omega
  · constructor <;> omega
  · rw [(cstring_eq_self_iff id).mpr h.string]
    exact h.id_lt

end

end Ndsl.Proofs.Exchange
