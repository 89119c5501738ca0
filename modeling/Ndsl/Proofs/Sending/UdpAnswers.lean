import Ndsl.Proofs.Sending.Cases

/-!
# `Ndsl.Proofs.Sending.UdpAnswers`: which datagram a message asks for

`sends` reads off a history which blocks were sent over UDP under an id. `udpDataMp_` keeps the
first of them (`run_recorded`), so a message that asks for a datagram gets the first one.
`answered_iff` says that it gets the latest one, with nothing sent for an unknown id, exactly when
the id is known and the first block is the latest, the client of the record leads to its loop, and
`sendto` takes the datagram. For an unknown id the function reads a record through a variable that
it has not set.
-/

set_option autoImplicit false

namespace Ndsl.Proofs.Sending

open Ndsl.Lib
open Ndsl.Net
open Ndsl.Net.Dtp
open Ndsl.Net.Registry (Client Conn)
open Ndsl.Net.Sending
open Ndsl.Net.Tcp (IoResult)

/-- The buffer and the length of a block. -/
abbrev Block := Option DataPtr × Int

/-- The block that a step sends over UDP, with its id. -/
def sentOnUdp : Op → Option (List UInt8 × Block)
  | .sendDataOnUdp _ _ sendBuf length _ dataId => some (cstring dataId, sendBuf, length)
  | .sendData _ guid _ _ _ sendBuf length dataId flag =>
    if flag = TCP ∨ flag = RDMA then none
    else some (cstring (dataId.getD guid), sendBuf, length)
  | _ => none

/-- The block that a step sends over UDP under an id. -/
def send (id : List UInt8) (op : Op) : Option Block :=
  (sentOnUdp op).bind fun sent => if sent.1 = id then some sent.2 else none

/-- The blocks that a history has sent over UDP under an id. -/
def sends (id : List UInt8) (history : List Op) : List Block :=
  history.filterMap (send id)

/-- The block that is recorded under an id. -/
def recorded (id : List UInt8) (s : Sender) : Option Block :=
  (s.udpDataMp_ id).map fun info => (info.sendBuf_, info.length_)

/-- `sendto` has taken a datagram of `length` bytes, and has not failed, as it does with one that is
too long, or when there is no room. -/
def Taken (length : Int) (n : IoResult) : Prop := toSize n.value = toSize length

instance (length : Int) (n : IoResult) : Decidable (Taken length n) :=
  inferInstanceAs (Decidable (_ = _))

/-- The datagram that an event sends. -/
def datagram? : Event → Option Block
  | .sendto _ _ sendBuf length n => if Taken length n then some (sendBuf, length) else none
  | _ => none

/-- The datagrams that are sent. -/
def datagrams (es : List Event) : List Block := es.filterMap datagram?

/-- The record under an id has a client that leads to its loop. -/
def Reaches (id : List UInt8) (s : Sender) : Prop :=
  ∃ info, s.udpDataMp_ id = some info ∧ Connected s info.dtpClient_

/-- An event sends a datagram or reads a record. -/
def Touches : Event → Prop
  | .sendto .. => True
  | .udpInfo => True
  | _ => False

/-- A message is answered right after a history: with one datagram, of the latest block, or with
nothing when its id is not known. -/
def Answered (history : List Op) (id : List UInt8) (x : Traced Event Sender) : Prop :=
  match (sends id history).getLast? with
  | some block => ∃ es s', x.Yields es s' ∧ datagrams es = [block]
  | none => ∀ e ∈ x.log, ¬ Touches e

/-! ### What is recorded -/

section
variable {κ : Type} {md5 : Md5 κ} {s s' : Sender} {es : List Event} {id : List UInt8}

/-- An entry under a key, made or found. -/
theorem recorded_insert (key : List UInt8) (sendBuf : Option DataPtr) (length : Int)
    (client : Client) :
    recorded id { s with
        udpDataMp_ := Function.update s.udpDataMp_ key
          ((s.udpDataMp_ key).or (some (udpInfo sendBuf length client))) }
      = (recorded id s).or (if key = id then some (sendBuf, length) else none) := by
  unfold recorded
  by_cases hkey : key = id
  · subst hkey
    simp only [Function.update_self]
    cases s.udpDataMp_ key <;> rfl
  · simp only [if_neg hkey, Function.update_of_ne (Ne.symm hkey), Option.or_none]

/-- An entry that is there stays. -/
theorem or_of_some {info new : UdpInfo} {key : List UInt8} (h : s.udpDataMp_ id = some info) :
    Function.update s.udpDataMp_ key ((s.udpDataMp_ key).or (some new)) id = some info := by
  by_cases hkey : id = key
  · subst hkey
    rw [Function.update_self, h]
    rfl
  · rw [Function.update_of_ne hkey, h]

/-- A step leaves the record under an id as it is. -/
theorem step_udpInfo {op : Op} {info : UdpInfo} (hinfo : s.udpDataMp_ id = some info)
    (h : (step md5 s op).Yields es s') : s'.udpDataMp_ id = some info := by
  cases op with
  | sendFile uninit sys conn peerId filePath length =>
      obtain ⟨listenMgrs, rfl⟩ := mulSendFile_cases h
      exact hinfo
  | recvFile uninit conn peerId filename =>
      obtain ⟨requests, timeMp_, rfl⟩ := mulRecvFile_cases h
      exact hinfo
  | sendData uninit guid sys conn peerId sendBuf length dataId flag =>
      obtain ⟨-, -, all, bytes, -, -, -, rfl⟩ | ⟨-, rfl⟩ := mulSendData_cases h
      · show (inserted _ _ _ s).udpDataMp_ id = some info
        unfold inserted
        split <;> exact hinfo
      · exact or_of_some hinfo
  | sendDataOnUdp conn peerId sendBuf length client dataId =>
      obtain ⟨fs, r, gs, hsend, hrest, -⟩ := Traced.bind_yields.mp h
      have hr := sendDataOnUdp_cases hsend
      obtain ⟨-, rfl⟩ := (Traced.pure_yields ..).mp hrest
      rw [hr]
      exact or_of_some hinfo
  | analysisProtobuf uninit n msg =>
      obtain ⟨rfl, -⟩ := analysisProtobuf_yields.mp h
      exact hinfo
  | stopListen | acceptorCallback | sendFileCallback | senfFileClearMemory =>
      obtain rfl | ⟨stage, rfl⟩ := movesFile_cases rfl h
      · exact hinfo
      · exact hinfo
  | stopListenOfData | sendDataCallback =>
      obtain rfl | ⟨stage, rfl⟩ := movesData_cases rfl h
      · exact hinfo
      · exact hinfo
  | acceptorCallbackOfSendData mgr =>
      obtain ⟨rfl, -⟩ := acceptorCallbackOfSendData_yields.mp h
      exact hinfo
  | erase | delete | deleteEntity | registry =>
      obtain ⟨-, rfl⟩ := (Traced.pure_yields ..).mp h
      exact hinfo

/-- A step records the block that it sends, unless there is one under its id. -/
theorem step_recorded {op : Op} (h : (step md5 s op).Yields es s') :
    recorded id s' = (recorded id s).or (send id op) := by
  cases op with
  | sendFile uninit sys conn peerId filePath length =>
      obtain ⟨listenMgrs, rfl⟩ := mulSendFile_cases h
      exact (Option.or_none).symm
  | recvFile uninit conn peerId filename =>
      obtain ⟨requests, timeMp_, rfl⟩ := mulRecvFile_cases h
      exact (Option.or_none).symm
  | sendData uninit guid sys conn peerId sendBuf length dataId flag =>
      obtain ⟨hflag, -, all, bytes, -, -, -, rfl⟩ | ⟨hflag, rfl⟩ := mulSendData_cases h
      · -- over TCP or RDMA the copy changes, and no record of a datagram
        have hsame : ∀ client id value, (inserted client id value s).udpDataMp_ = s.udpDataMp_ := by
          intro client id value
          unfold inserted
          split <;> rfl
        simp only [send, sentOnUdp, if_pos hflag, Option.bind_none, Option.or_none, recorded, hsame]
      · simp only [send, sentOnUdp, if_neg hflag, Option.bind_some]
        exact recorded_insert ..
  | sendDataOnUdp conn peerId sendBuf length client dataId =>
      obtain ⟨fs, r, gs, hsend, hrest, -⟩ := Traced.bind_yields.mp h
      have hr := sendDataOnUdp_cases hsend
      obtain ⟨-, rfl⟩ := (Traced.pure_yields ..).mp hrest
      rw [hr]
      exact recorded_insert ..
  | analysisProtobuf uninit n msg =>
      obtain ⟨rfl, -⟩ := analysisProtobuf_yields.mp h
      exact (Option.or_none).symm
  | stopListen | acceptorCallback | sendFileCallback | senfFileClearMemory =>
      obtain rfl | ⟨stage, rfl⟩ := movesFile_cases rfl h
      · exact (Option.or_none).symm
      · exact (Option.or_none).symm
  | stopListenOfData | sendDataCallback =>
      obtain rfl | ⟨stage, rfl⟩ := movesData_cases rfl h
      · exact (Option.or_none).symm
      · exact (Option.or_none).symm
  | acceptorCallbackOfSendData mgr =>
      obtain ⟨rfl, -⟩ := acceptorCallbackOfSendData_yields.mp h
      exact (Option.or_none).symm
  | erase client dataId =>
      obtain ⟨-, rfl⟩ := (Traced.pure_yields ..).mp h
      exact (Option.or_none).symm
  | delete client =>
      obtain ⟨-, rfl⟩ := (Traced.pure_yields ..).mp h
      exact (Option.or_none).symm
  | deleteEntity client =>
      obtain ⟨-, rfl⟩ := (Traced.pure_yields ..).mp h
      exact (Option.or_none).symm
  | registry mul =>
      obtain ⟨-, rfl⟩ := (Traced.pure_yields ..).mp h
      exact (Option.or_none).symm

end

section
variable {κ : Type} {md5 : Md5 κ} {id : List UInt8}

/-- A run leaves the record under an id as it is. -/
theorem run_udpInfo {ops : List Op} {s s' : Sender} {log : List Event} {info : UdpInfo}
    (hinfo : s.udpDataMp_ id = some info) (h : (ops.foldlM (step md5) s).Yields log s') :
    s'.udpDataMp_ id = some info :=
  Traced.foldlM_yields_of_nil (P := fun s _ => s.udpDataMp_ id = some info)
    (fun _ _ _ _ _ hinfo hstep => step_udpInfo hinfo hstep) hinfo h

/-- After a run the first block is recorded. -/
theorem run_recorded {ops : List Op} :
    ∀ {s s' : Sender} {log : List Event}, (ops.foldlM (step md5) s).Yields log s' →
      recorded id s' = (recorded id s).or (sends id ops).head? := by
  induction ops with
  | nil =>
      intro s s' log h
      obtain ⟨-, rfl⟩ := (Traced.pure_yields ..).mp h
      exact (Option.or_none).symm
  | cons op ops ih =>
      intro s s' log h
      rw [List.foldlM_cons, Traced.bind_yields] at h
      obtain ⟨es, mid, fs, hstep, hrest, -⟩ := h
      rw [ih hrest, step_recorded hstep, Option.or_assoc]
      congr 1
      unfold sends
      rw [List.filterMap_cons]
      cases send id op <;> rfl

/-- A message that asks for a datagram is answered right exactly when its id is known, the first
block under the id is the latest one, its client leads to a loop, and `sendto` takes the block. -/
theorem answered_iff {ops : List Op} {s₀ s : Sender} {log : List Event} {uninit : Option UdpInfo}
    {n : IoResult} {msg : ControlMsg} (hnew : s₀.udpDataMp_ msg.dataId = none)
    (hrun : (ops.foldlM (step md5) s₀).Yields log s) :
    Answered ops msg.dataId (analysisProtobuf uninit n msg s) ↔
      Reaches msg.dataId s ∧ ∃ block, (sends msg.dataId ops).head? = some block ∧
        (sends msg.dataId ops).getLast? = some block ∧ Taken block.2 n := by
  have hrecorded : recorded msg.dataId s = (sends msg.dataId ops).head? := by
    rw [run_recorded hrun, recorded, hnew]
    rfl
  unfold Answered
  cases hlast : (sends msg.dataId ops).getLast? with
  | none =>
      -- without a block under the id the variable `info` is read unset
      have hread : .udpInfo ∈ (analysisProtobuf uninit n msg s).log :=
        Traced.mem_log_tell_bind _ (List.mem_singleton_self _)
      constructor
      · exact fun hquiet => absurd trivial (hquiet _ hread)
      · rintro ⟨-, block, -, hblock, -⟩
        exact absurd hblock.symm (Option.some_ne_none block)
  | some latest =>
      -- what is recorded is the first block, and what is owed is the latest
      obtain ⟨first, hfirst⟩ : ∃ first, (sends msg.dataId ops).head? = some first := by
        cases hsends : sends msg.dataId ops with
        | nil => exact absurd (hsends ▸ hlast).symm (Option.some_ne_none latest)
        | cons first rest => exact ⟨first, rfl⟩
      rw [hfirst] at hrecorded
      obtain ⟨info, hinfo, rfl⟩ := Option.map_eq_some_iff.mp hrecorded
      rw [hfirst]
      have hfound : (s.udpDataMp_ msg.dataId).or uninit = some info := by rw [hinfo]; rfl
      have hdatagrams : datagrams (answering msg info n) =
          (if Taken info.length_ n then some (info.sendBuf_, info.length_) else none).toList := by
        show [Event.sendto msg.ip msg.dataPort info.sendBuf_ info.length_ n].filterMap _ = _
        by_cases htaken : Taken info.length_ n
        · rw [if_pos htaken]
          exact List.filterMap_cons_some (if_pos htaken)
        · rw [if_neg htaken]
          exact List.filterMap_cons_none (if_neg htaken)
      constructor
      · rintro ⟨es, s', hyields, hsent⟩
        obtain ⟨-, info', hfound', hconnected, rfl⟩ := analysisProtobuf_yields.mp hyields
        obtain rfl := Option.some.inj (hfound.symm.trans hfound')
        rw [hdatagrams] at hsent
        by_cases htaken : Taken info.length_ n
        · rw [if_pos htaken] at hsent
          exact ⟨⟨info, hinfo, hconnected⟩, _, rfl,
            congrArg some (List.singleton_inj.mp hsent).symm, htaken⟩
        · rw [if_neg htaken] at hsent
          exact absurd hsent.symm (List.cons_ne_nil _ _)
      · rintro ⟨⟨info', hinfo', hconnected⟩, block, hfirst', hlatest, htaken⟩
        obtain rfl := Option.some.inj (hinfo.symm.trans hinfo')
        obtain rfl := Option.some.inj hfirst'
        obtain rfl := Option.some.inj hlatest
        refine ⟨_, s, analysisProtobuf_yields.mpr ⟨rfl, info, hfound, hconnected, rfl⟩, ?_⟩
        rw [hdatagrams, if_pos htaken]
        rfl

end

/-- Two blocks of the user. -/
def twoBlocks : Sender := { blocks := fun block => if block = 0 then [1, 2, 0] else [3, 4, 0] }

/-- The first block is sent, and then the second one, under two ids or under one. -/
def sendTwice (id id' : List UInt8) : List Op :=
  [.sendDataOnUdp 1 3 (some (.user 0)) 3 7 id, .sendDataOnUdp 1 3 (some (.user 1)) 3 7 id']

/-- The peer asks for the datagram of an id. -/
def request : ControlMsg :=
  { flag := RECVDATAONUDP, ip := RDMA_IP, dataPort := 3000, dataId := [0x64] }

/-- Under two ids both are answered right. -/
theorem answered_two_ids :
    twoBlocks.udpDataMp_ request.dataId = none ∧
      ∃ log s, ((sendTwice [0x65] [0x64]).foldlM (step zeroMd5) twoBlocks).Yields log s ∧
        Answered (sendTwice [0x65] [0x64]) request.dataId
          (analysisProtobuf none (.count 3) request s) := by
  obtain ⟨log, s, hrun, hreaches⟩ : ∃ log s,
      ((sendTwice [0x65] [0x64]).foldlM (step zeroMd5) twoBlocks).Yields log s ∧
        Reaches request.dataId s :=
    ⟨_, _, ⟨rfl, rfl⟩, _, rfl, rfl, rfl⟩
  exact ⟨rfl, log, s, hrun,
    (answered_iff rfl hrun).mpr ⟨hreaches, (some (.user 1), 3), by decide, by decide, by decide⟩⟩

/-- When the id is used again, the message gets the block that was sent first. -/
theorem reused_id_answered :
    ∃ log s, ((sendTwice [0x64] [0x64]).foldlM (step zeroMd5) twoBlocks).Yields log s ∧
      (analysisProtobuf none (.count 3) request s).log
        = [.udpInfo, .client 7, .sendto RDMA_IP 3000 (some (.user 0)) 3 (.count 3)] ∧
      ¬ Answered (sendTwice [0x64] [0x64]) request.dataId
        (analysisProtobuf none (.count 3) request s) := by
  refine ⟨_, _, ⟨rfl, rfl⟩, by decide, ?_⟩
  rintro ⟨es, s', ⟨hlog, -⟩, hsent⟩
  rw [← hlog] at hsent
  exact absurd hsent (by decide)

end Ndsl.Proofs.Sending
