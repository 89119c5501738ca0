import Ndsl.Lib.Maps
import Ndsl.Proofs.Sending.Cases

/-!
# `Ndsl.Proofs.Sending.Targets`: the client that a transfer is begun for

`Multiplexer::sendFile`, `recvFile` and `sendData` look up the client of a connection and an id.
`targets_iff` says that a call does what it is to do exactly when the client is registered. When it
is registered, the call uses this client and no other one. When it is not, the call goes on with
what the variable happens to hold, so that it always has an effect.
-/

set_option autoImplicit false

namespace Ndsl.Proofs.Sending

open Ndsl.Lib
open Ndsl.Net
open Ndsl.Net.Dtp
open Ndsl.Net.Registry (Client Conn)
open Ndsl.Net.Sending

/-- A call of the multiplexer for a connection and an id. -/
inductive Call
  | sendFile (sys : FileCalls) (filePath : List UInt8) (length : Int)
  | recvFile (filename : List UInt8)
  | sendData (guid : List UInt8) (sys : DataCalls) (sendBuf : Option DataPtr) (length : Int)
      (dataId : Option (List UInt8)) (flag : Int)

/-- The call, with what the variable for the client holds when it is not set. -/
def Call.run {κ : Type} (md5 : Md5 κ) (uninit : Client) (conn : Conn) (peerId : Int)
    (s : Sender) : Call → Traced Event Sender
  | .sendFile sys filePath length =>
    Multiplexer.sendFile md5 uninit sys conn peerId filePath length s
  | .recvFile filename => Multiplexer.recvFile uninit conn peerId filename s
  | .sendData guid sys sendBuf length dataId flag =>
    Multiplexer.sendData uninit guid sys conn peerId sendBuf length dataId flag s

/-- An event is about a client, or about none. -/
def About (client : Client) : Event → Prop
  | .newSession c => c = client
  | .client c => c = client
  | _ => True

/-- What is recorded after a call was recorded before, or belongs to a client. -/
structure Serves (client : Client) (s s' : Sender) : Prop where
  listenMgrs : ∀ m ∈ s'.listenMgrs, m ∈ s.listenMgrs ∨ m.client_ = client
  dataListenMgrs : ∀ m ∈ s'.dataListenMgrs, m ∈ s.dataListenMgrs ∨ m.client_ = client
  requests : ∀ m ∈ s'.requests, m ∈ s.requests ∨ m.client_ = client
  udpDataMp_ : ∀ id info, s'.udpDataMp_ id = some info →
    s.udpDataMp_ id = some info ∨ info.dtpClient_ = client
  timeMp_ : ∀ c, c ≠ client → s'.timeMp_ c = s.timeMp_ c
  nodes : ∀ node ∈ s'.nodes, node ∈ s.nodes ∨ node.client = client

/-- A call uses a client, and no other one. -/
def Uses (client : Client) (s : Sender) (x : Traced Event Sender) : Prop :=
  x.Ensures (About client) (Serves client s)

/-- A call uses the client that is registered. Without one it has no effect. -/
def Right {κ : Type} (md5 : Md5 κ) (uninit : Client) (conn : Conn) (peerId : Int) (s : Sender)
    (call : Call) : Prop :=
  match s.mul.lookup conn peerId with
  | some client => Uses client s (call.run md5 uninit conn peerId s)
  | none => (call.run md5 uninit conn peerId s).Yields [] s

/-! ### Registered clients -/

section
variable {κ : Type} {md5 : Md5 κ} {s s' : Sender} {client : Client}

/-- Entries that are appended. -/
theorem mem_append_or {α : Type} {p : α → Prop} {l : List α} {a : α} (ha : p a) :
    ∀ b ∈ l ++ [a], b ∈ l ∨ p b := by
  intro b hb
  obtain hb | hb := List.mem_append.mp hb
  · exact .inl hb
  · obtain rfl := List.mem_singleton.mp hb
    exact .inr ha

theorem serves_self (client : Client) (s : Sender) : Serves client s s where
  listenMgrs := fun _ => .inl
  dataListenMgrs := fun _ => .inl
  requests := fun _ => .inl
  udpDataMp_ := fun _ _ => .inl
  timeMp_ := fun _ _ => rfl
  nodes := fun _ => .inl

theorem start_about (sys : ListenCalls) :
    (start sys).Ensures (About client) (fun _ => True) := by
  unfold start
  refine .tell_bind (by simp [About]) ?_
  split
  · exact .pure trivial
  · exact .tell_bind (by simp [About]) (.pure trivial)

theorem sendFile_uses (sys : FileCalls) (conn : Conn) (peerId : Int) (filePath : List UInt8)
    (length : Int) : (DTP.sendFile md5 sys conn peerId filePath length client s).Ensures
      (About client) (fun r => Serves client s r.2) := by
  unfold DTP.sendFile
  refine (start_about _).bind fun _ _ => .tell_bind (by simp [About]) ?_
  split
  · exact .fault
  · refine .tell_bind (by simp [About]) ?_
    split
    · exact .fault
    · exact .tell_bind (by simp [About])
        (.pure { serves_self client s with listenMgrs := mem_append_or rfl })

theorem recvFile_uses (conn : Conn) (peerId : Int) (filename : List UInt8) :
    (DTP.recvFile conn peerId filename client s).Ensures (About client)
      (fun r => Serves client s r.2) := by
  unfold DTP.recvFile
  refine .tell_bind (by simp [About]) (.tell_bind (by simp [About]) (.pure ?_))
  exact { serves_self client s with
    requests := mem_append_or rfl
    timeMp_ := fun c hc => Function.update_of_ne hc _ _ }

theorem read_quiet (sendBuf : Option DataPtr) (n : Nat) :
    (s.read sendBuf n).Ensures (About client) (fun _ => True) := by
  unfold Sender.read
  split
  · exact .pure trivial
  · split
    · exact .fault
    · split
      · exact .pure trivial
      · exact .fault

theorem crc_about (sendBuf : Option DataPtr) (length : Int) :
    (DTP.crc sendBuf length s).Ensures (About client) (fun _ => True) :=
  (read_quiet sendBuf _).bind fun _ _ => .pure trivial

theorem listenForData_about (sys : DataCalls) (flag : Int) :
    (DTP.listenForData sys flag).Ensures (About client) (fun _ => True) := by
  unfold DTP.listenForData
  split
  · exact (start_about _).bind fun _ _ => .tell_bind (by simp [About]) (.pure trivial)
  · refine .tell_bind (by simp [About]) (.tell_bind ?_ (.tell_bind (by simp [About])
      (.pure trivial)))
    split <;> simp [About]

theorem sendData_uses (sys : DataCalls) (conn : Conn) (peerId : Int) (sendBuf : Option DataPtr)
    (length : Int) (dataId : List UInt8) (flag : Int) (hs : Serves client s s') :
    (DTP.sendData sys conn peerId sendBuf length client dataId flag s').Ensures
      (About client) (fun r => Serves client s r.2) := by
  unfold DTP.sendData
  refine .tell_bind (by simp [About]) ((listenForData_about sys flag).bind fun port _ => ?_)
  refine .tell_bind (by simp [About]) ((crc_about sendBuf length).bind fun c _ => ?_)
  refine .tell_bind (by simp [About]) (.pure { hs with dataListenMgrs := fun m hm => ?_ })
  obtain hm | hm := mem_append_or (p := fun m => m.client_ = client) rfl m hm
  · exact hs.dataListenMgrs m hm
  · exact .inr hm

theorem sendDataOnUdp_uses (conn : Conn) (peerId : Int) (sendBuf : Option DataPtr)
    (length : Int) (dataId : List UInt8) :
    (DTP.sendDataOnUdp conn peerId sendBuf length client dataId s).Ensures (About client)
      (fun r => Serves client s r.2) := by
  unfold DTP.sendDataOnUdp
  refine .tell_bind (by simp [About]) ((crc_about sendBuf length).bind fun c _ => ?_)
  refine .tell_bind (by simp [About]) (.pure { serves_self client s with udpDataMp_ := ?_ })
  intro id info hinfo
  obtain hold | ⟨-, -, rfl⟩ := Maps.insert_cases hinfo
  · exact .inl hold
  · exact .inr rfl

theorem insert_uses (dataId : List UInt8) (sendBuf : Option DataPtr) :
    (s.insert client dataId sendBuf).Ensures (About client) (Serves client s) := by
  have hstring : (s.string sendBuf).Ensures (About client) (fun _ => True) := by
    unfold Sender.string
    split
    · exact .fault
    · split
      · exact .pure trivial
      · exact .fault
  unfold Sender.insert
  refine hstring.bind fun value _ => ?_
  split
  · exact .pure (serves_self client s)
  · exact .pure { serves_self client s with nodes := mem_append_or rfl }

/-- A call for a client that is found uses this client. -/
theorem uses_of_found (call : Call) {uninit : Client} {conn : Conn} {peerId : Int}
    (h : Multiplexer.findClient uninit conn peerId s = client) :
    Uses client s (call.run md5 uninit conn peerId s) := by
  cases call with
  | sendFile sys filePath length =>
      unfold Uses Call.run Multiplexer.sendFile
      rw [h]
      exact (sendFile_uses sys conn peerId filePath length).bind fun _ hr => .pure hr
  | recvFile filename =>
      unfold Uses Call.run Multiplexer.recvFile
      rw [h]
      exact (recvFile_uses conn peerId filename).bind fun _ hr => .pure hr
  | sendData guid sys sendBuf length dataId flag =>
      unfold Uses Call.run Multiplexer.sendData
      rw [h]
      dsimp only
      split
      · refine .tell_bind (by simp [About]) ?_
        split
        · exact .fault
        · refine (insert_uses _ _).bind fun s' hs' => ?_
          exact (sendData_uses sys conn peerId _ length _ flag hs').bind fun _ hr => .pure hr
      · exact (sendDataOnUdp_uses conn peerId sendBuf length _).bind fun _ hr => .pure hr

end

/-! ### Others -/

section
variable {κ : Type} (md5 : Md5 κ) (uninit : Client) (conn : Conn) (peerId : Int) (s : Sender)

/-- Every call has an effect: a listener, a record, or the use of a client. -/
theorem log_ne_nil (call : Call) : (call.run md5 uninit conn peerId s).log ≠ [] := by
  cases call with
  | sendFile sys filePath length =>
      exact List.ne_nil_of_mem (Traced.mem_log_bind _ (Traced.mem_log_bind _
        (Traced.mem_log_tell_bind _ (List.mem_singleton_self _))))
  | recvFile filename =>
      exact List.ne_nil_of_mem (Traced.mem_log_bind _
        (Traced.mem_log_tell_bind _ (List.mem_cons_self ..)))
  | sendData guid sys sendBuf length dataId flag =>
      unfold Call.run Multiplexer.sendData
      dsimp only
      split
      · exact List.ne_nil_of_mem (Traced.mem_log_tell_bind _ (List.mem_singleton_self _))
      · exact List.ne_nil_of_mem (Traced.mem_log_bind _
          (Traced.mem_log_tell_bind _ (List.mem_singleton_self _)))

end

/-- A call does what it is to do exactly when a client is registered for its connection and id. -/
theorem targets_iff {κ : Type} {md5 : Md5 κ} {uninit : Client} {conn : Conn} {peerId : Int}
    {s : Sender} {call : Call} :
    Right md5 uninit conn peerId s call ↔ (s.mul.lookup conn peerId).isSome := by
  unfold Right
  cases h : s.mul.lookup conn peerId with
  | some client => simp [uses_of_found call (findClient_of_lookup h uninit)]
  | none =>
      -- the call goes on with whatever the variable holds
      have hlog := log_ne_nil md5 uninit conn peerId s call
      simp only [Option.isSome_none, Bool.false_eq_true, iff_false]
      exact fun hyields => hlog hyields.1

/-- A file is asked for over a connection that nobody is registered for. The variable holds 9, and
the request goes out, with a record and a timer for this client. -/
theorem unknown_target_requested :
    ({} : Sender).mul.lookup 1 3 = none ∧
      ((Call.recvFile [0x66]).run zeroMd5 9 1 3 {}).log
        = [.newSession 9, .runAfter,
          .sendMessage 1 0 { flag := RECVFILEFLAG, id := 3, fileName := [0x66] }] ∧
      ¬ Right zeroMd5 9 1 3 {} (.recvFile [0x66]) := by
  have hlog : ((Call.recvFile [0x66]).run zeroMd5 9 1 3 {}).log
      = [.newSession 9, .runAfter,
        .sendMessage 1 0 { flag := RECVFILEFLAG, id := 3, fileName := [0x66] }] := by decide
  refine ⟨rfl, hlog, fun hright => ?_⟩
  have hyields : ((Call.recvFile [0x66]).run zeroMd5 9 1 3 {}).Yields [] {} := hright
  exact absurd (hlog.symm.trans hyields.1) (List.cons_ne_nil _ _)

end Ndsl.Proofs.Sending
