import Ndsl.Net.Transfers
import Ndsl.Proofs.Dtp.DataSession

/-!
# `Ndsl.Proofs.Transfers.Idle`: transfers that are over

A transfer is in flight as long as one of its callbacks can still be called. `InFlight` says when
that is, for each kind of transfer, in terms of what the loop and the timers hold.

`InFlight.idle` is the lemma of this module: a transfer that is not in flight calls its client in
no step it can take, and never comes to be in flight again. `AsksEntity` is the same for the
connection of the entity, which only the receive of a data block over TCP asks for
(`AsksEntity.idle`).
-/

set_option autoImplicit false

namespace Ndsl.Proofs.Transfers

open Ndsl.Lib
open Ndsl.Net Ndsl.Net.Dtp
open Ndsl.Net.Tcp (TcpConnection)

/-! ### Sending -/

/-- A session of `sendFile` is in flight while its listener can be called with a peer, or a part
of the file is queued. -/
def FileInFlight (s : Session) : Prop :=
  s.inUse_ = true ∧ (s.acceptorEnrolled = true ∨ s.acceptorReady = true) ∨
    s.conn.qSendfileInfo_ ≠ []

/-- A session of `sendData` is in flight while its listener can be called with a peer, or a part
of the data is queued on a connection that can be called. -/
def DataInFlight (s : Session) : Prop :=
  s.inUse_ = true ∧ (s.acceptorEnrolled = true ∨ s.acceptorReady = true) ∨
    s.conn.qSendInfo_ ≠ [] ∧ (s.connEnrolled = true ∨ s.connReady = true)

/-- A session over RDMA is in flight while its listener can be called, or a request is posted on a
connection that can be called. -/
def RdmaSendInFlight (s : RdmaSend) : Prop :=
  s.session.acceptorEnrolled = true ∨ s.session.acceptorReady = true ∨
    0 < s.posted ∧ (s.session.connEnrolled = true ∨ s.session.connReady = true)

/-- `t` is the session `s` with channels taken from the loop, as far as callbacks depend on it. -/
structure Fades (s t : Session) : Prop where
  inUse : t.inUse_ = s.inUse_
  conn : t.conn = s.conn
  acceptorEnrolled : t.acceptorEnrolled = true → s.acceptorEnrolled = true
  acceptorReady : t.acceptorReady = s.acceptorReady
  connEnrolled : t.connEnrolled = true → s.connEnrolled = true
  connReady : t.connReady = s.connReady

section Send
variable {s t u : Session}

theorem Fades.refl (s : Session) : Fades s s := ⟨rfl, rfl, id, rfl, id, rfl⟩

theorem Fades.trans (h : Fades s t) (h' : Fades t u) : Fades s u where
  inUse := h'.inUse.trans h.inUse
  conn := h'.conn.trans h.conn
  acceptorEnrolled := h.acceptorEnrolled ∘ h'.acceptorEnrolled
  acceptorReady := h'.acceptorReady.trans h.acceptorReady
  connEnrolled := h.connEnrolled ∘ h'.connEnrolled
  connReady := h'.connReady.trans h.connReady

/-- A session that fades does not come to be in flight. -/
theorem Fades.file (h : Fades s t) (ht : FileInFlight t) : FileInFlight s := by
  rcases ht with ⟨hinUse, hready⟩ | hqueue
  · refine .inl ⟨h.inUse ▸ hinUse, hready.imp h.acceptorEnrolled fun hready => ?_⟩
    rw [← h.acceptorReady]
    exact hready
  · exact .inr (h.conn ▸ hqueue)

theorem Fades.data (h : Fades s t) (ht : DataInFlight t) : DataInFlight s := by
  rcases ht with ⟨hinUse, hready⟩ | ⟨hqueue, hready⟩
  · refine .inl ⟨h.inUse ▸ hinUse, hready.imp h.acceptorEnrolled fun hready => ?_⟩
    rw [← h.acceptorReady]
    exact hready
  · refine .inr ⟨h.conn ▸ hqueue, hready.imp h.connEnrolled fun hready => ?_⟩
    rw [← h.connReady]
    exact hready

theorem Fades.rdma {posted : Nat} (h : Fades s t) (ht : RdmaSendInFlight ⟨t, posted⟩) :
    RdmaSendInFlight ⟨s, posted⟩ := by
  rcases ht with henrolled | hready | ⟨hposted, hready⟩
  · exact .inl (h.acceptorEnrolled henrolled)
  · exact .inr (.inl (h.acceptorReady ▸ hready))
  · refine .inr (.inr ⟨hposted, hready.imp h.connEnrolled fun hready => ?_⟩)
    rw [← h.connReady]
    exact hready

/-- A part of a session that makes no call and leaves a session of which `post` holds. -/
abbrev Quiet (post : Session → Prop) (x : Traced Session.Event Session) : Prop :=
  x.Ensures (fun e => Call.ofSend e = []) post

theorem deleteAcceptor_quiet (func : Session.Func) (s : Session) :
    Quiet (Fades s) (s.deleteAcceptor func) := by
  unfold Session.deleteAcceptor
  split
  · refine .tell_bind (List.forall_mem_singleton.mpr rfl) (.pure ?_)
    exact ⟨rfl, rfl, fun h => absurd h Bool.false_ne_true, rfl, id, rfl⟩
  · exact .pure (.refl s)

theorem deleteConn_quiet (func : Session.Func) (s : Session) :
    Quiet (Fades s) (s.deleteConn func) := by
  unfold Session.deleteConn
  split
  · refine .tell_bind (List.forall_mem_singleton.mpr rfl) (.pure ?_)
    exact ⟨rfl, rfl, id, rfl, fun h => absurd h Bool.false_ne_true, rfl⟩
  · exact .pure (.refl s)

/-- Both pointers of a session are deleted. -/
theorem deleteBoth_quiet (func : Session.Func) (s : Session) {f : Session → Session}
    (hf : ∀ t, Fades t (f t)) : Quiet (Fades s) (s.deleteAcceptor func >>= fun s =>
      s.deleteConn func >>= fun s => pure (f s)) :=
  (deleteAcceptor_quiet func s).bind fun t ht =>
    (deleteConn_quiet func t).bind fun u hu => .pure ((ht.trans hu).trans (hf u))

theorem stopListen_quiet (s : Session) : Quiet (Fades s) s.stopListen := by
  refine .tell_bind (List.forall_mem_singleton.mpr rfl) ?_
  split
  · exact deleteBoth_quiet _ s fun t => ⟨rfl, rfl, id, rfl, id, rfl⟩
  · exact .pure ⟨rfl, rfl, id, rfl, id, rfl⟩

theorem stopListenOfData_quiet (s : Session) : Quiet (Fades s) s.stopListenOfData := by
  refine .tell_bind (List.forall_mem_singleton.mpr rfl) ?_
  split
  · exact deleteBoth_quiet _ s fun t => ⟨rfl, rfl, id, rfl, id, rfl⟩
  · exact .pure ⟨rfl, rfl, id, rfl, id, rfl⟩

theorem senfFileClearMemory_quiet (s : Session) : Quiet (Fades s) s.senfFileClearMemory := by
  refine .tell_bind (List.forall_mem_singleton.mpr rfl) ?_
  refine (deleteConn_quiet _ s).bind fun t ht => ?_
  refine .tell_bind (List.forall_mem_singleton.mpr rfl) (.pure ?_)
  exact ht.trans ⟨rfl, rfl, id, rfl, id, rfl⟩

/-- The listener of a session whose registration was used. -/
theorem handleRead_quiet {cb : Session → Traced Session.Event Session}
    {accepted : Option Tcp.TcpChannel}
    (hinUse : s.inUse_ = false) : Quiet (Fades s) (s.handleRead cb accepted) := by
  simp only [Session.handleRead, hinUse, Bool.false_eq_true, if_false]
  exact .tell_bind (List.forall_mem_singleton.mpr rfl) (.pure (.refl s))

/-- `handleWrite` of a connection with nothing to send. -/
theorem handleWrite_quiet {result : Tcp.IoResult} (hqueue : s.conn.qSendInfo_ = []) :
    Quiet (Fades s) (s.handleWrite result) := by
  obtain ⟨hlog, hvalue⟩ := Dtp.handleWrite_nil (n := result) hqueue
  simp only [Session.handleWrite, Session.onConn, hvalue, hlog]
  refine .tell_bind (List.forall_mem_singleton.mpr rfl) ?_
  exact .tell_bind (List.forall_mem_nil _) (.pure ⟨rfl, rfl, id, rfl, id, rfl⟩)

/-- A session of `sendFile` that is over. -/
theorem fileStep_quiet (h : ¬ FileInFlight s) {action : Session.FileAction}
    (hpossible : s.FilePossible action) :
    Quiet (fun t => ¬ FileInFlight t) (s.fileStep action) := by
  -- what the steps leave fades, but for the flag that the loop sets
  have hfade : ∀ t, Fades s t → ¬ FileInFlight t := fun t ht hflight => h (ht.file hflight)
  cases action with
  | ready =>
      have henrolled : s.acceptorEnrolled = true := hpossible
      refine .pure fun hflight => h ?_
      exact hflight.imp_left fun hready => ⟨hready.1, .inl henrolled⟩
  | handleRead accepted inFd length result =>
      have hready : s.acceptorReady = true := hpossible.1
      have hinUse : s.inUse_ = false :=
        Bool.eq_false_iff.mpr fun hinUse => h (.inl ⟨hinUse, .inr hready⟩)
      refine (handleRead_quiet (s := { s with acceptorReady := false }) hinUse).mono
        (fun _ => id) fun t ht hflight => h ?_
      exact (ht.file hflight).imp_left fun hready => absurd (hinUse ▸ hready.1) Bool.false_ne_true
  | sendInLoop result => exact absurd (.inr hpossible) h
  | senfFileClearMemory => exact (senfFileClearMemory_quiet s).mono (fun _ => id) hfade
  | stopListen => exact (stopListen_quiet s).mono (fun _ => id) hfade

/-- A session of `sendData` that is over. -/
theorem dataStep_quiet {buffer_ : List UInt8} (h : ¬ DataInFlight s) {action : Session.DataAction}
    (hpossible : s.DataPossible buffer_ action) :
    Quiet (fun t => ¬ DataInFlight t) (s.dataStep buffer_ action) := by
  cases action with
  | ready =>
      have henrolled : s.acceptorEnrolled = true := hpossible
      -- a listener that is enrolled can still be called
      refine .pure fun hflight => h ?_
      exact hflight.imp_left fun hready => ⟨hready.1, .inl henrolled⟩
  | connReady =>
      have henrolled : s.connEnrolled = true := hpossible
      refine .pure fun hflight => h ?_
      exact hflight.imp_right fun hready => ⟨hready.1, .inl henrolled⟩
  | handleRead accepted result =>
      -- the listener is ready, but its request was served, so nothing is accepted
      have hready : s.acceptorReady = true := hpossible.1
      have hinUse : s.inUse_ = false :=
        Bool.eq_false_iff.mpr fun hinUse => h (.inl ⟨hinUse, .inr hready⟩)
      refine (handleRead_quiet (s := { s with acceptorReady := false }) hinUse).mono
        (fun _ => id) fun t ht hflight => h ?_
      exact (ht.data hflight).imp_left fun hready => absurd (hinUse ▸ hready.1) Bool.false_ne_true
  | handleWrite result =>
      -- with an empty queue `handleWrite` sends nothing
      have hready : s.connReady = true := hpossible.1
      have hqueue : s.conn.qSendInfo_ = [] := by
        by_contra hqueue
        exact h (.inr ⟨hqueue, .inr hready⟩)
      refine (handleWrite_quiet (s := { s with connReady := false }) hqueue).mono
        (fun _ => id) fun t ht hflight => h ?_
      exact (ht.data hflight).imp_right fun hrest => absurd hqueue hrest.1
  | stopListenOfData =>
      refine (stopListenOfData_quiet s).mono (fun _ => id) fun t ht hflight => ?_
      exact h (ht.data hflight)

/-- A session over RDMA that is over. -/
theorem rdmaSendStep_quiet {s : RdmaSend} (h : ¬ RdmaSendInFlight s) {action : RdmaSend.Action}
    (hpossible : s.Possible action) :
    (s.step action).Ensures (fun e => Call.ofSend e = []) fun t => ¬ RdmaSendInFlight t := by
  cases action with
  | ready => exact absurd (.inl hpossible) h
  | connReady =>
      have henrolled : s.session.connEnrolled = true := hpossible
      refine .pure fun hflight => h ?_
      exact hflight.imp_right fun hrest => hrest.imp_right fun hready =>
        ⟨hready.1, .inl henrolled⟩
  | handleRead posts => exact absurd (.inr (.inl hpossible)) h
  | handleSend completions =>
      -- nothing is posted, so nothing is reported
      have hposted : ¬ 0 < s.posted := fun hposted => h (.inr (.inr ⟨hposted, .inr hpossible.1⟩))
      obtain rfl : completions = 0 := by
        have hle : completions ≤ s.posted := hpossible.2
        omega
      refine .pure fun hflight => h ?_
      exact hflight.imp_right fun hrest => hrest.imp_right fun hready =>
        absurd hready.1 hposted
  | stopListenOfData =>
      refine (stopListenOfData_quiet s.session).bind fun t ht => .pure fun hflight => ?_
      exact h (ht.rdma hflight)

end Send

/-! ### Receiving -/

/-- The receive of a file is in flight while its data connection can be called and has a
request. -/
def RecvFileInFlight (s : RecvFile) : Prop :=
  (s.enrolled = true ∨ s.ready = true) ∧ s.data.RecvInfo_.recvInUse_ = true

/-- The receive of a data block is in flight while its data connection can be called and has a
request, or the entity's connection has one. -/
def RecvDataInFlight (s : RecvData) : Prop :=
  (s.enrolled = true ∨ s.ready = true) ∧ s.data.RecvInfo_.recvInUse_ = true ∨
    s.control.RecvInfo_.recvInUse_ = true

/-- A receive over RDMA is in flight until its client has connected, and while a request is
posted. -/
def RdmaRecvInFlight (s : RdmaRecv) : Prop :=
  s.connecting = true ∨ 0 < s.posted

/-- A receive over UDP is in flight while its endpoint has a request. -/
def UdpInFlight (s : UdpSession) : Prop :=
  s.point.RecvInfo_.inUse_ = true ∧ 0 ≤ s.point.fd

/-- The receive of a file that is over. -/
theorem recvFileStep_quiet {κ : Type} (md5 : Md5 κ) {s : RecvFile} (h : ¬ RecvFileInFlight s)
    {action : RecvFile.Action} (hpossible : s.Possible action) :
    (s.step md5 action).Ensures (fun e => Call.ofRecvFile e = [])
      fun t => ¬ RecvFileInFlight t := by
  cases action with
  | ready =>
      have henrolled : s.enrolled = true := hpossible
      exact .pure fun hflight => h ⟨.inl henrolled, hflight.2⟩
  | handleRead result results =>
      have hready : s.ready = true := hpossible
      have hinUse : s.data.RecvInfo_.recvInUse_ = false :=
        Bool.eq_false_iff.mpr fun hinUse => h ⟨.inr hready, hinUse⟩
      have hidle : (Tcp.handleRead result s.data).Yields [] (S_OK, s.data) :=
        Tcp.handleRead_idle hinUse
      simp only [RecvFile.step, RecvFile.handleRead, RecvFile.onData, hidle.1, hidle.2,
        List.foldlM_nil]
      exact .pure fun hflight => Bool.false_ne_true (hinUse.symm.trans hflight.2)

/-- The receive of a data block that is over. -/
theorem recvDataStep_quiet {s : RecvData} (h : ¬ RecvDataInFlight s) {action : RecvData.Action}
    (hpossible : s.Possible action) :
    (s.step action).Ensures (fun e => Call.ofRecvData e = [])
      fun t => ¬ RecvDataInFlight t := by
  cases action with
  | ready =>
      have henrolled : s.enrolled = true := hpossible
      exact .pure fun hflight => h (hflight.imp_left fun hdata => ⟨.inl henrolled, hdata.2⟩)
  | handleRead result results =>
      have hready : s.ready = true := hpossible
      have hinUse : s.data.RecvInfo_.recvInUse_ = false :=
        Bool.eq_false_iff.mpr fun hinUse => h (.inl ⟨.inr hready, hinUse⟩)
      have hidle : (Tcp.handleRead result s.data).Yields [] (S_OK, s.data) :=
        Tcp.handleRead_idle hinUse
      simp only [RecvData.step, RecvData.handleRead, RecvData.onData, hidle.1, hidle.2,
        List.foldlM_nil]
      refine .pure fun hflight => h (hflight.imp_left fun hdata => ?_)
      exact absurd (hinUse.symm.trans hdata.2) Bool.false_ne_true
  | handleReadControl result results => exact absurd (.inr hpossible) h
  | overwrite =>
      refine .pure fun hflight => h (hflight.imp_right fun hcontrol => ?_)
      exact absurd hcontrol Bool.false_ne_true

/-- A receive over RDMA that is over. -/
theorem rdmaRecvStep_quiet {s : RdmaRecv} (h : ¬ RdmaRecvInFlight s) {action : RdmaRecv.Action}
    (hpossible : s.Possible action) :
    (s.step action).Ensures (fun e => Call.ofRecvData e = []) fun t => ¬ RdmaRecvInFlight t := by
  cases action with
  | recvMessage posts => exact absurd (.inl hpossible) h
  | handleRecv completions =>
      have hle : completions.length ≤ s.posted := hpossible
      have hposted : ¬ 0 < s.posted := fun hposted => h (.inr hposted)
      obtain rfl : completions = [] := List.eq_nil_of_length_eq_zero (by omega)
      exact .pure h

theorem deletePoint_quiet (func : UdpSession.Func) (s : UdpSession) :
    (s.deletePoint func).Ensures (fun e => Call.ofUdp e = []) fun _ => True := by
  unfold UdpSession.deletePoint
  split
  · exact ⟨List.forall_mem_singleton.mpr rfl, fun _ _ => trivial⟩
  · exact .pure trivial

theorem deleteRecvBuf_quiet (func : UdpSession.Func) (s : UdpSession) :
    (s.deleteRecvBuf func).Ensures (fun e => Call.ofUdp e = []) fun _ => True := by
  unfold UdpSession.deleteRecvBuf
  split
  · exact .pure trivial
  · exact ⟨List.forall_mem_singleton.mpr rfl, fun _ _ => trivial⟩

/-- A receive over UDP that is over. -/
theorem udpStep_quiet {s : UdpSession} (h : ¬ UdpInFlight s) (action : UdpSession.UdpAction) :
    (s.udpStep action).Ensures (fun e => Call.ofUdp e = []) fun t => ¬ UdpInFlight t := by
  cases action with
  | ready => exact .pure h
  | handleRead result =>
      have hidle : Udp.handleRead result s.point = pure (S_FALSE, s.point) := by
        unfold Udp.handleRead
        split
        · next hinUse => exact if_pos (Int.not_le.mp fun hfd => h ⟨hinUse, hfd⟩)
        · rfl
      simp only [UdpSession.udpStep, UdpSession.handleRead, UdpSession.onPoint, hidle,
        Traced.value_pure, Traced.log_pure, List.foldlM_nil]
      exact .tell_bind (List.forall_mem_singleton.mpr rfl) (.pure h)
  | stopListenOfUdp =>
      refine .tell_bind (List.forall_mem_singleton.mpr rfl) ?_
      split
      · refine (deletePoint_quiet _ s).bind fun _ _ => ?_
        refine (deleteRecvBuf_quiet _ s).bind fun _ _ => ?_
        exact .tell_bind (by decide) (.pure h)
      · exact .pure h

/-! ### Any transfer -/

/-- One of the callbacks of a transfer can still be called. -/
def InFlight : Transfer → Prop
  | .sendFile s => FileInFlight s
  | .sendData _ s => DataInFlight s
  | .sendDataRdma s => RdmaSendInFlight s
  | .recvFile s => RecvFileInFlight s
  | .recvData s => RecvDataInFlight s
  | .recvDataRdma s => RdmaRecvInFlight s
  | .recvUdpData s => UdpInFlight s
  | .recvFileRequest _ timer => timer = true

/-- A transfer that can still ask for the connection of the entity. -/
def AsksEntity : Transfer → Prop
  | .recvData s => RecvDataInFlight s
  | _ => False

/-- An execution without calls, in the view that has only the calls. -/
theorem ensures_view {ε σ : Type} {calls : ε → List Call} {post : σ → Prop}
    {post' : Transfer → Prop} {f : σ → Transfer} {x : Traced ε σ}
    (h : x.Ensures (fun e => calls e = []) post) (hpost : ∀ s, post s → post' (f s)) :
    (x.view calls f).Ensures (fun _ => False) post' := by
  refine h.view (fun e he call hcall => ?_) hpost
  rw [he] at hcall
  exact List.not_mem_nil hcall

/-- A transfer that is over calls its client no more, and stays over. -/
theorem InFlight.idle {κ : Type} (md5 : Md5 κ) {t : Transfer} (h : ¬ InFlight t)
    {action : Transfer.Action} (hpossible : t.Possible action) :
    (t.step md5 action).Ensures (fun _ => False) fun t' => ¬ InFlight t' := by
  cases t with
  | sendFile s =>
      cases action with
      | sendFile action => exact ensures_view (fileStep_quiet h hpossible) fun _ => id
      | _ => exact absurd hpossible id
  | sendData buffer_ s =>
      cases action with
      | sendData action => exact ensures_view (dataStep_quiet h hpossible) fun _ => id
      | _ => exact absurd hpossible id
  | sendDataRdma s =>
      cases action with
      | sendDataRdma action => exact ensures_view (rdmaSendStep_quiet h hpossible) fun _ => id
      | _ => exact absurd hpossible id
  | recvFile s =>
      cases action with
      | recvFile action => exact ensures_view (recvFileStep_quiet md5 h hpossible) fun _ => id
      | _ => exact absurd hpossible id
  | recvData s =>
      cases action with
      | recvData action => exact ensures_view (recvDataStep_quiet h hpossible) fun _ => id
      | _ => exact absurd hpossible id
  | recvDataRdma s =>
      cases action with
      | recvDataRdma action => exact ensures_view (rdmaRecvStep_quiet h hpossible) fun _ => id
      | _ => exact absurd hpossible id
  | recvUdpData s =>
      cases action with
      | recvUdpData action => exact ensures_view (udpStep_quiet h action) fun _ => id
      | _ => exact absurd hpossible id
  | recvFileRequest s timer =>
      cases action with
      | handleRecvfileFail => exact absurd hpossible h
      | _ => exact absurd hpossible id

/-! ### The connection of the entity -/

section Entity

/-- A part of a receive that does not ask for the connection of the entity. -/
abbrev Unasking (x : Traced RecvData.Event RecvData) : Prop :=
  x.Ensures (fun e => e ≠ .getEntityConnection) fun _ => True

theorem analysisProtobuf_unasking (msg : ControlMsg) (s : RecvData) :
    Unasking (s.analysisProtobuf msg) := by
  refine .tell_bind (List.forall_mem_singleton.mpr RecvData.Event.noConfusion) ?_
  refine .tell_bind ?_ ?_
  · intro e he
    obtain ⟨act, -, rfl⟩ := List.mem_map.mp he
    exact RecvData.Event.noConfusion
  · split
    · exact .fault
    · exact .pure trivial

theorem complete_unasking (recvBuf : Nat) (length : Int) (s : RecvData) :
    Unasking (s.complete recvBuf length) := by
  refine .tell_bind (List.forall_mem_singleton.mpr RecvData.Event.noConfusion) ?_
  split
  · exact analysisProtobuf_unasking _ _
  · split
    · exact .fault
    · refine .tell_bind (List.forall_mem_singleton.mpr RecvData.Event.noConfusion) ?_
      exact analysisProtobuf_unasking _ _

/-- Over RDMA the rest is asked for elsewhere. -/
theorem completed_unasking (bytes : List UInt8) (receive : RecvData) :
    Unasking (RdmaRecv.completed bytes receive) := by
  unfold RdmaRecv.completed RecvData.callback
  split
  · dsimp only
    split
    · exact complete_unasking _ _ _
    · refine .tell_bind (List.forall_mem_singleton.mpr RecvData.Event.noConfusion) ?_
      exact .pure trivial
  · exact .fault

theorem handleRecv_unasking (completions : List (List UInt8)) (s : RdmaRecv) :
    (s.handleRecv completions).Ensures (fun e => e ≠ .getEntityConnection) fun _ => True := by
  induction completions generalizing s with
  | nil => exact .pure trivial
  | cons bytes completions ih =>
      exact (completed_unasking bytes s.receive).bind fun _ _ => ih _

theorem rdmaRecvStep_unasking (s : RdmaRecv) (action : RdmaRecv.Action) :
    (s.step action).Ensures (fun e => e ≠ .getEntityConnection) fun _ => True := by
  cases action with
  | recvMessage posts => exact .pure trivial
  | handleRecv completions => exact handleRecv_unasking completions s

/-- An execution whose actions never stand for the question, in the view that has only the
calls. -/
theorem ensures_view_unasking {ε σ : Type} {ok : ε → Prop} {calls : ε → List Call}
    {f : σ → Transfer} {x : Traced ε σ} (h : x.Ensures ok fun _ => True)
    (hcalls : ∀ e, ok e → .getEntityConnection ∉ calls e) (hf : ∀ s, ¬ AsksEntity (f s)) :
    (x.view calls f).Ensures (fun call => call ≠ .getEntityConnection) fun t => ¬ AsksEntity t := by
  refine h.view (fun e he call hcall heq => ?_) fun s _ => hf s
  exact hcalls e he (heq ▸ hcall)

/-- Senders and files have no use for the connection of the entity. -/
theorem not_mem_ofSend (e : Session.Event) : .getEntityConnection ∉ Call.ofSend e := by
  cases e <;> simp [Call.ofSend]

theorem not_mem_ofRecvFile (e : RecvFile.Event) : .getEntityConnection ∉ Call.ofRecvFile e := by
  cases e <;> simp [Call.ofRecvFile]

theorem not_mem_ofUdp (e : UdpSession.Event) : .getEntityConnection ∉ Call.ofUdp e := by
  cases e <;> simp [Call.ofUdp]

theorem not_mem_ofRecvData (e : RecvData.Event) (h : e ≠ .getEntityConnection) :
    .getEntityConnection ∉ Call.ofRecvData e := by
  cases e with
  | getEntityConnection => exact absurd rfl h
  | client act => cases act <;> simp [Call.ofRecvData]
  | _ => simp [Call.ofRecvData]

/-- Nothing is known of an execution. -/
theorem ensures_true {ε σ : Type} (x : Traced ε σ) : x.Ensures (fun _ => True) fun _ => True :=
  ⟨fun _ _ => trivial, fun _ _ => trivial⟩

/-- A transfer that does not ask for the connection of the entity any more never does. -/
theorem AsksEntity.idle {κ : Type} (md5 : Md5 κ) {t : Transfer} (h : ¬ AsksEntity t)
    {action : Transfer.Action} (hpossible : t.Possible action) :
    (t.step md5 action).Ensures (fun call => call ≠ .getEntityConnection)
      fun t' => ¬ AsksEntity t' := by
  cases t with
  | recvData s =>
      -- the only kind of transfer that asks for the connection of the entity
      refine (InFlight.idle md5 (t := .recvData s) h hpossible).mono (fun _ => False.elim)
        fun t' ht' hasks => ?_
      cases t' with
      | recvData s' => exact ht' hasks
      | _ => exact hasks
  | sendFile s =>
      -- the others have no such call
      cases action with
      | sendFile action =>
          exact ensures_view_unasking (ensures_true _) (fun e _ => not_mem_ofSend e) fun _ => id
      | _ => exact absurd hpossible id
  | sendData buffer_ s =>
      cases action with
      | sendData action =>
          exact ensures_view_unasking (ensures_true _) (fun e _ => not_mem_ofSend e) fun _ => id
      | _ => exact absurd hpossible id
  | sendDataRdma s =>
      cases action with
      | sendDataRdma action =>
          exact ensures_view_unasking (ensures_true _) (fun e _ => not_mem_ofSend e) fun _ => id
      | _ => exact absurd hpossible id
  | recvFile s =>
      cases action with
      | recvFile action =>
          exact ensures_view_unasking (ensures_true _) (fun e _ => not_mem_ofRecvFile e) fun _ => id
      | _ => exact absurd hpossible id
  | recvDataRdma s =>
      cases action with
      | recvDataRdma action =>
          exact ensures_view_unasking (rdmaRecvStep_unasking s action) not_mem_ofRecvData
            fun _ => id
      | _ => exact absurd hpossible id
  | recvUdpData s =>
      cases action with
      | recvUdpData action =>
          exact ensures_view_unasking (ensures_true _) (fun e _ => not_mem_ofUdp e) fun _ => id
      | _ => exact absurd hpossible id
  | recvFileRequest s timer =>
      cases action with
      | handleRecvfileFail =>
          exact ensures_view_unasking (ensures_true _) (fun e _ => not_mem_ofRecvFile e) fun _ => id
      | _ => exact absurd hpossible id

end Entity

end Ndsl.Proofs.Transfers
