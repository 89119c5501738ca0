import Ndsl.Net.UdpSession

/-!
# `Ndsl.Proofs.Udp.Session`: the lifetime of a session that receives over UDP

`UdpLifetimes` is what a session owes to its objects and to its user: the callback is called once at
most, nothing is used or deleted after it was deleted, and a block that was handed over is not
deleted.

The callback leaves the endpoint registered and the timer set, and both go on to what it has
deleted; so does the endpoint behind the timer. `udpLifetimes_iff` says that a session keeps what it
owes exactly when no datagram is there at the start, and neither the endpoint nor the timer is
called once the callback or the timer has been.
-/

set_option autoImplicit false

namespace Ndsl.Proofs.Udp

open Ndsl.Lib
open Ndsl.Lib.Access
open Ndsl.Net Ndsl.Net.Dtp Ndsl.Net.Dtp.UdpSession
open Ndsl.Net.Tcp (EAGAIN RecvResult)

/-! ### What a session did -/

/-- The accesses of a trace. -/
def accesses (log : List Event) : List (Access Object) :=
  log.filterMap fun
    | .access _ a => some a
    | _ => none

@[simp] theorem accesses_append (log es : List Event) :
    accesses (log ++ es) = accesses log ++ accesses es := List.filterMap_append

/-- The block was handed over. -/
def Handed (log : List Event) : Prop :=
  ∃ flag buf, .dataCallback flag buf ∈ log

/-- What a session owes to its objects and its user. -/
structure UdpLifetimes (log : List Event) : Prop where
  once : log.count .recvUdpDataCallback ≤ 1
  safe : Safe (accesses log)
  kept : Handed log → .recvBuf ∉ deleted (accesses log)

/-- Neither the callback nor the timer has been called. -/
def Waiting (s : UdpSession) : Prop :=
  s.info.temp_ = true ∧ s.timer = true

/-- A step that calls the endpoint or the timer finds the session waiting. -/
def InTime (s : UdpSession) : UdpAction → Prop
  | .ready => True
  | .handleRead _ => Waiting s
  | .stopListenOfUdp => Waiting s

/-- The invariant of a session whose steps all come in time. -/
structure UdpInv (log : List Event) (s : UdpSession) : Prop where
  once : log.count .recvUdpDataCallback ≤ 1
  safe : Safe (accesses log)
  kept : Handed log → .recvBuf ∉ deleted (accesses log)
  waiting : Waiting s → s.info.recvBuf_ = some 0 ∧ .recvUdpDataCallback ∉ log ∧ ¬ Handed log ∧
    deleted (accesses log) = []
  called : s.info.temp_ = false → .info ∈ deleted (accesses log) ∧ .point ∈ deleted (accesses log)
  fired : s.timer = false → .point ∈ deleted (accesses log)

section Steps
variable {log es : List Event} {s t : UdpSession}

theorem UdpInv.lifetimes (h : UdpInv log s) : UdpLifetimes log :=
  ⟨h.once, h.safe, h.kept⟩

/-! ### The callback -/

/-- The accesses of the callback, when it handles the block as `block` says. -/
def clearing (block : Access Object) : List (Access Object) :=
  [.use .info, .use .bufLen, .use .info, block, .use .info, .use .info, .use .info,
    .delete .bufLen, .use .info, .delete .point, .use .info, .delete .info]

/-- What the callback does behind its check, when `flag` is the outcome. -/
def settling (flag : Int) : List Event :=
  [use .recvUdpDataCallback .info, .analysisProtobuf flag, use .recvUdpDataCallback .info,
    .access .recvUdpDataCallback (.delete .bufLen), use .recvUdpDataCallback .info,
    .access .recvUdpDataCallback (.delete .point), use .recvUdpDataCallback .info,
    .access .recvUdpDataCallback (.delete .info)]

/-- What the callback does when `block` are the events of its check. -/
def called (block : List Event) (flag : Int) : List Event :=
  [use .recvUdpDataCallback .info, use .recvUdpDataCallback .bufLen,
    use .recvUdpDataCallback .info] ++ (block ++ settling flag)

/-- The callback, once its check is done. -/
theorem recvUdpDataCallback_of_check {block : List Event} {flag : Int}
    (hcheck : s.check.Yields block (flag, t)) (htemp : t.info.temp_ = true) :
    s.recvUdpDataCallback.Yields (.recvUdpDataCallback :: called block flag)
      { t with info := { t.info with temp_ := false } } := by
  refine (Traced.tell_bind_yields ..).mpr ⟨block ++ settling flag, Traced.bind_yields.mpr
    ⟨block, (flag, t), settling flag, hcheck, ?_, rfl⟩, rfl⟩
  simp only [deletePoint, htemp, if_true]
  exact ⟨rfl, rfl⟩

/-- The callback checks the block, or deletes it and hands nothing over. -/
theorem recvUdpDataCallback_yields (hbuf : s.info.recvBuf_ = some 0) (htemp : s.info.temp_ = true) :
    ∃ es t, s.recvUdpDataCallback.Yields (.recvUdpDataCallback :: es) t ∧
      .recvUdpDataCallback ∉ es ∧
      (accesses es = clearing (.use .recvBuf) ∨
        accesses es = clearing (.delete .recvBuf) ∧ ¬ Handed es) ∧
      t.info.temp_ = false ∧ t.timer = s.timer := by
  by_cases hlen : s.bufLen = toSize s.info.dataSize_
  · -- the length is right, and the checksum decides
    by_cases hcrc : getCRC16_CCITT (s.mem.read (0 : Nat) s.info.dataSize_.toNat) ≠ s.info.checkSum_
    · have hcheck : s.check.Yields [use .recvUdpDataCallback .recvBuf,
          use .recvUdpDataCallback .info] (RECVUDPDATAFAIL, s) := by
        simp only [check, if_pos hlen, check.block, hbuf, Traced.pure_bind, if_pos hcrc]
        exact ⟨rfl, rfl⟩
      refine ⟨_, _, recvUdpDataCallback_of_check hcheck htemp, ?_, .inl rfl, rfl, rfl⟩
      simp [called, settling, UdpSession.use]
    · have hcheck : s.check.Yields [use .recvUdpDataCallback .recvBuf,
          use .recvUdpDataCallback .info, .dataCallback RECVDATASUCC
            (s.mem.read (0 : Nat) s.info.dataSize_.toNat)] (RECVDATASUCC, s) := by
        simp only [check, if_pos hlen, check.block, hbuf, Traced.pure_bind, if_neg hcrc]
        exact ⟨rfl, rfl⟩
      refine ⟨_, _, recvUdpDataCallback_of_check hcheck htemp, ?_, .inl rfl, rfl, rfl⟩
      simp [called, settling, UdpSession.use]
  · -- another length: the block is deleted before it is checked
    have hcheck : s.check.Yields [.access .recvUdpDataCallback (.delete .recvBuf),
        use .recvUdpDataCallback .info]
        (RECVUDPDATAFAIL, { s with info := { s.info with recvBuf_ := none } }) := by
      simp only [check, if_neg hlen, deleteRecvBuf, hbuf]
      exact ⟨rfl, rfl⟩
    refine ⟨_, _, recvUdpDataCallback_of_check hcheck htemp, ?_, .inr ⟨rfl, ?_⟩, rfl, rfl⟩
    · simp [called, settling, UdpSession.use]
    · simp [Handed, called, settling, UdpSession.use]

/-- However the callback is called, it deletes the record. -/
theorem info_deleted (h : s.recvUdpDataCallback.Yields es t) : .info ∈ deleted (accesses es) := by
  obtain ⟨fs, hthen, rfl⟩ := (Traced.tell_bind_yields ..).mp h
  obtain ⟨_, ⟨flag, u⟩, gs, -, hrest, rfl⟩ := Traced.bind_yields.mp hthen
  obtain ⟨ks, hdelete, rfl⟩ := (Traced.tell_bind_yields ..).mp hrest
  obtain ⟨_, _, ls, -, hlast, rfl⟩ := Traced.bind_yields.mp hdelete
  obtain ⟨_, hpure, rfl⟩ := (Traced.tell_bind_yields ..).mp hlast
  simp only [accesses_append, deleted_append, List.mem_append]
  -- the record is deleted behind everything else
  refine .inr (.inr (.inr (.inr (.inl ?_))))
  exact List.mem_cons_self ..

/-! ### The endpoint -/

/-- What the endpoint does with a request, up to the callback. -/
def receiving (point : Udp.UdpEndpoint) (result : RecvResult) : List Udp.Act :=
  [.recvfrom point.RecvInfo_.recvBuf_ MAXLINE point.RecvInfo_.flags_ result,
    .setLen point.RecvInfo_.len_ (Udp.handleRead.received result)]

/-- The endpoint calls nobody, or receives and calls the callback. -/
theorem udpHandleRead_cases (result : RecvResult) (point : Udp.UdpEndpoint) :
    (∃ ret, (Udp.handleRead result point).Yields [] (ret, point)) ∨
    (Udp.handleRead result point).Yields (receiving point result) (S_OK, point) ∨
    ∃ cb p, (Udp.handleRead result point).Yields
      (receiving point result ++ [.callback cb p]) (S_OK, point) := by
  unfold Udp.handleRead
  split
  · split
    · exact .inl ⟨_, rfl, rfl⟩
    · cases point.RecvInfo_.cb_ with
      | none => exact .inr (.inl ⟨rfl, rfl⟩)
      | some cb => exact .inr (.inr ⟨cb, _, rfl, rfl⟩)
  · exact .inl ⟨_, rfl, rfl⟩

/-- The events of a reception by `handleRead`. -/
def reading (point : Udp.UdpEndpoint) (result : RecvResult) : List Event :=
  [use .handleRead .point, use .handleRead .point,
    .point (.recvfrom point.RecvInfo_.recvBuf_ MAXLINE point.RecvInfo_.flags_ result)] ++
  (match result with
    | .fail _ => []
    | .data _ => [use .handleRead .recvBuf]) ++
  [use .handleRead .point,
    .point (.setLen point.RecvInfo_.len_ (Udp.handleRead.received result)), use .handleRead .bufLen]

/-- The session behind a reception. -/
def read (result : RecvResult) (s : UdpSession) : UdpSession :=
  { s with
    mem :=
      match result with
      | .fail _ => s.mem
      | .data datagram => s.mem.write s.point.RecvInfo_.recvBuf_ (Udp.stored MAXLINE datagram)
    bufLen := Udp.handleRead.received result }

/-- A call of the endpoint does nothing, receives, or receives and calls the callback. -/
theorem handleRead_cases (result : RecvResult) (s : UdpSession) :
    (s.handleRead result).Yields [use .handleRead .point] s ∨
    (s.handleRead result).Yields (reading s.point result) (read result s) ∨
    ∃ act, s.handleRead result =
      Traced.tell (reading s.point result ++ [use .handleRead .point, .point act]) >>=
        fun _ => (read result s).recvUdpDataCallback := by
  rcases udpHandleRead_cases result s.point with
    ⟨ret, hlog, hvalue⟩ | ⟨hlog, hvalue⟩ | ⟨cb, p, hlog, hvalue⟩
  · left
    simp only [UdpSession.handleRead, onPoint, hlog, hvalue, List.foldlM_nil]
    exact ⟨rfl, rfl⟩
  · right
    left
    simp only [UdpSession.handleRead, onPoint, hlog, hvalue, receiving]
    cases result with
    | fail errno => exact ⟨rfl, rfl⟩
    | data datagram => exact ⟨rfl, rfl⟩
  · right
    right
    refine ⟨.callback cb p, ?_⟩
    simp only [UdpSession.handleRead, onPoint, hlog, hvalue, receiving, List.cons_append,
      List.nil_append, List.foldlM_cons, List.foldlM_nil, perform]
    cases result with
    | fail errno =>
        simp only [Traced.bind_assoc, Traced.pure_bind, Traced.bind_pure,
          Traced.tell_bind_tell_bind]
        rfl
    | data datagram =>
        simp only [Traced.bind_assoc, Traced.pure_bind, Traced.bind_pure,
          Traced.tell_bind_tell_bind]
        rfl

/-! ### The invariant -/

/-- Uses change nothing of a session that waits. -/
theorem UdpInv.uses (h : UdpInv log s) (hwaiting : Waiting s)
    (huses : deleted (accesses es) = []) (hcalls : .recvUdpDataCallback ∉ es)
    (hhands : ¬ Handed es) (hinfo : t.info = s.info) (htimer : t.timer = s.timer) :
    UdpInv (log ++ es) t := by
  obtain ⟨hbuf, hcalls', hhands', hdeleted⟩ := h.waiting hwaiting
  have hnone : .recvUdpDataCallback ∉ log ++ es := by
    rw [List.mem_append, not_or]
    exact ⟨hcalls', hcalls⟩
  have hhanded : ¬ Handed (log ++ es) := by
    rintro ⟨flag, buf, hmem⟩
    rcases List.mem_append.mp hmem with hmem | hmem
    · exact hhands' ⟨flag, buf, hmem⟩
    · exact hhands ⟨flag, buf, hmem⟩
  have hall : deleted (accesses (log ++ es)) = [] := by
    rw [accesses_append, deleted_append, hdeleted, huses, List.append_nil]
  refine ⟨?_, ?_, fun hmem => absurd hmem hhanded, fun _ => ?_, ?_, ?_⟩
  · rw [List.count_eq_zero.mpr hnone]
    exact Nat.zero_le 1
  · rw [accesses_append, safe_append, hdeleted]
    exact ⟨h.safe, safeFrom_of_deleted_eq_nil huses⟩
  · exact ⟨hinfo ▸ hbuf, hnone, hhanded, hall⟩
  · intro htemp
    rw [hinfo, hwaiting.1] at htemp
    exact Bool.noConfusion htemp
  · intro hfired
    rw [htimer, hwaiting.2] at hfired
    exact Bool.noConfusion hfired

/-- The callback of a session that waits. -/
theorem UdpInv.callback (h : UdpInv log s) (hwaiting : Waiting s)
    (hstep : s.recvUdpDataCallback.Yields es t) : UdpInv (log ++ es) t := by
  obtain ⟨hbuf, hcalls, hhands, hdeleted⟩ := h.waiting hwaiting
  obtain ⟨fs, u, hyields, hcalls', hclears, htemp, htimer⟩ :=
    recvUdpDataCallback_yields hbuf hwaiting.1
  obtain ⟨rfl, rfl⟩ := hyields.unique hstep
  have hacc : accesses (log ++ .recvUdpDataCallback :: fs) = accesses log ++ accesses fs :=
    accesses_append log (.recvUdpDataCallback :: fs)
  refine ⟨?_, ?_, ?_, ?_, ?_, ?_⟩
  · rw [List.count_append, List.count_eq_zero.mpr hcalls, List.count_cons_self,
      List.count_eq_zero.mpr hcalls']
  · rw [hacc, safe_append, hdeleted]
    refine ⟨h.safe, ?_⟩
    rcases hclears with heq | ⟨heq, -⟩
    · rw [heq]
      decide
    · rw [heq]
      decide
  · -- the block is deleted only when it was not handed over
    rintro ⟨flag, buf, hmem⟩
    rw [hacc, deleted_append, hdeleted]
    rcases hclears with heq | ⟨-, hnot⟩
    · rw [heq]
      decide
    · rcases List.mem_append.mp hmem with hmem | hmem
      · exact absurd ⟨flag, buf, hmem⟩ hhands
      · rcases List.mem_cons.mp hmem with heq | hmem
        · exact Event.noConfusion heq
        · exact absurd ⟨flag, buf, hmem⟩ hnot
  · intro hwaiting'
    rw [Waiting, htemp] at hwaiting'
    exact Bool.noConfusion hwaiting'.1
  · intro _
    rw [hacc, deleted_append, hdeleted]
    rcases hclears with heq | ⟨heq, -⟩
    · rw [heq]
      decide
    · rw [heq]
      decide
  · intro hfired
    rw [htimer, hwaiting.2] at hfired
    exact Bool.noConfusion hfired

/-- The endpoint is called while the session waits. -/
theorem UdpInv.handleRead (h : UdpInv log s) (hwaiting : Waiting s) {result : RecvResult}
    (hstep : (s.handleRead result).Yields es t) : UdpInv (log ++ es) t := by
  have hreading : deleted (accesses (reading s.point result)) = [] ∧
      .recvUdpDataCallback ∉ reading s.point result ∧ ¬ Handed (reading s.point result) := by
    cases result <;> simp [reading, accesses, Access.deleted, Handed, UdpSession.use]
  rcases handleRead_cases result s with hyields | hyields | ⟨act, heq⟩
  · obtain ⟨rfl, rfl⟩ := hyields.unique hstep
    refine h.uses hwaiting rfl ?_ ?_ rfl rfl
    · simp [UdpSession.use]
    · simp [Handed, UdpSession.use]
  · obtain ⟨rfl, rfl⟩ := hyields.unique hstep
    exact h.uses hwaiting hreading.1 hreading.2.1 hreading.2.2 rfl rfl
  · -- the datagram is stored first, and then the callback is called
    rw [heq] at hstep
    obtain ⟨gs, hcallback, rfl⟩ := (Traced.tell_bind_yields ..).mp hstep
    rw [← List.append_assoc]
    refine UdpInv.callback (h.uses (t := read result s) hwaiting ?_ ?_ ?_ rfl rfl) hwaiting
      hcallback
    · rw [accesses_append, deleted_append, hreading.1]
      rfl
    · rw [List.mem_append, not_or]
      exact ⟨hreading.2.1, by simp [UdpSession.use]⟩
    · rintro ⟨flag, buf, hmem⟩
      rcases List.mem_append.mp hmem with hmem | hmem
      · exact hreading.2.2 ⟨flag, buf, hmem⟩
      · simp [UdpSession.use] at hmem

/-- The timer fires while the session waits. -/
theorem UdpInv.stopListenOfUdp (h : UdpInv log s) (hwaiting : Waiting s)
    (hstep : s.stopListenOfUdp.Yields es t) : UdpInv (log ++ es) t := by
  obtain ⟨hbuf, hcalls, hhands, hdeleted⟩ := h.waiting hwaiting
  have hyields : s.stopListenOfUdp.Yields
      [use .stopListenOfUdp .info, .access .stopListenOfUdp (.delete .point),
        .access .stopListenOfUdp (.delete .recvBuf), use .stopListenOfUdp .info,
        .access .stopListenOfUdp (.delete .bufLen)]
      { s with info := { s.info with recvBuf_ := none }, timer := false } := by
    simp only [UdpSession.stopListenOfUdp, deletePoint, deleteRecvBuf, hwaiting.1, hbuf, if_true]
    exact ⟨rfl, rfl⟩
  obtain ⟨rfl, rfl⟩ := hyields.unique hstep
  -- the block is deleted, but it was not handed over
  have hnone : ¬ Handed (log ++ [use .stopListenOfUdp .info,
      .access .stopListenOfUdp (.delete .point), .access .stopListenOfUdp (.delete .recvBuf),
      use .stopListenOfUdp .info, .access .stopListenOfUdp (.delete .bufLen)]) := by
    rintro ⟨flag, buf, hmem⟩
    rcases List.mem_append.mp hmem with hmem | hmem
    · exact hhands ⟨flag, buf, hmem⟩
    · simp [UdpSession.use] at hmem
  refine ⟨?_, ?_, fun hmem => absurd hmem hnone, ?_, ?_, fun _ => ?_⟩
  · rw [List.count_append, List.count_eq_zero.mpr hcalls]
    simp [UdpSession.use]
  · rw [accesses_append, safe_append, hdeleted]
    refine ⟨h.safe, ?_⟩
    decide
  · intro hwaiting'
    exact Bool.noConfusion hwaiting'.2
  · intro htemp
    exact Bool.noConfusion (hwaiting.1.symm.trans htemp)
  · rw [accesses_append, deleted_append, hdeleted]
    decide

/-- A step in time keeps the invariant. -/
theorem UdpInv.step (h : UdpInv log s) {action : UdpAction} (hintime : InTime s action)
    (hstep : (s.udpStep action).Yields es t) : UdpInv (log ++ es) t := by
  cases action with
  | ready =>
      obtain ⟨rfl, rfl⟩ := (Traced.pure_yields ..).mp hstep
      rw [List.append_nil]
      exact ⟨h.once, h.safe, h.kept, h.waiting, h.called, h.fired⟩
  | handleRead result =>
      have hframe : UdpInv log { s with ready := false } :=
        ⟨h.once, h.safe, h.kept, h.waiting, h.called, h.fired⟩
      exact hframe.handleRead hintime hstep
  | stopListenOfUdp => exact h.stopListenOfUdp hintime hstep

/-- The use of an object that was deleted. -/
theorem not_safe_of_use {func : Func} {o : Object} (hdeleted : o ∈ deleted (accesses log)) :
    ¬ Safe (accesses (log ++ use func o :: es)) := by
  intro h
  rw [accesses_append, safe_append] at h
  exact h.2.1 hdeleted

/-- A step that does not come in time uses what was deleted. -/
theorem UdpInv.not_safe (h : UdpInv log s) {action : UdpAction}
    (hpossible : s.UdpPossible action) (hlate : ¬ InTime s action)
    (hstep : (s.udpStep action).Yields es t) : ¬ Safe (accesses (log ++ es)) := by
  cases action with
  | ready => exact absurd trivial hlate
  | handleRead result =>
      -- the callback or the timer has deleted the endpoint
      have hpoint : .point ∈ deleted (accesses log) := by
        cases htemp : s.info.temp_ with
        | false => exact (h.called htemp).2
        | true =>
            cases htimer : s.timer with
            | false => exact h.fired htimer
            | true => exact absurd ⟨htemp, htimer⟩ hlate
      have hfirst : ∃ fs, es = use .handleRead .point :: fs := by
        rcases handleRead_cases result { s with ready := false } with
          hyields | hyields | ⟨act, heq⟩
        · exact ⟨_, (hyields.unique hstep).1.symm⟩
        · exact ⟨_, (hyields.unique hstep).1.symm⟩
        · simp only [udpStep, heq] at hstep
          obtain ⟨gs, -, rfl⟩ := (Traced.tell_bind_yields ..).mp hstep
          exact ⟨_, rfl⟩
      obtain ⟨fs, rfl⟩ := hfirst
      exact not_safe_of_use hpoint
  | stopListenOfUdp =>
      have htimer : s.timer = true := hpossible
      -- the timer fires on a session whose callback was called
      have htemp : s.info.temp_ = false := by
        cases htemp : s.info.temp_ with
        | false => rfl
        | true => exact absurd ⟨htemp, htimer⟩ hlate
      obtain ⟨fs, -, rfl⟩ := (Traced.tell_bind_yields ..).mp hstep
      exact not_safe_of_use (h.called htemp).1

end Steps

/-! ### The start of a session -/

section Start
variable {msg : ControlMsg} {fd : Int} {mem : Memory} {log : List Event} {s : UdpSession}

/-- Nothing is there when `onRecv` asks for it. -/
theorem udpOnRecv_fail (r : Udp.Request) (errno : Int) (point : Udp.UdpEndpoint) :
    ∃ ret point', (Udp.onRecv r (.fail errno) point).Yields
      [.recvfrom r.buf r.capacity r.flags (.fail errno)] (ret, point') := by
  unfold Udp.onRecv
  dsimp only
  split
  · exact ⟨_, _, rfl, rfl⟩
  · exact ⟨_, _, rfl, rfl⟩

/-- A session that finds no datagram at the start waits for one. -/
theorem udpInv_start {errno : Int}
    (hagree : (agreeRecvUdpData msg fd mem (.fail errno)).Yields log s) : UdpInv log s := by
  unfold agreeRecvUdpData at hagree
  split at hagree
  · exact absurd hagree (Traced.fault_yields _ _)
  · obtain ⟨fs, u, gs, hpoint, hrest, rfl⟩ := Traced.bind_yields.mp hagree
    obtain ⟨_, hpure, rfl⟩ := (Traced.tell_bind_yields ..).mp hrest
    obtain ⟨rfl, rfl⟩ := (Traced.pure_yields ..).mp hpure
    obtain ⟨ret, point', hlog, hvalue⟩ :=
      udpOnRecv_fail (request msg.length.toNat) errno { fd := fd }
    simp only [onPoint, hlog, hvalue] at hpoint
    obtain ⟨rfl, hu⟩ := hpoint
    obtain rfl := Option.some.inj hu
    refine ⟨Nat.zero_le 1, ?_, ?_, ?_, ?_, ?_⟩
    · refine safe_iff_safeFrom.mpr ?_
      exact safeFrom_of_deleted_eq_nil rfl
    · exact fun _ => List.not_mem_nil
    · refine fun _ => ⟨rfl, ?_, ?_, rfl⟩
      · simp [perform, UdpSession.use]
      · simp [Handed, perform, UdpSession.use]
    · exact fun h => Bool.noConfusion h
    · exact fun h => Bool.noConfusion h

/-- A datagram that is there at the start. The callback deletes the record, in which the endpoint
is then remembered. -/
theorem not_safe_start {datagram : List UInt8}
    (hagree : (agreeRecvUdpData msg fd mem (.data datagram)).Yields log s) :
    ¬ Safe (accesses log) := by
  unfold agreeRecvUdpData at hagree
  split at hagree
  · exact absurd hagree (Traced.fault_yields _ _)
  · obtain ⟨fs, u, gs, hpoint, hrest, rfl⟩ := Traced.bind_yields.mp hagree
    obtain ⟨ks, -, rfl⟩ := (Traced.tell_bind_yields ..).mp hrest
    obtain ⟨hs, hcalls, rfl⟩ := (Traced.tell_bind_yields ..).mp hpoint
    obtain ⟨hlog, hvalue⟩ : (Udp.onRecv (request msg.length.toNat) (.data datagram)
        { fd := fd }).Yields [_, _, .callback 0 0] (S_OK, { fd := fd }) := ⟨rfl, rfl⟩
    simp only [hlog, hvalue, List.foldlM_cons, List.foldlM_nil, perform, Traced.bind_assoc,
      Traced.pure_bind, Traced.bind_pure, Traced.tell_bind_tell_bind] at hcalls
    obtain ⟨ms, hcallback, rfl⟩ := (Traced.tell_bind_yields ..).mp hcalls
    refine not_safe_of_use ?_
    simp only [accesses_append, deleted_append, List.mem_append]
    exact .inr (.inr (info_deleted hcallback))

end Start

/-! ### Whole runs -/

/-- A session whose steps all come in time. -/
theorem udpInv_run {log₀ log : List Event} {s₀ s : UdpSession} {actions : List UdpAction}
    (hstart : UdpInv log₀ s₀)
    (hrun : Traced.Run udpStep (fun s action => s.UdpPossible action ∧ InTime s action) s₀ actions
      log s) : UdpInv (log₀ ++ log) s := by
  refine hrun.invariant (P := fun _ log s => UdpInv (log₀ ++ log) s) ?_ ?_
  · rwa [List.append_nil]
  · intro l log s action es s' h hok hstep
    rw [← List.append_assoc]
    exact h.step hok.2 hstep

/-- A session keeps its lifetimes exactly when no datagram is there at the start, and the endpoint
and the timer are called only while neither the callback nor the timer has been. -/
theorem udpLifetimes_iff {msg : ControlMsg} {fd : Int} {mem : Memory} {first : RecvResult}
    {log₀ log : List Event} {s₀ s : UdpSession} {actions : List UdpAction}
    (hagree : (agreeRecvUdpData msg fd mem first).Yields log₀ s₀)
    (hrun : Traced.Run udpStep UdpPossible s₀ actions log s) :
    UdpLifetimes (log₀ ++ log) ↔ (∀ datagram, first ≠ .data datagram) ∧
      Traced.Run udpStep (fun s action => s.UdpPossible action ∧ InTime s action) s₀ actions log
        s := by
  cases first with
  | data datagram =>
      -- a datagram that is there at the start: the endpoint is used behind the callback
      refine ⟨fun h => ?_, fun h => absurd rfl (h.1 datagram)⟩
      have hsafe := h.safe
      rw [accesses_append, safe_append] at hsafe
      exact absurd hsafe.1 (not_safe_start hagree)
  | fail errno =>
      have hstart := udpInv_start hagree
      constructor
      · intro h
        refine ⟨fun _ => RecvResult.noConfusion, ?_⟩
        -- the accesses decide; the induction is on the run, whose prefixes are safe as well
        suffices hall : Safe (accesses (log₀ ++ log)) → Traced.Run udpStep
            (fun s action => s.UdpPossible action ∧ InTime s action) s₀ actions log s by
          exact hall h.safe
        clear h
        induction hrun with
        | nil => exact fun _ => .nil
        | snoc _ hpossible hstep ih =>
            intro hsafe
            rw [← List.append_assoc] at hsafe
            have hsafe' := hsafe
            rw [accesses_append, safe_append] at hsafe'
            have hbefore := ih hsafe'.1
            refine .snoc hbefore ⟨hpossible, ?_⟩ hstep
            by_contra hlate
            exact (udpInv_run hstart hbefore).not_safe hpossible hlate hstep hsafe
      · intro h
        exact (udpInv_run hstart h.2).lifetimes

/-- A datagram that comes while the session waits. -/
theorem udpLifetimes_iff_one :
    ∃ log₀ s₀ log s, (agreeRecvUdpData { flag := SENDDATAONUDP, length := 1 } 5 (fun _ => 0)
        (.fail EAGAIN)).Yields log₀ s₀ ∧
      Traced.Run udpStep UdpPossible s₀ [.ready, .handleRead (.data [7])] log s ∧
      UdpLifetimes (log₀ ++ log) := by
  obtain ⟨log₀, s₀, hagree⟩ : ∃ log₀ s₀, (agreeRecvUdpData
      { flag := SENDDATAONUDP, length := 1 } 5 (fun _ => 0) (.fail EAGAIN)).Yields log₀ s₀ :=
    ⟨_, _, rfl, rfl⟩
  have hrun : ∃ log s, Traced.Run udpStep (fun s action => s.UdpPossible action ∧ InTime s action)
      s₀ [.ready, .handleRead (.data [7])] log s := by
    obtain ⟨rfl, hs₀⟩ := hagree
    obtain rfl := Option.some.inj hs₀
    refine ⟨_, _, .snoc (.snoc (l := []) .nil ?ready ⟨rfl, rfl⟩) ?read ⟨rfl, rfl⟩⟩
    case ready => exact ⟨trivial, trivial⟩
    case read => exact ⟨rfl, rfl, rfl⟩
  obtain ⟨log, s, hrun⟩ := hrun
  have hpossible : Traced.Run udpStep UdpPossible s₀ _ log s := hrun.mono fun _ _ h => h.1
  exact ⟨log₀, s₀, log, s, hagree, hpossible, (udpLifetimes_iff hagree hpossible).mpr
    ⟨fun _ => RecvResult.noConfusion, hrun⟩⟩

/-- A second datagram, behind the one that was handed over. The endpoint has been deleted, and is
called. It calls the callback again, which deletes the block that the user has got. -/
theorem second_datagram :
    ∃ log₀ s₀ log s, (agreeRecvUdpData { flag := SENDDATAONUDP, length := 1, crcCheckSum := 0x74bf }
        5 (fun _ => 0) (.fail EAGAIN)).Yields log₀ s₀ ∧
      Traced.Run udpStep UdpPossible s₀
        [.ready, .handleRead (.data [7]), .ready, .handleRead (.data [7, 8])] log s ∧
      ¬ UdpLifetimes (log₀ ++ log) := by
  refine ⟨_, _, _, _, ⟨rfl, rfl⟩, .snoc (.snoc (.snoc (.snoc (l := []) .nil trivial ⟨rfl, rfl⟩)
    ?read ⟨rfl, rfl⟩) trivial ⟨rfl, rfl⟩) ?again ⟨rfl, rfl⟩, ?broken⟩
  case read => rfl
  case again => rfl
  case broken =>
    intro h
    exact h.kept ⟨RECVDATASUCC, [7], by decide +kernel⟩ (by decide +kernel)

end Ndsl.Proofs.Udp
