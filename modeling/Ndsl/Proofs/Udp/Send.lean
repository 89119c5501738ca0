import Ndsl.Lib.Outbox
import Ndsl.Net.UdpSend

/-!
# `Ndsl.Proofs.Udp.Send`: the datagrams that an endpoint defers

A call of `onSend` is a turn for its own datagram, and the loop's word that the socket takes data is
a turn for those that were deferred. `SendLaw` is the law of `Ndsl.Lib.Outbox`: every `sendto` gets
the whole datagram of one call, the deferred ones in their order, and the callback is called when
its datagram has been accepted.

A deferred datagram has `-1` as its offset, since `onSend` keeps the result of `sendto` in a
`size_t`. So `handleWrite` sends from the byte in front of the buffer on, one byte more than there
are; and an endpoint that `start` has set up never calls it. `faithful_iff` says that this is when
the law breaks: when there is a datagram to send in a later turn.
-/

set_option autoImplicit false

namespace Ndsl.Proofs.Udp.Send

open Ndsl.Lib Ndsl.Lib.Outbox
open Ndsl.Net (S_OK BaseChannel EPOLLIN EPOLLOUT EPOLLHUP EPOLLRDHUP EPOLLERR toSize
  toSize_of_nonneg)
open Ndsl.Net.Tcp (MSG_NOSIGNAL IoResult)
open Ndsl.Net.UdpSend

/-! ### The law -/

/-- A datagram: where its bytes are, how many, and where they go. -/
structure Datagram where
  buf : Nat
  len : Nat
  dest_addr : Nat
  addrlen : Nat
  deriving Repr, DecidableEq

/-- The datagram of an `onSend`. -/
def datagramOf (m : Message) : Datagram :=
  { buf := m.buf, len := m.len, dest_addr := m.dest_addr, addrlen := m.addrlen }

/-- The datagrams that a call has passed to the kernel. -/
def passed (acts : List Act) : List Datagram :=
  acts.filterMap fun
    | .sendto buf len _ dest_addr addrlen _ => some ⟨buf, len, dest_addr, addrlen⟩
    | .callback _ _ => none

/-- The kernel has accepted one. -/
def accepted (acts : List Act) : Bool :=
  acts.any fun
    | .sendto _ _ _ _ _ (.count _) => true
    | _ => false

/-- The callbacks that a call has called. -/
def called (acts : List Act) : List (Nat × Nat) :=
  acts.filterMap fun
    | .callback cb p => some (cb, p)
    | .sendto .. => none

/-- A turn for a message: its datagram is passed to the kernel, and its callback is called when that
has accepted it, unless it is `NULL`. -/
structure Sends (m : Message) (acts : List Act) : Prop where
  passed : passed acts = [datagramOf m]
  called : called acts = if accepted acts then m.cb.toList.map (·, m.p) else []

/-- A turn in which there is nothing to send. -/
structure Quiet (acts : List Act) : Prop where
  passed : passed acts = []
  called : called acts = []

/-- The law: of each turn; every datagram that is passed to the kernel is the one of a call; and
those that are accepted later are the first that were deferred, in their order, each once. -/
structure SendLaw (log : List (Turn Message (List Act))) : Prop where
  turns : Faithful accepted Sends Quiet log
  whole : ∀ turn ∈ log, ∀ d ∈ passed turn.done, ∃ m ∈ messages log, d = datagramOf m
  inOrder : (late accepted log).flatMap passed <+: (deferred accepted log).map datagramOf

/-! ### Runs -/

/-- A call of `onSend`, or the loop's word that the socket takes data, with the result of the
`sendto` that is made. -/
inductive Action
  | onSend (m : Message) (n : IoResult)
  | writable (n : IoResult)
  deriving Repr, DecidableEq

/-- One step, as a turn. -/
def step (point : UdpEndpoint) : Action → Traced (Turn Message (List Act)) UdpEndpoint
  | .onSend m n => (onSend m n point).record (.now m) fun x _ => x.2
  | .writable n => (writable n point).record .later fun x _ => x.2

/-- How an endpoint is set up, with its socket. -/
inductive Setup
  | createChannel (sfd : Nat)
  | start (socket : Nat)
  deriving Repr, DecidableEq

/-- The endpoint. -/
def Setup.endpoint : Setup → UdpEndpoint
  | .createChannel sfd => (Ndsl.Net.UdpSend.createChannel sfd {}).2
  | .start socket => (Ndsl.Net.UdpSend.start socket 0 {}).2

/-- A `sendto` accepts all it gets, or would block. The length is one that it can return. -/
def Legal (point : UdpEndpoint) : Action → Prop
  | .onSend m n => m.len < 2 ^ 63 ∧ (n = .count m.len ∨ n = .again)
  | .writable n => ∀ tsi ∈ point.SendInfo_.head?, n = .count tsi.rest ∨ n = .again

/-- The steps that keep the law: the loop finds nothing deferred. -/
def InTime (point : UdpEndpoint) : Action → Prop
  | .onSend _ _ => True
  | .writable _ => point.SendInfo_ = []

instance (point : UdpEndpoint) (action : Action) : Decidable (Legal point action) := by
  unfold Legal
  cases action <;> infer_instance

instance (point : UdpEndpoint) (action : Action) : Decidable (InTime point action) := by
  unfold InTime
  cases action <;> infer_instance

section Law
variable {log : List (Turn Message (List Act))} {acts : List Act}

/-- What passes nothing has nothing accepted. -/
theorem not_accepted_of_quiet (h : Quiet acts) : accepted acts = false := by
  refine List.any_eq_false.mpr fun act hact htrue => ?_
  cases act with
  | callback cb p => exact Bool.false_ne_true htrue
  | sendto buf len flags dest_addr addrlen n =>
      have hmem : (⟨buf, len, dest_addr, addrlen⟩ : Datagram) ∈ passed acts :=
        List.mem_filterMap.mpr ⟨_, hact, rfl⟩
      rw [h.passed] at hmem
      exact absurd hmem List.not_mem_nil

/-- The law of the turns says the rest. -/
theorem SendLaw.of_turns (h : Faithful accepted Sends Quiet log) : SendLaw log := by
  refine ⟨h, fun turn hturn d hd => ?_, ?_⟩
  · rcases h.attempt turn hturn with hquiet | ⟨m, hm, hsends⟩
    · rw [hquiet.passed] at hd
      exact absurd hd List.not_mem_nil
    · rw [hsends.passed] at hd
      exact ⟨m, hm, List.mem_singleton.mp hd⟩
  · have hgo : ∀ {ms : List Message} {dones : List (List Act)}, List.Forall₂ Sends ms dones →
        dones.flatMap passed = ms.map datagramOf := by
      intro ms dones hall
      induction hall with
      | nil => rfl
      | cons hsends _ ih =>
          rw [List.flatMap_cons, List.map_cons, hsends.passed, ih]
          rfl
    rw [hgo (h.inOrder fun _ => not_accepted_of_quiet), List.map_take]
    exact List.take_prefix ..

end Law

/-! ### The calls -/

/-- The request that is left for a message when the socket is full. -/
def queued (m : Message) : Info := onSend.info m .again

section Calls
variable {m : Message} {n : IoResult} {point : UdpEndpoint} {channel : UdpChannel}
  {acts : List Act} {ret : Int} {point' : UdpEndpoint} {rest : List Info}

theorem callback_yields (cb : Option Nat) (p : Nat) :
    (callback cb p).Yields (cb.toList.map (.callback · p)) () := by
  cases cb with
  | none => exact ⟨rfl, rfl⟩
  | some cb => exact ⟨rfl, rfl⟩

/-- A datagram that is accepted at once. -/
theorem onSend_accepted (hchannel : point.pUdpChannel_ = some channel) (hlen : m.len < 2 ^ 63) :
    ∃ acts, (onSend m (.count m.len) point).Yields acts (S_OK, point) ∧ accepted acts = true ∧
      Sends m acts := by
  have hsize : toSize (IoResult.count m.len).value = m.len := by
    show toSize (m.len : Int) = m.len
    rw [toSize_of_nonneg (by omega) (by omega)]
    rfl
  refine ⟨.sendto m.buf m.len (m.flags ||| MSG_NOSIGNAL) m.dest_addr m.addrlen (.count m.len) ::
    m.cb.toList.map (.callback · m.p), ?_, rfl, ?_⟩
  · unfold onSend
    rw [hchannel]
    refine (Traced.tell_bind_yields ..).mpr ⟨_, ?_, rfl⟩
    rw [if_pos hsize]
    exact Traced.bind_yields.mpr ⟨_, (), [], callback_yields m.cb m.p,
      (Traced.pure_yields ..).mpr ⟨rfl, rfl⟩, (List.append_nil _).symm⟩
  · cases hcb : m.cb <;> exact ⟨rfl, by rw [hcb]; rfl⟩

/-- A datagram that is deferred. -/
theorem onSend_deferred (hchannel : point.pUdpChannel_ = some channel) (hlen : m.len < 2 ^ 63) :
    ∃ acts, (onSend m .again point).Yields acts
        (S_OK, { point with SendInfo_ := point.SendInfo_ ++ [queued m] }) ∧
      accepted acts = false ∧ Sends m acts := by
  have hsize : ¬ toSize IoResult.again.value = m.len := by
    have hvalue : toSize IoResult.again.value = 2 ^ 64 - 1 := rfl
    omega
  refine ⟨[.sendto m.buf m.len (m.flags ||| MSG_NOSIGNAL) m.dest_addr m.addrlen .again], ?_, rfl,
    ⟨rfl, rfl⟩⟩
  unfold onSend
  rw [hchannel]
  refine (Traced.tell_bind_yields ..).mpr ⟨[], ?_, rfl⟩
  rw [if_neg hsize]
  exact (Traced.pure_yields ..).mpr ⟨rfl, rfl⟩

/-- The channel calls its write handler and nothing else. -/
theorem handleEvent_upward (channel : UdpChannel) :
    (writable.upward n channel).handleEvent point =
      (BaseChannel.call (writable.upward n channel).handleWrite_ point >>= fun up =>
        pure (S_OK, up)) := by
  have hin : BaseChannel.has EPOLLOUT EPOLLIN = false := by decide
  have hout : BaseChannel.has EPOLLOUT EPOLLOUT = true := by decide
  simp only [BaseChannel.handleEvent, BaseChannel.handleReadWrite, BaseChannel.handleError,
    writable.upward, hin, hout, Bool.false_eq_true, if_false, if_true, false_and, Traced.pure_bind]

/-- Nothing is deferred, and nothing is done. -/
theorem writable_nothing (hchannel : point.pUdpChannel_ = some channel)
    (hnone : point.SendInfo_ = []) : (writable n point).Yields [] (S_OK, point) := by
  unfold writable
  rw [hchannel]
  dsimp only
  rw [handleEvent_upward, writable.upward]
  split
  · refine Traced.bind_yields.mpr ⟨[], point, [], ?_, ⟨rfl, rfl⟩, rfl⟩
    refine Traced.bind_yields.mpr ⟨[], (S_OK, point), [], ?_, ⟨rfl, rfl⟩, rfl⟩
    unfold handleWrite
    rw [hnone]
    exact ⟨rfl, rfl⟩
  · exact ⟨rfl, rfl⟩

/-- A call that does not pass the datagram of a message does not send it. -/
theorem not_sends {ds : List Datagram} (hpassed : passed acts = ds) (hne : ds ≠ [datagramOf m]) :
    ¬ Sends m acts := fun h => hne (hpassed.symm.trans h.passed)

/-- What a `handleWrite` passes to the kernel when a message is deferred: one byte too much, or
nothing. -/
theorem handleWrite_passed (hqueue : point.SendInfo_ = queued m :: rest)
    (h : (handleWrite n point).Yields acts (ret, point')) :
    passed acts = [] ∨ ∃ buf, passed acts = [⟨buf, (queued m).rest, m.dest_addr, m.addrlen⟩] := by
  unfold handleWrite at h
  rw [hqueue] at h
  dsimp only at h
  split at h
  · exact absurd h (Traced.fault_yields _ _)
  · split at h
    · obtain ⟨rfl, -⟩ := (Traced.pure_yields ..).mp h
      exact .inl rfl
    · refine .inr ⟨(queued m).at, ?_⟩
      obtain ⟨fs, hrest, rfl⟩ := (Traced.tell_bind_yields ..).mp h
      have hquiet : passed fs = [] := by
        split at hrest
        · split at hrest
          · obtain ⟨gs, u, hs, hcallback, hpure, rfl⟩ := Traced.bind_yields.mp hrest
            obtain ⟨rfl, -⟩ := (Traced.pure_yields ..).mp hpure
            obtain ⟨rfl, -⟩ := hcallback.unique (callback_yields _ _)
            rw [List.append_nil]
            exact List.filterMap_eq_nil_iff.mpr fun act hact => by
              obtain ⟨cb, -, rfl⟩ := List.mem_map.mp hact
              rfl
          · obtain ⟨rfl, -⟩ := (Traced.pure_yields ..).mp hrest
            rfl
        · obtain ⟨rfl, -⟩ := (Traced.pure_yields ..).mp hrest
          rfl
      exact congrArg (_ :: ·) hquiet

/-- A message that was deferred is not sent later. -/
theorem not_sends_writable (hqueue : point.SendInfo_ = queued m :: rest)
    (h : (writable n point).Yields acts (ret, point')) : ¬ Sends m acts := by
  have hlonger : (queued m).rest ≠ m.len := by
    have hoffset : (queued m).offset_ = 2 ^ 64 - 1 := rfl
    show (m.len + 2 ^ 64 - (queued m).offset_) % 2 ^ 64 ≠ m.len
    omega
  have hempty : ([] : List Datagram) ≠ [datagramOf m] := (List.cons_ne_nil _ _).symm
  unfold writable at h
  split at h
  · exact absurd h (Traced.fault_yields _ _)
  rw [handleEvent_upward] at h
  obtain ⟨es, up, fs, hcall, hpure, rfl⟩ := Traced.bind_yields.mp h
  obtain ⟨rfl, -⟩ := (Traced.pure_yields ..).mp hpure
  rw [List.append_nil]
  rw [writable.upward] at hcall
  dsimp only at hcall
  split at hcall
  · obtain ⟨gs, ⟨ret, point'⟩, hs, hwrite, hpure, rfl⟩ := Traced.bind_yields.mp hcall
    obtain ⟨rfl, -⟩ := (Traced.pure_yields ..).mp hpure
    rw [List.append_nil]
    rcases handleWrite_passed hqueue hwrite with hpassed | ⟨buf, hpassed⟩
    · exact not_sends hpassed hempty
    · refine not_sends hpassed fun heq => hlonger ?_
      exact (Datagram.mk.inj (List.singleton_inj.mp heq)).2.1
  · -- the channel of `start` has no handler to call
    obtain ⟨rfl, -⟩ := (Traced.pure_yields ..).mp hcall
    exact not_sends rfl hempty

end Calls

/-! ### Runs whose steps are in time -/

/-- The invariant: the law of the turns, and what is queued are the messages that are deferred. -/
structure Inv (log : List (Turn Message (List Act))) (point : UdpEndpoint) : Prop where
  channel : ∃ channel, point.pUdpChannel_ = some channel
  turns : Faithful accepted Sends Quiet log
  queue : point.SendInfo_ = (outstanding accepted log).map queued

section Runs
variable {log es : List (Turn Message (List Act))} {point point' : UdpEndpoint} {m : Message}
  {n : IoResult} {action : Action}

/-- An `onSend` keeps the invariant. -/
theorem Inv.onSend (h : Inv log point) (hlegal : Legal point (.onSend m n)) :
    ∃ es t, (step point (.onSend m n)).Yields es t ∧ Inv (log ++ es) t := by
  obtain ⟨channel, hchannel⟩ := h.channel
  obtain ⟨hlen, rfl | rfl⟩ := hlegal
  · obtain ⟨acts, hcall, haccepted, hsends⟩ := onSend_accepted hchannel hlen
    refine ⟨_, _, Traced.record_yields.mpr ⟨acts, _, hcall, rfl, rfl⟩, h.channel,
      h.turns.now hsends, ?_⟩
    rw [outstanding_now haccepted]
    exact h.queue
  · obtain ⟨acts, hcall, hnot, hsends⟩ := onSend_deferred hchannel hlen
    refine ⟨_, _, Traced.record_yields.mpr ⟨acts, _, hcall, rfl, rfl⟩, h.channel,
      h.turns.now hsends, ?_⟩
    rw [outstanding_deferred hnot (h.turns.late_le fun _ => not_accepted_of_quiet),
      List.map_append, ← h.queue]
    rfl

/-- When nothing is deferred, the loop's word changes nothing. -/
theorem Inv.writable (h : Inv log point) (hnone : point.SendInfo_ = []) :
    ∃ es t, (step point (.writable n)).Yields es t ∧ Inv (log ++ es) t := by
  obtain ⟨channel, hchannel⟩ := h.channel
  have houtstanding : outstanding accepted log = [] := List.map_eq_nil_iff.mp (h.queue ▸ hnone)
  refine ⟨_, _, Traced.record_yields.mpr ⟨[], _, writable_nothing hchannel hnone, rfl, rfl⟩,
    h.channel, h.turns.idle houtstanding ⟨rfl, rfl⟩, ?_⟩
  rw [outstanding_later rfl]
  exact h.queue

/-- A step in time keeps the invariant. -/
theorem Inv.step (h : Inv log point) (hlegal : Legal point action) (hok : InTime point action) :
    ∃ es t, (step point action).Yields es t ∧ Inv (log ++ es) t := by
  cases action with
  | onSend m n => exact h.onSend hlegal
  | writable n => exact h.writable hok

/-- A step that keeps the law is in time. -/
theorem Inv.inTime (h : Inv log point) (hstep : (Send.step point action).Yields es point')
    (hlaw : SendLaw (log ++ es)) : InTime point action := by
  cases action with
  | onSend m n => trivial
  | writable n =>
      obtain ⟨acts, ⟨ret, point'⟩, hcall, rfl, rfl⟩ := Traced.record_yields.mp hstep
      cases houtstanding : outstanding accepted log with
      | nil =>
          have hqueue := h.queue
          rw [houtstanding] at hqueue
          exact hqueue
      | cons m rest =>
          have hqueue := h.queue
          rw [houtstanding] at hqueue
          exact absurd (hlaw.turns.last_later houtstanding) (not_sends_writable hqueue hcall)

end Runs

/-! ### Whole runs -/

/-- What `start` sets up. -/
theorem start_endpoint (socket : Nat) : (Setup.start socket).endpoint =
    { sfd_ := socket, pUdpChannel_ := some { fd := socket, handleWrite_ := false } } := by
  have hopen : ¬ (socket : Int) < 0 := Int.not_lt.mpr (Int.natCast_nonneg socket)
  have hbound : ¬ (-1 : Int) = 0 := by decide
  simp only [Setup.endpoint, Ndsl.Net.UdpSend.start, createAndBind, if_neg hopen, if_neg hbound]
  rfl

/-- However an endpoint is set up, runs whose steps are in time keep the law, and another step keeps
it exactly when it is in time. -/
theorem faithful_iff {setup : Setup} {actions : List Action}
    {log : List (Turn Message (List Act))} {point : UdpEndpoint}
    (hrun : Traced.Run step (fun point action => Legal point action ∧ InTime point action)
      setup.endpoint actions log point) :
    SendLaw log ∧ ∀ action, Legal point action →
      ((∃ es t, (step point action).Yields es t ∧ SendLaw (log ++ es)) ↔ InTime point action) := by
  have hempty : Inv [] setup.endpoint := by
    cases setup with
    | createChannel sfd => exact ⟨⟨_, rfl⟩, .nil, rfl⟩
    | start socket =>
        rw [start_endpoint]
        exact ⟨⟨_, rfl⟩, .nil, rfl⟩
  have hinv : Inv log point := hrun.invariant (P := fun _ log point => Inv log point) hempty
    fun _ log point action es t h hok hstep => by
      obtain ⟨es', t', hstep', hnext⟩ := h.step hok.1 hok.2
      obtain ⟨rfl, rfl⟩ := hstep.unique hstep'
      exact hnext
  refine ⟨.of_turns hinv.turns, fun action hlegal => ⟨?_, fun hok => ?_⟩⟩
  · rintro ⟨es, t, hstep, hlaw⟩
    exact hinv.inTime hstep hlaw
  · obtain ⟨es, t, hstep, hnext⟩ := hinv.step hlegal hok
    exact ⟨es, t, hstep, .of_turns hnext.turns⟩

/-- A message with a callback. -/
def messageOf (buf len cb : Nat) : Message :=
  { buf := buf, len := len, flags := 0, dest_addr := 50, addrlen := 16, cb := some cb, p := 7 }

/-- A datagram that is accepted, and one that is deferred. -/
theorem faithful_iff_deferred : ∃ log point,
    Traced.Run step (fun point action => Legal point action ∧ InTime point action)
      (Setup.createChannel 4).endpoint
      [.writable .again, .onSend (messageOf 100 2 5) (.count 2), .onSend (messageOf 200 3 6) .again]
      log point ∧
    point.SendInfo_ = [queued (messageOf 200 3 6)] ∧ SendLaw log ∧ ∀ action, Legal point action →
      ((∃ es t, (step point action).Yields es t ∧ SendLaw (log ++ es)) ↔ InTime point action) := by
  have hrun : ∃ log point,
      Traced.Run step (fun point action => Legal point action ∧ InTime point action)
        (Setup.createChannel 4).endpoint
        [.writable .again, .onSend (messageOf 100 2 5) (.count 2),
          .onSend (messageOf 200 3 6) .again] log point ∧
      point.SendInfo_ = [queued (messageOf 200 3 6)] := by
    refine ⟨_, _, .snoc (.snoc (.snoc (l := []) .nil ?_ ⟨rfl, rfl⟩) ?_ ⟨rfl, rfl⟩) ?_ ⟨rfl, rfl⟩,
      rfl⟩
    all_goals decide
  obtain ⟨log, point, hrun, hqueue⟩ := hrun
  exact ⟨log, point, hrun, hqueue, faithful_iff hrun⟩

/-- Two bytes that are deferred. On an endpoint of `createChannel`, three bytes go out, from the
byte in front of the buffer on; on an endpoint of `start`, none. -/
theorem deferred_garbled :
    (∃ log point, Traced.Run step Legal (Setup.createChannel 4).endpoint
      [.onSend (messageOf 100 2 5) .again, .writable (.count 3)] log point ∧
      passed (log.flatMap Turn.done) = [⟨100, 2, 50, 16⟩, ⟨99, 3, 50, 16⟩] ∧ ¬ SendLaw log) ∧
    ∃ log point, Traced.Run step Legal (Setup.start 4).endpoint
      [.onSend (messageOf 100 2 5) .again, .writable (.count 3)] log point ∧
      passed (log.flatMap Turn.done) = [⟨100, 2, 50, 16⟩] ∧ ¬ SendLaw log := by
  refine ⟨⟨_, _, .snoc (.snoc (l := []) .nil ?_ ⟨rfl, rfl⟩) ?_ ⟨rfl, rfl⟩, rfl, fun h => ?_⟩,
    ⟨_, _, .snoc (.snoc (l := []) .nil ?_ ⟨rfl, rfl⟩) ?_ ⟨rfl, rfl⟩, rfl, fun h => ?_⟩⟩
  case refine_3 =>
    have hsends := Faithful.last_later (m := messageOf 100 2 5) h.turns rfl
    exact absurd hsends.passed (by decide)
  case refine_6 =>
    have hsends := Faithful.last_later (m := messageOf 100 2 5) h.turns rfl
    exact absurd hsends.passed (by decide)
  all_goals decide

end Ndsl.Proofs.Udp.Send
