import Ndsl.Net.BaseChannel
import Ndsl.Net.TcpConnection

/-!
# `Ndsl.Proofs.TcpConnection.EdgeTrigger`: when a queued message is waited for

A connection on a socket that is registered edge triggered. `Kernel` is the socket: a send
buffer that drains at any time, and the events that were reported but not delivered yet. A
delivery hands all of them to `BaseChannel::handleEvent` in one word.

`NotStalled` is what is to hold whenever nothing is left to deliver: a message is queued only
while the last send did not get all it asked for and no space has been freed since, so that the
next report is sure to come. `notStalled_of_served` proves it of the runs in which every
delivery with `EPOLLOUT` finds at most one message that it can finish and no `EPOLLIN` next to
it. `stalled` shows the two ways of losing the report.
-/

set_option autoImplicit false

namespace Ndsl.Proofs.Tcp

open Ndsl.Lib
open Ndsl.Net (BaseChannel EPOLLERR EPOLLHUP EPOLLIN EPOLLOUT EPOLLRDHUP S_OK S_FALSE toSize)
open Ndsl.Net.Tcp

/-! ### The socket -/

/-- A socket with a bounded send buffer. -/
structure Kernel where
  cap : Nat
  used : Nat := 0
  /-- The last send came back short or with `EAGAIN`. -/
  lastShort : Bool := false
  /-- Space has been freed since the last send. -/
  freed : Bool := false
  /-- A send came back short or with `EAGAIN`, and no `EPOLLOUT` has been reported since. -/
  waiting : Bool := false
  pendingIn : Bool := false
  pendingOut : Bool := false
  deriving Repr, DecidableEq

namespace Kernel

/-- What is left of the send buffer. -/
def free (k : Kernel) : Nat := k.cap - k.used

/-- The state after a send that did not get all it asked for. -/
def blocked (k : Kernel) : Kernel :=
  { k with used := k.cap, lastShort := true, freed := false, waiting := true }

/-- `send` of `requested` bytes: what it returns, and the state after it. -/
def send (requested : Nat) (k : Kernel) : IoResult × Kernel :=
  if requested ≤ k.free then
    (.count requested, { k with used := k.used + requested, lastShort := false, freed := false })
  else if k.free = 0 then (.again, k.blocked)
  else (.count k.free, k.blocked)

/-- The peer takes `n` bytes. -/
def drain (n : Nat) (k : Kernel) : Kernel :=
  { k with
    used := k.used - n
    freed := true
    waiting := false
    pendingOut := k.pendingOut || k.waiting }

/-- The word of the events reported. -/
def revents (k : Kernel) : Nat :=
  (if k.pendingIn then EPOLLIN else 0) ||| (if k.pendingOut then EPOLLOUT else 0)

/-- The state once the events reported have been delivered. -/
def delivered (k : Kernel) : Kernel := { k with pendingIn := false, pendingOut := false }

end Kernel

/-- A connection and its socket. -/
structure System where
  conn : TcpConnection
  kernel : Kernel
  deriving Repr, DecidableEq

/-- One step: a call of the user, the socket, or a delivery with what there is to receive. -/
inductive Action
  | onSend (m : Message)
  | drain (n : Nat)
  | input
  | deliver (r : RecvResult)
  deriving Repr, DecidableEq

/-- `handleRead` as the channel calls it. -/
def System.read (r : RecvResult) (s : System) : Traced Act System := do
  let ret ← handleRead r s.conn
  return { s with conn := ret.2 }

/-- `handleWrite` as the channel calls it. The result does not matter when nothing is queued,
for then there is no `send`. -/
def System.write (s : System) : Traced Act System :=
  match s.conn.qSendInfo_ with
  | [] => do
    let ret ← handleWrite .again s.conn
    return { s with conn := ret.2 }
  | tsi :: _ => do
    let ret ← handleWrite (s.kernel.send tsi.rest).1 s.conn
    return { conn := ret.2, kernel := (s.kernel.send tsi.rest).2 }

/-- The channel of the connection, as `createChannel` sets it up, with a word of events. -/
def System.channel (r : RecvResult) (s : System) : BaseChannel Act System :=
  BaseChannel.enroll true
    (BaseChannel.setCallBack (System.read r) System.write { revents_ := s.kernel.revents })

/-- The steps of a run. -/
def System.step (s : System) : Action → Traced Act System
  | .onSend m => do
    let ret ← onSend m (s.kernel.send m.buf.length).1 s.conn
    return { conn := ret.2, kernel := (s.kernel.send m.buf.length).2 }
  | .drain n => pure { s with kernel := s.kernel.drain n }
  | .input => pure { s with kernel := { s.kernel with pendingIn := true } }
  | .deliver r => do
    let ret ← BaseChannel.handleEvent (s.channel r) { s with kernel := s.kernel.delivered }
    return ret.2

/-- A step that can be taken: no object is larger than half of the memory, and the peer takes
what is there. -/
def Allowed (s : System) : Action → Prop
  | .onSend m => m.buf.length < 2 ^ 63
  | .drain n => 0 < n ∧ n ≤ s.kernel.used
  | .input => True
  | .deliver _ => True

/-- A step that loses no report. A delivery with `EPOLLOUT` for a queued message comes without
`EPOLLIN`, and the message is the only one or finds too little space. An `onSend` of nothing
comes while nothing is queued, or before the delivery of an `EPOLLOUT`. -/
def Served (s : System) : Action → Prop
  | .onSend m => m.buf = [] → s.conn.qSendInfo_ = [] ∨ s.kernel.pendingOut = true
  | .drain _ => True
  | .input => True
  | .deliver _ => s.kernel.pendingOut = true → ∀ tsi rest, s.conn.qSendInfo_ = tsi :: rest →
      s.kernel.pendingIn = false ∧ (rest = [] ∨ s.kernel.free < tsi.rest)

/-- With nothing left to deliver, a queued message is waited for. -/
def NotStalled (s : System) : Prop :=
  s.kernel.pendingIn = false → s.kernel.pendingOut = false → s.conn.qSendInfo_ ≠ [] →
    s.kernel.lastShort = true ∧ s.kernel.freed = false

/-- A connection that has just been registered. `EPOLLOUT` may have been reported at once. -/
def registered (channel : TcpChannel) (cap : Nat) (out : Bool) : System :=
  { conn := { pTcpChannel_ := some channel }, kernel := { cap := cap, pendingOut := out } }

/-! ### The queue -/

section Queue
variable {channel : TcpChannel} {conn : TcpConnection}

/-- A queue entry with something left to send. -/
structure Pending (tsi : Info) : Prop where
  offset_lt : tsi.offset_ < 2 ^ 64
  len_lt : tsi.len_ < 2 ^ 64
  rest_pos : 0 < tsi.rest

/-- The entry after `j` more bytes. -/
def advance (tsi : Info) (j : Nat) : Info := { tsi with offset_ := (tsi.offset_ + j) % 2 ^ 64 }

/-- The entry is finished exactly when all of its rest is sent. -/
theorem Pending.finished_iff {tsi : Info} (h : Pending tsi) {j : Nat} (hpos : 0 < j)
    (hj : j ≤ tsi.rest) : (tsi.offset_ + j) % 2 ^ 64 = tsi.len_ ↔ j = tsi.rest := by
  obtain ⟨hoff, hlen, -⟩ := h
  unfold Info.rest toSize at *
  omega

theorem Pending.advance {tsi : Info} (h : Pending tsi) {j : Nat} (hj : j < tsi.rest) :
    Pending (advance tsi j) := by
  obtain ⟨hoff, hlen, -⟩ := h
  refine ⟨Nat.mod_lt _ (by decide), hlen, ?_⟩
  unfold Info.rest toSize at *
  simp only [Tcp.advance]
  omega

theorem pending_of_offset {tsi : Info} (hlen : tsi.len_ < 2 ^ 63)
    (hoff : tsi.offset_ = 2 ^ 64 - 1 ∨ tsi.offset_ < tsi.len_) : Pending tsi := by
  refine ⟨by omega, by omega, ?_⟩
  unfold Info.rest toSize
  omega

/-- The entry that `onSend` queues has something left to send: also the `-1` of a send that
would have blocked is an offset that is not the length. -/
theorem pending_queued {m : Message} {n : IoResult} (hsize : m.buf.length < 2 ^ 63)
    (hn : n = .again ∨ ∃ k, n = .count k ∧ k < m.buf.length) :
    ∃ tsi, Pending tsi ∧
      (onSend.queue m n conn).qSendInfo_ = conn.qSendInfo_ ++ [tsi] := by
  refine ⟨_, pending_of_offset ?_ ?_, rfl⟩
  · exact hsize
  · rcases hn with rfl | ⟨k, rfl, hk⟩
    · exact .inl rfl
    · refine .inr ?_
      show toSize (k : Int) < m.buf.length
      unfold toSize
      omega

/-! ### What a call does to the connection -/

@[simp] theorem value_callback_bind {α : Type} (cb : Option Nat) (param : Nat)
    (f : Unit → Traced Act α) : (callback cb param >>= f).value = (f ()).value := by
  cases cb <;> simp [callback]

@[simp] theorem value_onErrno_bind {α : Type} (channel : TcpChannel) (errno : Int)
    (f : Unit → Traced Act α) : (channel.onErrno errno >>= f).value = (f ()).value := by
  unfold TcpChannel.onErrno
  cases channel.errorHandle_ <;> simp

/-- An `onSend` that gets all it asks for queues nothing. -/
theorem value_onSend_all (hchannel : conn.pTcpChannel_ = some channel) (m : Message) :
    (onSend m (.count m.buf.length) conn).value = some (S_OK, conn) := by
  simp [onSend, hchannel]

/-- An `onSend` that does not, queues an entry. -/
theorem value_onSend_short (hchannel : conn.pTcpChannel_ = some channel) (m : Message)
    {n : IoResult} (hn : n = .again ∨ ∃ k, n = .count k ∧ k < m.buf.length) :
    (onSend m n conn).value = some (S_OK, onSend.queue m n conn) := by
  rcases hn with rfl | ⟨k, rfl, hk⟩
  · simp [onSend, hchannel, IoResult.again, EWOULDBLOCK]
  · simp [onSend, hchannel, Nat.ne_of_lt hk]

/-- A `handleWrite` that would have blocked drops the front of the queue. -/
theorem value_handleWrite_again (hchannel : conn.pTcpChannel_ = some channel)
    (hfd : 0 ≤ channel.fd) {tsi : Info} {rest : List Info}
    (hqueue : conn.qSendInfo_ = tsi :: rest) :
    (handleWrite .again conn).value = some (S_FALSE, { conn with qSendInfo_ := rest }) := by
  simp [handleWrite, hchannel, hqueue, Int.not_lt.mpr hfd, IoResult.again]

/-- A `handleWrite` that sends something goes on with the front of the queue, or finishes it. -/
theorem value_handleWrite_count (hchannel : conn.pTcpChannel_ = some channel)
    (hfd : 0 ≤ channel.fd) {tsi : Info} {rest : List Info} (htsi : Pending tsi)
    (hqueue : conn.qSendInfo_ = tsi :: rest) {k : Nat} (hpos : 0 < k) (hk : k ≤ tsi.rest) :
    (handleWrite (.count k) conn).value
      = some (S_OK, { conn with
          qSendInfo_ := if k = tsi.rest then rest else advance tsi k :: rest }) := by
  simp only [handleWrite, hchannel, hqueue, if_neg (Int.not_lt.mpr hfd),
    htsi.finished_iff hpos hk, if_pos hpos, Traced.value_tell_bind]
  split
  · simp
  · rfl

/-- `handleRead` leaves the send queue and the channel alone. -/
theorem value_handleRead (r : RecvResult) {ret : Int × TcpConnection}
    (h : (handleRead r conn).value = some ret) :
    ret.2.qSendInfo_ = conn.qSendInfo_ ∧ ret.2.pTcpChannel_ = conn.pTcpChannel_ := by
  unfold handleRead at h
  split at h
  · split at h
    · simp at h
    · split at h
      · obtain rfl := Option.some.inj h
        exact ⟨rfl, rfl⟩
      · split at h
        · obtain rfl := Option.some.inj h
          exact ⟨rfl, rfl⟩
        · rw [Traced.value_tell_bind] at h
          split at h <;> simp at h <;> subst h <;> exact ⟨rfl, rfl⟩
  · obtain rfl := Option.some.inj h
    exact ⟨rfl, rfl⟩

end Queue

/-! ### The invariant -/

/-- The socket is full, the last send has noticed, and the next drain will be reported. -/
structure Kernel.Blocked (k : Kernel) : Prop where
  lastShort : k.lastShort = true
  freed : k.freed = false
  waiting : k.waiting = true
  free : k.free = 0

theorem Kernel.blocked_blocked (k : Kernel) : k.blocked.Blocked :=
  ⟨rfl, rfl, rfl, Nat.sub_self _⟩

/-- A send gets all it asks for, or leaves the socket blocked. -/
theorem Kernel.send_cases (requested : Nat) (k : Kernel) :
    (requested ≤ k.free ∧
      k.send requested = (.count requested,
        { k with used := k.used + requested, lastShort := false, freed := false })) ∨
    (k.free < requested ∧ ∃ n, k.send requested = (n, k.blocked) ∧
      (n = .again ∨ ∃ j, n = .count j ∧ 0 < j ∧ j < requested)) := by
  unfold Kernel.send
  by_cases hfit : requested ≤ k.free
  · exact .inl ⟨hfit, if_pos hfit⟩
  · rw [if_neg hfit]
    rw [Nat.not_le] at hfit
    refine .inr ⟨hfit, ?_⟩
    by_cases hfull : k.free = 0
    · exact ⟨.again, if_pos hfull, .inl rfl⟩
    · exact ⟨.count k.free, if_neg hfull, .inr ⟨k.free, rfl, by omega, hfit⟩⟩

/-- What holds between two steps that are served: a queued message is waited for, or its
report is on the way. -/
structure System.Inv (channel : TcpChannel) (s : System) : Prop where
  channel_eq : s.conn.pTcpChannel_ = some channel
  pending : ∀ tsi ∈ s.conn.qSendInfo_, Pending tsi
  waited : s.conn.qSendInfo_ ≠ [] → s.kernel.pendingOut = true ∨ s.kernel.Blocked

section Steps
variable {channel : TcpChannel} {s s' : System}

theorem System.Inv.onSend {m : Message} {es : List Act} (h : s.Inv channel)
    (hallowed : Allowed s (.onSend m)) (hserved : Served s (.onSend m))
    (hstep : (s.step (.onSend m)).Yields es s') : s'.Inv channel := by
  obtain ⟨hchannel, hpending, hwaited⟩ := h
  have hvalue := hstep.2
  rcases s.kernel.send_cases m.buf.length with ⟨hfit, hsend⟩ | ⟨-, n, hsend, hn⟩
  · rw [System.step, hsend, Traced.bind_of_some _ (value_onSend_all hchannel m)] at hvalue
    obtain rfl := Option.some.inj hvalue
    refine ⟨hchannel, hpending, fun hqueue => .inl ?_⟩
    rcases hwaited hqueue with hout | hblocked
    · exact hout
    · -- only a message of no bytes fits into a full socket
      rw [hblocked.free] at hfit
      exact (hserved (List.eq_nil_of_length_eq_zero (by omega))).resolve_left hqueue
  · have hn' : n = .again ∨ ∃ k, n = .count k ∧ k < m.buf.length :=
      hn.imp_right fun ⟨j, heq, _, hlt⟩ => ⟨j, heq, hlt⟩
    obtain ⟨tsi, htsi, hqueue⟩ := @pending_queued s.conn m n hallowed hn'
    rw [System.step, hsend, Traced.bind_of_some _ (value_onSend_short hchannel m hn')] at hvalue
    obtain rfl := Option.some.inj hvalue
    refine ⟨hchannel, ?_, fun _ => .inr s.kernel.blocked_blocked⟩
    intro tsi' htsi'
    rw [hqueue] at htsi'
    rcases List.mem_append.mp htsi' with htsi' | htsi'
    · exact hpending tsi' htsi'
    · obtain rfl := List.mem_singleton.mp htsi'
      exact htsi

theorem System.Inv.drain {n : Nat} (h : s.Inv channel) :
    System.Inv channel { s with kernel := s.kernel.drain n } := by
  obtain ⟨hchannel, hpending, hwaited⟩ := h
  refine ⟨hchannel, hpending, fun hqueue => .inl ?_⟩
  rcases hwaited hqueue with hout | hblocked
  · simp [Kernel.drain, hout]
  · simp [Kernel.drain, hblocked.waiting]

/-- The bits of the word. -/
theorem has_revents (k : Kernel) :
    BaseChannel.has k.revents EPOLLIN = k.pendingIn ∧
      BaseChannel.has k.revents EPOLLOUT = k.pendingOut ∧
      BaseChannel.has k.revents EPOLLHUP = false ∧
      BaseChannel.has k.revents EPOLLRDHUP = false ∧
      BaseChannel.has k.revents EPOLLERR = false := by
  unfold Kernel.revents
  cases k.pendingIn <;> cases k.pendingOut <;> decide

/-- A word of the events that are pending goes to the handler of one of them. -/
theorem handleEvent_channel (r : RecvResult) (s up : System) :
    BaseChannel.handleEvent (s.channel r) up
      = (if s.kernel.pendingIn = true then System.read r up
        else if s.kernel.pendingOut = true then System.write up
        else pure up) >>= fun up => pure (S_OK, up) := by
  obtain ⟨hin, hout, hhup, hrdhup, herr⟩ := has_revents s.kernel
  have hword : (s.channel r).revents_ = s.kernel.revents := rfl
  have herror : ∀ up, BaseChannel.handleError (s.channel r) up = pure up := by
    intro up
    simp [BaseChannel.handleError, hword, hhup, hrdhup, herr]
  simp only [BaseChannel.handleEvent, herror, Traced.pure_bind, BaseChannel.handleReadWrite,
    hword, hin, hout]
  rfl

theorem System.Inv.read {r : RecvResult} {es : List Act} (h : s.Inv channel)
    (hstep : (System.read r s).Yields es s') : s'.Inv channel := by
  obtain ⟨hchannel, hpending, hwaited⟩ := h
  rw [System.read, Traced.bind_yields] at hstep
  obtain ⟨_, ret, _, hread, hret, -⟩ := hstep
  obtain ⟨-, rfl⟩ := (Traced.pure_yields ..).mp hret
  obtain ⟨hqueue, hchannel'⟩ := value_handleRead r hread.2
  refine ⟨hchannel'.trans hchannel, ?_, ?_⟩
  · show ∀ tsi ∈ ret.2.qSendInfo_, Pending tsi
    rw [hqueue]
    exact hpending
  · show ret.2.qSendInfo_ ≠ [] → _
    rw [hqueue]
    exact hwaited

/-- The front of the queue is served: what is left in the queue waits for a blocked socket. -/
theorem System.Inv.write {es : List Act} (hfd : 0 ≤ channel.fd)
    (hchannel : s.conn.pTcpChannel_ = some channel)
    (hpending : ∀ tsi ∈ s.conn.qSendInfo_, Pending tsi)
    (hserved : ∀ tsi rest, s.conn.qSendInfo_ = tsi :: rest →
      rest = [] ∨ s.kernel.free < tsi.rest)
    (hstep : (System.write s).Yields es s') : s'.Inv channel := by
  have hvalue := hstep.2
  unfold System.write at hvalue
  cases hqueue : s.conn.qSendInfo_ with
  | nil =>
      -- without an entry nothing is written
      have hnothing : handleWrite .again s.conn = pure (S_OK, s.conn) := by
        unfold handleWrite
        rw [hqueue]
      simp only [hqueue, hnothing, Traced.pure_bind] at hvalue
      obtain rfl := Option.some.inj hvalue
      exact ⟨hchannel, by simpa using hpending, fun hne => absurd hqueue hne⟩
  | cons tsi rest =>
      rw [hqueue] at hpending
      have htsi := hpending tsi (List.mem_cons_self ..)
      have hrest : ∀ tsi ∈ rest, Pending tsi := fun tsi htsi =>
        hpending tsi (List.mem_cons_of_mem _ htsi)
      simp only [hqueue] at hvalue
      rcases s.kernel.send_cases tsi.rest with ⟨hfit, hsend⟩ | ⟨-, n, hsend, hn⟩
      · -- the message is finished, so it was the only one
        obtain rfl := (hserved tsi rest hqueue).resolve_right (Nat.not_lt_of_le hfit)
        rw [hsend, Traced.bind_of_some _ (value_handleWrite_count hchannel hfd htsi hqueue
          htsi.rest_pos (Nat.le_refl _)), if_pos rfl] at hvalue
        obtain rfl := Option.some.inj hvalue
        exact ⟨hchannel, by simp, fun hne => absurd rfl hne⟩
      · rcases hn with rfl | ⟨j, rfl, hpos, hlt⟩
        · -- nothing goes: the entry is dropped, and the socket is blocked
          rw [hsend, Traced.bind_of_some _ (value_handleWrite_again hchannel hfd hqueue)]
            at hvalue
          obtain rfl := Option.some.inj hvalue
          exact ⟨hchannel, hrest, fun _ => .inr s.kernel.blocked_blocked⟩
        · -- a part goes, and the socket is blocked behind it
          rw [hsend, Traced.bind_of_some _ (value_handleWrite_count hchannel hfd htsi hqueue
            hpos (Nat.le_of_lt hlt)), if_neg (Nat.ne_of_lt hlt)] at hvalue
          obtain rfl := Option.some.inj hvalue
          refine ⟨hchannel, ?_, fun _ => .inr s.kernel.blocked_blocked⟩
          intro tsi' htsi'
          rcases List.mem_cons.mp htsi' with rfl | htsi'
          · exact htsi.advance hlt
          · exact hrest tsi' htsi'

theorem System.Inv.deliver {r : RecvResult} {es : List Act} (hfd : 0 ≤ channel.fd)
    (h : s.Inv channel) (hserved : Served s (.deliver r))
    (hstep : (s.step (.deliver r)).Yields es s') : s'.Inv channel := by
  obtain ⟨hchannel, hpending, hwaited⟩ := h
  rw [System.step, handleEvent_channel, Traced.bind_yields] at hstep
  obtain ⟨_, ret, _, hevent, hret, -⟩ := hstep
  obtain ⟨-, rfl⟩ := (Traced.pure_yields ..).mp hret
  rw [Traced.bind_yields] at hevent
  obtain ⟨_, up, _, hcall, hret, -⟩ := hevent
  obtain ⟨-, rfl⟩ := (Traced.pure_yields ..).mp hret
  -- an event that does not write leaves the queue, which then waits for the kernel
  have hquiet : (s.kernel.pendingIn = true ∨ s.kernel.pendingOut = false) →
      System.Inv channel { s with kernel := s.kernel.delivered } := by
    intro hno
    refine ⟨hchannel, hpending, fun hqueue => .inr ?_⟩
    have hout : s.kernel.pendingOut ≠ true := by
      intro hout
      obtain ⟨tsi, rest, heq⟩ := List.exists_cons_of_ne_nil hqueue
      have hin := (hserved hout tsi rest heq).1
      rcases hno with h | h
      · rw [hin] at h
        exact Bool.noConfusion h
      · rw [hout] at h
        exact Bool.noConfusion h
    obtain ⟨hshort, hfreed, hwaiting, hfree⟩ := (hwaited hqueue).resolve_left hout
    exact ⟨hshort, hfreed, hwaiting, hfree⟩
  by_cases hin : s.kernel.pendingIn = true
  · rw [if_pos hin] at hcall
    exact (hquiet (.inl hin)).read hcall
  · rw [if_neg hin] at hcall
    by_cases hout : s.kernel.pendingOut = true
    · rw [if_pos hout] at hcall
      exact System.Inv.write (s := { s with kernel := s.kernel.delivered }) hfd hchannel hpending
        (fun tsi rest heq => (hserved hout tsi rest heq).2) hcall
    · rw [if_neg hout] at hcall
      obtain ⟨-, rfl⟩ := (Traced.pure_yields ..).mp hcall
      exact hquiet (.inr (by simpa using hout))

end Steps

/-! ### Whole runs -/

/-- In every state that a run of served steps reaches, a queued message is waited for. -/
theorem notStalled_of_served {channel : TcpChannel} {cap : Nat} {out : Bool}
    (hfd : 0 ≤ channel.fd) {as : List Action} {log : List Act} {s : System}
    (h : Traced.Run System.step (fun s a => Allowed s a ∧ Served s a)
      (registered channel cap out) as log s) : NotStalled s := by
  have hinv : s.Inv channel := by
    have hstart : (registered channel cap out).Inv channel :=
      ⟨rfl, by simp [registered], fun hne => absurd rfl hne⟩
    refine h.invariant (P := fun _ _ s => s.Inv channel) hstart ?_
    rintro l log t (m | n | _ | r) es u hinv ⟨hallowed, hserved⟩ hstep
    · exact hinv.onSend hallowed hserved hstep
    · obtain ⟨-, rfl⟩ := (Traced.pure_yields ..).mp hstep
      exact hinv.drain
    · obtain ⟨-, rfl⟩ := (Traced.pure_yields ..).mp hstep
      exact ⟨hinv.channel_eq, hinv.pending, fun hne => (hinv.waited hne).imp_right
        fun hblocked => ⟨hblocked.lastShort, hblocked.freed, hblocked.waiting, hblocked.free⟩⟩
    · exact hinv.deliver hfd hserved hstep
  intro hin hout hqueue
  have hblocked := (hinv.waited hqueue).resolve_left (by rw [hout]; exact Bool.false_ne_true)
  exact ⟨hblocked.lastShort, hblocked.freed⟩

/-- A message of `n` bytes. -/
def ofLength (n : Nat) : Message :=
  { buf := List.replicate n 1, flags := 0, cb := none, param := 0 }

/-- A channel of a registered descriptor. -/
def enrolled : TcpChannel := { fd := 4 }

/-- A message of five bytes of which the socket has taken `k`. -/
def halfway (k : Nat) : Info :=
  { sendBuf_ := List.replicate 5 1
    len_ := 5
    flags_ := MSG_NOSIGNAL
    cb_ := none
    param_ := 0
    offset_ := k }

/-- A message that does not fit, and the delivery after a drain. -/
theorem notStalled_of_served_drained :
    NotStalled
      { conn := { pTcpChannel_ := some enrolled, qSendInfo_ := [halfway 3] }
        kernel := { cap := 2, used := 2, lastShort := true, waiting := true } } := by
  have hrun : ∃ log, Traced.Run System.step (fun s a => Allowed s a ∧ Served s a)
      (registered enrolled 2 false) [.onSend (ofLength 5), .drain 1, .deliver (.fail EAGAIN)] log
      { conn := { pTcpChannel_ := some enrolled, qSendInfo_ := [halfway 3] }
        kernel := { cap := 2, used := 2, lastShort := true, waiting := true } } := by
    refine ⟨_, .snoc (.snoc (.snoc (l := []) .nil ⟨?_, ?_⟩ ⟨rfl, rfl⟩) ⟨?_, trivial⟩
      ⟨rfl, rfl⟩) ⟨trivial, ?_⟩ ⟨rfl, rfl⟩⟩
    · rintro - tsi rest hqueue
      obtain ⟨rfl, rfl⟩ := List.cons.inj hqueue
      exact ⟨rfl, .inl rfl⟩
    · show (ofLength 5).buf.length < 2 ^ 63
      decide
    · exact fun h => absurd h (by decide)
    · exact ⟨by decide, by decide⟩
  obtain ⟨log, hrun⟩ := hrun
  exact notStalled_of_served (by decide) hrun

/-- Two ways of losing a report. The `EPOLLOUT` comes in one word with an `EPOLLIN`, and only
the read is done. Or the first of two messages is finished and leaves room, which nothing
reports again. -/
theorem stalled :
    (∃ log s, Traced.Run System.step Allowed (registered enrolled 2 false)
      [.onSend (ofLength 5), .drain 1, .input, .deliver (.fail EAGAIN)] log s ∧
      ¬ NotStalled s) ∧
    (∃ log s, Traced.Run System.step Allowed (registered enrolled 2 false)
      [.onSend (ofLength 3), .onSend (ofLength 1), .drain 2, .deliver (.fail EAGAIN)] log s ∧
      ¬ NotStalled s) := by
  have hsize : ∀ n ∈ [1, 3, 5], (ofLength n).buf.length < 2 ^ 63 := by decide
  refine ⟨⟨_, _, .snoc (.snoc (.snoc (.snoc (l := []) .nil ?_ ⟨rfl, rfl⟩) ?_ ⟨rfl, rfl⟩) trivial
    ⟨rfl, rfl⟩) trivial ⟨rfl, rfl⟩, ?_⟩, ⟨_, _, .snoc (.snoc (.snoc (.snoc (l := []) .nil ?_
    ⟨rfl, rfl⟩) ?_ ⟨rfl, rfl⟩) ?_ ⟨rfl, rfl⟩) trivial ⟨rfl, rfl⟩, ?_⟩⟩
  · exact hsize 5 (by decide)
  · exact ⟨by decide, by decide⟩
  · exact fun h => absurd (h rfl rfl (by decide)) (by decide)
  · exact hsize 3 (by decide)
  · exact hsize 1 (by decide)
  · exact ⟨by decide, by decide⟩
  · exact fun h => absurd (h rfl rfl (by decide)) (by decide)

end Ndsl.Proofs.Tcp
