import Ndsl.Proofs.TcpConnection.Progress

/-!
# `Ndsl.Proofs.TcpConnection.SendStream`: what a connection puts on its stream

The guarantee is `SendStream`. `sendStream_of_inTurn` proves it of the runs whose steps are all
`InTurn`: nothing is sent while something is queued, and no `send` would block. `stream_broken`
shows what a step out of turn can do, once for each of the two ways of being one and for
`handleWrite`.
-/

set_option autoImplicit false

namespace Ndsl.Proofs.Tcp

open Ndsl.Lib
open Ndsl.Net (S_OK toSize toSize_of_nonneg)
open Ndsl.Net.Tcp

/-! ### Runs -/

/-- One step of a run, with the result of the `send` it makes. -/
inductive Event
  | onSend (m : Message) (n : IoResult)
  | handleWrite (n : IoResult)
  deriving Repr, DecidableEq

/-- The calls of a run. -/
def step (conn : TcpConnection) : Event → Traced Act TcpConnection
  | .onSend m n => do
    let r ← onSend m n conn
    return r.2
  | .handleWrite n => do
    let r ← handleWrite n conn
    return r.2

/-- A result that `send` can have for a request, short of a hard error. -/
def Possible (requested : Nat) : IoResult → Prop
  | .count k => k ≤ requested ∧ (requested = 0 ∨ 0 < k)
  | .fail errno => errno = EAGAIN

instance (requested : Nat) (n : IoResult) : Decidable (Possible requested n) := by
  unfold Possible
  cases n <;> infer_instance

/-- A step that a run can take: the length is a `size_t`, and the result is possible. -/
def Legal (conn : TcpConnection) : Event → Prop
  | .onSend m n => m.buf.length < 2 ^ 64 ∧ Possible m.buf.length n
  | .handleWrite n => ∀ tsi ∈ conn.qSendInfo_.head?, Possible tsi.rest n

instance (conn : TcpConnection) (e : Event) : Decidable (Legal conn e) := by
  unfold Legal
  cases e <;> infer_instance

/-- A step in its turn: `onSend` finds nothing queued, and the `send` does not block. -/
def InTurn (conn : TcpConnection) : Event → Prop
  | .onSend _ n => conn.qSendInfo_ = [] ∧ n ≠ .again
  | .handleWrite n => conn.qSendInfo_ ≠ [] → n ≠ .again

/-- The messages of a run, in the order of their calls. -/
def messages (es : List Event) : List Message :=
  es.filterMap fun
    | .onSend m _ => some m
    | .handleWrite _ => none

@[simp] theorem messages_append (es fs : List Event) :
    messages (es ++ fs) = messages es ++ messages fs := List.filterMap_append

/-- A connection on a new channel. -/
def connected (channel : TcpChannel) : TcpConnection := { pTcpChannel_ := some channel }

/-! ### The invariant -/

/-- The queue entry of a message of which `k` bytes have been accepted. -/
def entry (m : Message) (k : Nat) : Info :=
  { sendBuf_ := m.buf
    len_ := m.buf.length
    flags_ := m.flags ||| MSG_NOSIGNAL
    cb_ := m.cb
    param_ := m.param
    offset_ := k }

/-- What holds between two steps that are in turn: at most the last message is not done. -/
inductive Sending (conn : TcpConnection) (ms : List Message) (log : List Act) : Prop
  | idle (hqueue : conn.qSendInfo_ = []) (hbytes : accepted log = (bytes ms).map some)
      (hcalls : callbacks log = ms.filterMap callbackOf)
  | busy (sent : List Message) (m : Message) (k : Nat) (hms : ms = sent ++ [m])
      (hk : k < m.buf.length) (hsize : m.buf.length < 2 ^ 64)
      (hqueue : conn.qSendInfo_ = [entry m k])
      (hbytes : accepted log = (bytes sent ++ m.buf.take k).map some)
      (hcalls : callbacks log = sent.filterMap callbackOf)

/-! ### One step -/

theorem callback_yields {cb : Option Nat} {param : Nat} {es : List Act} {u : Unit} :
    (callback cb param).Yields es u ↔
      es = (cb.map fun cb => Act.callback cb param).toList := by
  cases cb with
  | none => simp [callback]
  | some cb => simp [callback, eq_comm]

/-- A `send` that has taken `n` of `size` bytes: the callback follows when these are all, and
nothing otherwise. -/
theorem sent_yields {act : Act} {m : Message} {n size : Nat} {done left conn' : TcpConnection}
    {es : List Act} (hn : n ≤ size) :
    ((do
        let r ← (do
          Traced.tell [act]
          if n = size then do
            callback m.cb m.param
            pure (S_OK, done)
          else pure (S_OK, left) : Traced Act (Int × TcpConnection))
        pure r.2 : Traced Act TcpConnection)).Yields es conn' ↔
      (n = size ∧ conn' = done ∧ es = act :: callbackActs m) ∨
        (n < size ∧ conn' = left ∧ es = [act]) := by
  by_cases hall : n = size
  · rw [if_pos hall]
    simp only [Traced.bind_yields, Traced.tell_yields, Traced.pure_yields, callback_yields]
    constructor
    · rintro ⟨_, _, _, ⟨_, _, _, rfl, ⟨_, _, _, rfl, ⟨rfl, rfl⟩, rfl⟩, rfl⟩, ⟨rfl, rfl⟩, rfl⟩
      exact .inl ⟨hall, rfl, by simp [callbackActs]⟩
    · rintro (⟨-, rfl, rfl⟩ | ⟨hlt, -⟩)
      · exact ⟨_, _, _, ⟨_, (), _, rfl, ⟨_, (), _, rfl, ⟨rfl, rfl⟩, rfl⟩, rfl⟩, ⟨rfl, rfl⟩,
          by simp [callbackActs]⟩
      · omega
  · rw [if_neg hall]
    simp only [Traced.bind_yields, Traced.tell_yields, Traced.pure_yields]
    constructor
    · rintro ⟨_, _, _, ⟨_, _, _, rfl, ⟨rfl, rfl⟩, rfl⟩, ⟨rfl, rfl⟩, rfl⟩
      exact .inr ⟨by omega, rfl, by simp⟩
    · rintro (⟨heq, -⟩ | ⟨-, rfl, rfl⟩)
      · exact absurd heq hall
      · exact ⟨_, _, _, ⟨_, (), _, rfl, ⟨rfl, rfl⟩, rfl⟩, ⟨rfl, rfl⟩, by simp⟩

/-- What an `onSend` does whose `send` accepts `k` bytes. -/
theorem onSend_yields {channel : TcpChannel} {conn conn' : TcpConnection} {m : Message}
    {k : Nat} {es : List Act} (hchannel : conn.pTcpChannel_ = some channel)
    (hsize : m.buf.length < 2 ^ 64) (hk : k ≤ m.buf.length) :
    (step conn (.onSend m (.count k))).Yields es conn' ↔
      (k = m.buf.length ∧ conn' = conn ∧
        es = .send m.buf 0 m.buf.length (m.flags ||| MSG_NOSIGNAL) (.count k)
          :: callbackActs m) ∨
      (k < m.buf.length ∧
        conn' = { conn with qSendInfo_ := conn.qSendInfo_ ++ [entry m k] } ∧
        es = [.send m.buf 0 m.buf.length (m.flags ||| MSG_NOSIGNAL) (.count k)]) := by
  have hoff : toSize (IoResult.count k).value = k := by
    show toSize (k : Int) = k
    rw [toSize_of_nonneg (by omega) (by omega)]
    omega
  simp only [step, onSend, hchannel, onSend.queue, hoff]
  exact sent_yields hk

theorem entry_rest {m : Message} {k : Nat} (hk : k ≤ m.buf.length)
    (hsize : m.buf.length < 2 ^ 64) : (entry m k).rest = m.buf.length - k := by
  show toSize ((m.buf.length : Int) - k) = _
  rw [toSize_of_nonneg (by omega) (by omega)]
  omega

/-- What `handleWrite` does when its `send` accepts `j` more bytes of the message at the
front. -/
theorem handleWrite_yields {channel : TcpChannel} {conn conn' : TcpConnection} {m : Message}
    {k j : Nat} {rest : List Info} {es : List Act} (hchannel : conn.pTcpChannel_ = some channel)
    (hfd : 0 ≤ channel.fd) (hsize : m.buf.length < 2 ^ 64)
    (hqueue : conn.qSendInfo_ = entry m k :: rest) (hpos : 0 < j)
    (hj : k + j ≤ m.buf.length) :
    (step conn (.handleWrite (.count j))).Yields es conn' ↔
      (k + j = m.buf.length ∧ conn' = { conn with qSendInfo_ := rest } ∧
        es = .send m.buf k (m.buf.length - k) (m.flags ||| MSG_NOSIGNAL) (.count j)
          :: callbackActs m) ∨
      (k + j < m.buf.length ∧ conn' = { conn with qSendInfo_ := entry m (k + j) :: rest } ∧
        es = [.send m.buf k (m.buf.length - k) (m.flags ||| MSG_NOSIGNAL) (.count j)]) := by
  have hoff : (k + j) % 2 ^ 64 = k + j := Nat.mod_eq_of_lt (by omega)
  simp only [step, handleWrite, hchannel, hqueue, if_neg (Int.not_lt.mpr hfd),
    entry_rest (show k ≤ m.buf.length by omega) hsize, if_pos hpos]
  simp only [entry, hoff]
  exact sent_yields hj

/-- `handleWrite` with nothing queued, or on a closed socket, does nothing. -/
theorem handleWrite_nothing {channel : TcpChannel} {conn conn' : TcpConnection} {n : IoResult}
    {es : List Act} (hchannel : conn.pTcpChannel_ = some channel)
    (h : conn.qSendInfo_ = [] ∨ channel.fd < 0) :
    (step conn (.handleWrite n)).Yields es conn' ↔ es = [] ∧ conn' = conn := by
  have hret : ∃ r : Int, handleWrite n conn = pure (r, conn) := by
    unfold handleWrite
    cases hqueue : conn.qSendInfo_ with
    | nil => exact ⟨S_OK, rfl⟩
    | cons tsi rest =>
        rw [hqueue] at h
        exact ⟨-1, by simp only [hchannel]; rw [if_pos (h.resolve_left (by simp))]⟩
  obtain ⟨r, hret⟩ := hret
  simp only [step, hret, Traced.pure_bind, Traced.pure_yields]
  constructor
  · rintro ⟨rfl, rfl⟩
    exact ⟨rfl, rfl⟩
  · rintro ⟨rfl, rfl⟩
    exact ⟨rfl, rfl⟩

/-- A possible result that is not `EAGAIN` is a count. -/
theorem Possible.exists_count {requested : Nat} {n : IoResult} (h : Possible requested n)
    (hagain : n ≠ .again) : ∃ k, n = .count k ∧ k ≤ requested ∧ (requested = 0 ∨ 0 < k) := by
  cases n with
  | count k => exact ⟨k, rfl, h⟩
  | fail errno => exact absurd (congrArg IoResult.fail h) hagain

/-- The state of a run between two steps. -/
structure Inv (channel : TcpChannel) (ms : List Message) (log : List Act)
    (conn : TcpConnection) : Prop where
  channel_eq : conn.pTcpChannel_ = some channel
  sending : Sending conn ms log
  inBuffer : ∀ a ∈ log, InBuffer a

variable {channel : TcpChannel} {ms : List Message} {log es : List Act}
  {conn conn' : TcpConnection}

/-- What the connection says about its stream: the unfinished message is the one that is queued. -/
theorem Inv.progress (h : Inv channel ms log conn) : ∃ unfinished, Progress ms log unfinished ∧
    conn.qSendInfo_ = unfinished.toList.map fun x => entry x.1 x.2 := by
  cases h.sending with
  | idle hqueue hbytes hcalls => exact ⟨none, ⟨.all hbytes hcalls, h.inBuffer⟩, hqueue⟩
  | busy sent m k hms hk hsize hqueue hbytes hcalls =>
      exact ⟨some (m, k), ⟨.upTo sent m k hms hk hsize hbytes hcalls, h.inBuffer⟩, hqueue⟩

theorem Inv.of_progress {unfinished : Option (Message × Nat)}
    (hchannel : conn.pTcpChannel_ = some channel) (h : Progress ms log unfinished)
    (hqueue : conn.qSendInfo_ = unfinished.toList.map fun x => entry x.1 x.2) :
    Inv channel ms log conn := by
  refine ⟨hchannel, ?_, h.inBuffer⟩
  cases h.reached with
  | all hbytes hcalls => exact .idle hqueue hbytes hcalls
  | upTo sent m k hms hk hsize hbytes hcalls =>
      exact .busy sent m k hms hk hsize hqueue hbytes hcalls

/-- An `onSend` in its turn: the message is the last one that is not done, or it is done. -/
theorem Inv.onSend {m : Message} {n : IoResult} (h : Inv channel ms log conn)
    (hlegal : Legal conn (.onSend m n)) (hturn : InTurn conn (.onSend m n))
    (hstep : (step conn (.onSend m n)).Yields es conn') :
    Inv channel (ms ++ [m]) (log ++ es) conn' := by
  have hchannel := h.channel_eq
  obtain ⟨hsize, hpossible⟩ := hlegal
  obtain ⟨k, rfl, hk, -⟩ := hpossible.exists_count hturn.2
  obtain ⟨unfinished, hprogress, hqueue⟩ := h.progress
  -- nothing is queued, so the stream has come to the end of a message
  cases unfinished with
  | some x => exact absurd (hqueue.symm.trans hturn.1) (List.cons_ne_nil _ _)
  | none =>
      rcases (onSend_yields hchannel hsize hk).mp hstep with ⟨rfl, rfl, rfl⟩ | ⟨hlt, rfl, rfl⟩
      · -- the last byte was accepted at once
        exact .of_progress hchannel (hprogress.whole hsize) hqueue
      · have hqueued : conn.qSendInfo_ ++ [entry m k] = [entry m k] := by
          rw [hqueue]
          rfl
        exact .of_progress hchannel (hprogress.begin hsize hlt) hqueued

/-- A `handleWrite` in its turn: it goes on with the message that is not done. -/
theorem Inv.handleWrite {n : IoResult} (h : Inv channel ms log conn)
    (hlegal : Legal conn (.handleWrite n)) (hturn : InTurn conn (.handleWrite n))
    (hstep : (step conn (.handleWrite n)).Yields es conn') :
    Inv channel ms (log ++ es) conn' := by
  have hchannel := h.channel_eq
  by_cases hnothing : conn.qSendInfo_ = [] ∨ channel.fd < 0
  · -- nothing to send, or no socket
    obtain ⟨rfl, rfl⟩ := (handleWrite_nothing hchannel hnothing).mp hstep
    rw [List.append_nil]
    exact h
  rw [not_or, Int.not_lt] at hnothing
  obtain ⟨unfinished, hprogress, hqueue⟩ := h.progress
  cases hprogress.reached with
  | all => exact absurd hqueue hnothing.1
  | upTo sent m k _ hk hsize =>
      have hpossible := hlegal (entry m k) (by rw [hqueue]; rfl)
      rw [entry_rest (Nat.le_of_lt hk) hsize] at hpossible
      obtain ⟨j, rfl, hj, hpos⟩ := hpossible.exists_count (hturn hnothing.1)
      rcases (handleWrite_yields hchannel hnothing.2 hsize hqueue (by omega)
        (by omega)).mp hstep with ⟨hall, rfl, rfl⟩ | ⟨hlt, rfl, rfl⟩
      · -- the last byte has been accepted
        exact .of_progress hchannel (hprogress.finish hall) rfl
      · exact .of_progress hchannel (hprogress.more hlt) rfl

/-! ### Whole runs -/

/-- A run whose steps are all in turn keeps the guarantee, in every state it reaches. -/
theorem sendStream_of_inTurn {es : List Event} {log : List Act}
    (h : Traced.Run step (fun conn e => Legal conn e ∧ InTurn conn e) (connected channel)
      es log conn) : SendStream (messages es) log := by
  have hinv : Inv channel (messages es) log conn := by
    refine h.invariant (P := fun es log conn => Inv channel (messages es) log conn)
      ⟨rfl, .idle rfl rfl rfl, by simp⟩ ?_
    rintro l log t (⟨m, n⟩ | n) es u hinv ⟨hlegal, hturn⟩ hstep
    · rw [messages_append]
      exact hinv.onSend hlegal hturn hstep
    · rw [messages_append, show messages [.handleWrite n] = [] from rfl, List.append_nil]
      exact hinv.handleWrite hlegal hturn hstep
  obtain ⟨unfinished, hprogress, -⟩ := hinv.progress
  exact hprogress.sendStream

/-- A message with callback `cb`. -/
def messageOf (buf : List UInt8) (cb : Nat) : Message :=
  { buf := buf, flags := 0, cb := some cb, param := 7 }

/-- A channel without an error handler. -/
def plainChannel : TcpChannel := { fd := 4 }

/-- A message that takes a short `onSend` and a `handleWrite`. -/
theorem sendStream_of_inTurn_split : SendStream [messageOf [1, 2] 5]
    [.send [1, 2] 0 2 MSG_NOSIGNAL (.count 1), .send [1, 2] 1 1 MSG_NOSIGNAL (.count 1),
      .callback 5 7] := by
  refine @sendStream_of_inTurn plainChannel (connected plainChannel)
    [.onSend (messageOf [1, 2] 5) (.count 1), .handleWrite (.count 1)] _ ?_
  refine .snoc (t := { connected plainChannel with qSendInfo_ := [entry (messageOf [1, 2] 5) 1] })
    (.snoc (l := []) .nil ⟨⟨by decide, by decide⟩, ⟨rfl, by decide⟩⟩ ⟨rfl, rfl⟩) ⟨?_, ?_⟩
    ⟨rfl, rfl⟩
  · intro tsi htsi
    obtain rfl := Option.some.inj htsi
    decide
  · exact fun _ => by decide

/-- Steps out of turn: after an `onSend` that would have blocked, `handleWrite` offers the byte
in front of the buffer; a short message overtakes one that is queued; a `handleWrite` that
would have blocked drops the rest of its message. -/
theorem stream_broken :
    (∃ log conn, Traced.Run step Legal (connected plainChannel)
      [.onSend (messageOf [1, 2] 5) .again, .handleWrite (.count 3)] log conn ∧
      ¬ SendStream [messageOf [1, 2] 5] log) ∧
    (∃ log conn, Traced.Run step Legal (connected plainChannel)
      [.onSend (messageOf [1, 2] 5) (.count 1), .onSend (messageOf [3] 6) (.count 1)] log conn ∧
      ¬ SendStream [messageOf [1, 2] 5, messageOf [3] 6] log) ∧
    (∃ log conn, Traced.Run step Legal (connected plainChannel)
      [.onSend (messageOf [1, 2] 5) (.count 1), .handleWrite .again,
        .onSend (messageOf [3] 6) (.count 1)] log conn ∧
      ¬ SendStream [messageOf [1, 2] 5, messageOf [3] 6] log) := by
  refine ⟨⟨_, _, .snoc (.snoc (l := []) .nil ?_ ⟨rfl, rfl⟩) ?_ ⟨rfl, rfl⟩, ?_⟩,
    ⟨_, _, .snoc (.snoc (l := []) .nil ?_ ⟨rfl, rfl⟩) ?_ ⟨rfl, rfl⟩, ?_⟩,
    ⟨_, _, .snoc (.snoc (.snoc (l := []) .nil ?_ ⟨rfl, rfl⟩) ?_ ⟨rfl, rfl⟩) ?_ ⟨rfl, rfl⟩, ?_⟩⟩
  case refine_3 =>
    intro h
    exact absurd (h.inBuffer _ (List.mem_cons_of_mem _ (List.mem_cons_self ..)) 0 (by decide))
      (by decide)
  case refine_6 => exact fun h => absurd h.prefix_bytes (by decide)
  case refine_10 => exact fun h => absurd h.prefix_bytes (by decide)
  all_goals decide

end Ndsl.Proofs.Tcp
