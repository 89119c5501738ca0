import Ndsl.Net.PipeAndFifo
import Ndsl.Proofs.UnixConnection.SendStream

/-!
# `Ndsl.Proofs.PipeAndFifo.SendStream`: what a pipe puts on its stream

The guarantee and the runs are those of a `UnixConnection`. In a pipe every `onSend` returns `S_OK`,
so also the message that finds the socket full counts, and it is queued with `-1` as its offset.
`handleWrite` counts one byte, however many were sent.

`keeps_stream` is about both classes, and `bytes_sent_twice` shows runs of each that send something
else.
-/

set_option autoImplicit false

namespace Ndsl.Proofs.Pipe

open Ndsl.Lib
open Ndsl.Net (S_OK toSize toSize_of_nonneg)
open Ndsl.Net.Tcp (MSG_NOSIGNAL IoResult Message)
open Ndsl.Net.Unix (Act)
open Ndsl.Net.Pipe
open Ndsl.Proofs.Tcp (Event Possible SendStream Progress accepted callbackActs entry entry_rest
  inBuffer_send)
open Ndsl.Proofs.Unix (Sender ios ios_append ios_callback)

/-! ### Runs -/

/-- One call of a pipe. -/
def step : Sender PipeAndFifo → Event → Traced Act (Sender PipeAndFifo) :=
  Sender.step onSend handleWrite

/-- A step that a run can take: the length is a `size_t`, and the result is possible. -/
def Legal (s : Sender PipeAndFifo) : Event → Prop
  | .onSend m n => m.buf.length < 2 ^ 64 ∧ Possible m.buf.length n
  | .handleWrite n => ∀ tsi ∈ s.conn.qSendInfo_.head?, Possible tsi.rest n

/-- A step in its turn: `onSend` finds nothing queued and does not find the socket full, and
`handleWrite` sends a single byte or finds the socket full. -/
def InTurn (s : Sender PipeAndFifo) : Event → Prop
  | .onSend _ n => s.conn.qSendInfo_ = [] ∧ n ≠ .again
  | .handleWrite n => s.conn.qSendInfo_ ≠ [] → n = .count 1 ∨ n = .again

instance (s : Sender PipeAndFifo) : (e : Event) → Decidable (Legal s e)
  | .onSend m n => inferInstanceAs (Decidable (m.buf.length < 2 ^ 64 ∧ Possible m.buf.length n))
  | .handleWrite n => inferInstanceAs (Decidable (∀ tsi ∈ s.conn.qSendInfo_.head?,
      Possible tsi.rest n))

instance (s : Sender PipeAndFifo) : (e : Event) → Decidable (InTurn s e)
  | .onSend _ n => inferInstanceAs (Decidable (s.conn.qSendInfo_ = [] ∧ n ≠ .again))
  | .handleWrite n =>
    inferInstanceAs (Decidable (s.conn.qSendInfo_ ≠ [] → n = .count 1 ∨ n = .again))

/-- A pipe on a new channel. -/
def created (fd : Int) : Sender PipeAndFifo := { conn := (createPipe fd {}).2 }

/-! ### The calls -/

section Calls
variable {es : List Act} {m : Message} {n : IoResult} {k : Nat} {fd ret : Int}
  {pipe pipe' : PipeAndFifo}

/-- What an `onSend` does whose `send` accepts `k` bytes. -/
theorem onSend_cases (hchannel : pipe.pPipeChannel_ = some fd) (hk : k ≤ m.buf.length)
    (hsize : m.buf.length < 2 ^ 64) (h : (onSend m (.count k) pipe).Yields es (ret, pipe')) :
    ret = S_OK ∧
    (k = m.buf.length ∧ pipe' = pipe ∧
      ios es = .send m.buf 0 m.buf.length (m.flags ||| MSG_NOSIGNAL) (.count k) ::
        callbackActs m ∨
    k ≠ m.buf.length ∧ pipe' = { pipe with qSendInfo_ := pipe.qSendInfo_ ++ [entry m k] } ∧
      ios es = [.send m.buf 0 m.buf.length (m.flags ||| MSG_NOSIGNAL) (.count k)]) := by
  have hoffset : toSize (IoResult.count k).value = k := by
    show toSize (k : Int) = k
    rw [toSize_of_nonneg (by omega) (by omega)]
    rfl
  simp only [onSend, hchannel, onSend.queue, hoffset] at h
  obtain ⟨fs, hsent, rfl⟩ := (Traced.tell_bind_yields ..).mp h
  split at hsent
  · next hall =>
    obtain ⟨gs, u, hs, hcallback, hpure, rfl⟩ := Traced.bind_yields.mp hsent
    obtain ⟨rfl, hpair⟩ := (Traced.pure_yields ..).mp hpure
    obtain ⟨rfl, rfl⟩ := Prod.mk.inj hpair
    refine ⟨rfl, .inl ⟨hall, rfl, ?_⟩⟩
    rw [ios_append, ios_append, ios_callback hcallback]
    exact congrArg _ (List.append_nil _)
  · next hpart =>
    obtain ⟨rfl, hpair⟩ := (Traced.pure_yields ..).mp hsent
    obtain ⟨rfl, rfl⟩ := Prod.mk.inj hpair
    exact ⟨rfl, .inr ⟨hpart, by rw [hchannel]; rfl, rfl⟩⟩

/-- What a `handleWrite` does that finds nothing to send. -/
theorem handleWrite_nothing (hchannel : pipe.pPipeChannel_ = some fd)
    (hnothing : fd < 0 ∨ pipe.qSendInfo_ = [])
    (h : (handleWrite n pipe).Yields es (ret, pipe')) : es = [] ∧ pipe' = pipe := by
  unfold handleWrite at h
  rw [hchannel] at h
  dsimp only at h
  split at h
  · obtain ⟨rfl, hpair⟩ := (Traced.pure_yields ..).mp h
    exact ⟨rfl, (Prod.mk.inj hpair).2.symm⟩
  · next hopen =>
    rw [hnothing.resolve_left hopen] at h
    obtain ⟨rfl, hpair⟩ := (Traced.pure_yields ..).mp h
    exact ⟨rfl, (Prod.mk.inj hpair).2.symm⟩

/-- What a `handleWrite` does with the message at the front: the socket is full, or a byte of the
message is accepted. -/
theorem handleWrite_cases {rest : List Ndsl.Net.Tcp.Info} (hchannel : pipe.pPipeChannel_ = some fd)
    (hfd : ¬ fd < 0) (hqueue : pipe.qSendInfo_ = entry m k :: rest) (hk : k < m.buf.length)
    (hsize : m.buf.length < 2 ^ 64) (hn : n = .count 1 ∨ n = .again)
    (h : (handleWrite n pipe).Yields es (ret, pipe')) :
    (n = .again ∧ pipe' = pipe ∧
      ios es = [.send m.buf k (m.buf.length - k) (m.flags ||| MSG_NOSIGNAL) n]) ∨
    (n = .count 1 ∧ k + 1 = m.buf.length ∧ pipe' = { pipe with qSendInfo_ := rest } ∧
      ios es = .send m.buf k (m.buf.length - k) (m.flags ||| MSG_NOSIGNAL) n :: callbackActs m) ∨
    (n = .count 1 ∧ k + 1 ≠ m.buf.length ∧
      pipe' = { pipe with qSendInfo_ := entry m (k + 1) :: rest } ∧
      ios es = [.send m.buf k (m.buf.length - k) (m.flags ||| MSG_NOSIGNAL) n]) := by
  have hrest := entry_rest (Nat.le_of_lt hk) hsize
  obtain ⟨_, _⟩ := pipe
  obtain rfl : _ = some fd := hchannel
  obtain rfl : _ = entry m k :: rest := hqueue
  simp only [handleWrite, if_neg hfd, hrest] at h
  obtain ⟨fs, hsent, rfl⟩ := (Traced.tell_bind_yields ..).mp h
  rcases hn with rfl | rfl
  · right
    have hnext : (k + 1) % 2 ^ 64 = k + 1 := Nat.mod_eq_of_lt (by omega)
    have hcompared : compared (.count 1) = 1 := rfl
    have hoffset : ((entry m k).offset_ + compared (.count 1)) % 2 ^ 64 = k + 1 := hnext
    rw [if_pos (by rw [hcompared]; decide)] at hsent
    by_cases hall : k + 1 = m.buf.length
    · rw [if_pos (show (entry m k).len_ = _ by rw [hoffset, hall]; rfl)] at hsent
      obtain ⟨gs, u, hs, hcallback, hpure, rfl⟩ := Traced.bind_yields.mp hsent
      obtain ⟨rfl, hpair⟩ := (Traced.pure_yields ..).mp hpure
      refine .inl ⟨rfl, hall, (Prod.mk.inj hpair).2.symm, ?_⟩
      rw [ios_append, ios_append, ios_callback hcallback]
      exact congrArg _ (List.append_nil _)
    · rw [if_neg (show (entry m k).len_ ≠ _ by rw [hoffset]; exact fun heq => hall heq.symm)]
        at hsent
      obtain ⟨rfl, hpair⟩ := (Traced.pure_yields ..).mp hsent
      refine .inr ⟨rfl, hall, ?_, rfl⟩
      rw [← (Prod.mk.inj hpair).2, hoffset]
      rfl
  · -- the comparison is false, and nothing happens
    obtain ⟨rfl, hpair⟩ := (Traced.pure_yields ..).mp hsent
    exact .inl ⟨rfl, (Prod.mk.inj hpair).2.symm, rfl⟩

end Calls

/-! ### Runs in turn -/

/-- The invariant: the entry of the message that is not done, if there is one, is all that is
queued. -/
structure Inv (fd : Int) (log : List Act) (s : Sender PipeAndFifo) : Prop where
  channel_eq : s.conn.pPipeChannel_ = some fd
  progress : ∃ unfinished, Progress s.sent (ios log) unfinished ∧
    s.conn.qSendInfo_ = (unfinished.map fun x => entry x.1 x.2).toList ∧
    ∀ x ∈ unfinished, x.1.buf.length < 2 ^ 64 ∧ x.2 < x.1.buf.length

section Runs
variable {fd : Int} {log es : List Act} {s t : Sender PipeAndFifo}

/-- All messages are done. -/
theorem Inv.idle (hchannel : s.conn.pPipeChannel_ = some fd)
    (hprogress : Progress s.sent (ios log) none) (hqueue : s.conn.qSendInfo_ = []) :
    Inv fd log s :=
  ⟨hchannel, none, hprogress, hqueue, fun x hx => absurd hx.symm (Option.some_ne_none x)⟩

/-- All messages but the last one are done. -/
theorem Inv.busy {m : Message} {k : Nat} (hchannel : s.conn.pPipeChannel_ = some fd)
    (hprogress : Progress s.sent (ios log) (some (m, k)))
    (hqueue : s.conn.qSendInfo_ = [entry m k]) : Inv fd log s := by
  refine ⟨hchannel, some (m, k), hprogress, hqueue, fun x hx => ?_⟩
  obtain rfl := Option.some.inj hx
  cases hprogress.reached with
  | upTo sent m k hms hk hsize => exact ⟨hsize, hk⟩

/-- An `onSend` in its turn. -/
theorem Inv.onSend {m : Message} {n : IoResult} (h : Inv fd log s)
    (hlegal : Legal s (.onSend m n)) (hturn : InTurn s (.onSend m n))
    (hstep : (step s (.onSend m n)).Yields es t) : Inv fd (log ++ es) t := by
  obtain ⟨hchannel, unfinished, hprogress, hqueue, -⟩ := h
  obtain ⟨hsize, hpossible⟩ := hlegal
  obtain ⟨hempty, hnotFull⟩ := hturn
  obtain ⟨k, rfl, hk, -⟩ := hpossible.exists_count hnotFull
  obtain ⟨fs, ⟨ret, pipe⟩, gs, hcall, hpure, rfl⟩ := Traced.bind_yields.mp hstep
  obtain ⟨rfl, rfl⟩ := (Traced.pure_yields ..).mp hpure
  rw [List.append_nil]
  obtain rfl : unfinished = none := by
    cases unfinished with
    | none => rfl
    | some x => exact absurd (hqueue.symm.trans hempty) (List.cons_ne_nil _ _)
  obtain ⟨rfl, ⟨rfl, rfl, hios⟩ | ⟨hpart, rfl, hios⟩⟩ := onSend_cases hchannel hk hsize hcall
  · refine .idle hchannel ?_ hqueue
    rw [ios_append, hios]
    exact hprogress.whole hsize
  · refine .busy hchannel (m := m) (k := k) ?_ ?_
    · rw [ios_append, hios]
      exact hprogress.begin hsize (Nat.lt_of_le_of_ne hk hpart)
    · show s.conn.qSendInfo_ ++ [entry m k] = _
      rw [hempty]
      rfl

/-- A `handleWrite` in its turn. -/
theorem Inv.handleWrite {n : IoResult} (h : Inv fd log s) (hturn : InTurn s (.handleWrite n))
    (hstep : (step s (.handleWrite n)).Yields es t) : Inv fd (log ++ es) t := by
  obtain ⟨hchannel, unfinished, hprogress, hqueue, hunfinished⟩ := h
  obtain ⟨fs, ⟨ret, pipe⟩, gs, hcall, hpure, rfl⟩ := Traced.bind_yields.mp hstep
  obtain ⟨rfl, rfl⟩ := (Traced.pure_yields ..).mp hpure
  rw [List.append_nil]
  by_cases hnothing : fd < 0 ∨ s.conn.qSendInfo_ = []
  · obtain ⟨rfl, rfl⟩ := handleWrite_nothing hchannel hnothing hcall
    rw [List.append_nil]
    exact ⟨hchannel, unfinished, hprogress, hqueue, hunfinished⟩
  rw [not_or] at hnothing
  cases unfinished with
  | none => exact absurd hqueue hnothing.2
  | some x =>
      obtain ⟨m, k⟩ := x
      obtain ⟨hsize, hk⟩ : m.buf.length < 2 ^ 64 ∧ k < m.buf.length := hunfinished (m, k) rfl
      have hfront : s.conn.qSendInfo_ = [entry m k] := hqueue
      rcases handleWrite_cases hchannel hnothing.1 hfront hk hsize (hturn hnothing.2) hcall with
        ⟨rfl, rfl, hios⟩ | ⟨rfl, hall, rfl, hios⟩ | ⟨rfl, hpart, rfl, hios⟩
      · -- the socket is full
        refine .busy hchannel ?_ hqueue
        rw [ios_append, hios]
        exact hprogress.quiet rfl rfl
          (List.forall_mem_singleton.mpr (inBuffer_send (by omega) hsize))
      · refine .idle hchannel ?_ rfl
        rw [ios_append, hios]
        exact hprogress.finish hall
      · refine .busy hchannel ?_ rfl
        rw [ios_append, hios]
        exact hprogress.more (by omega)

/-- A run whose steps are all in turn keeps the guarantee. -/
theorem sendStream {events : List Event}
    (h : Traced.Run step (fun s e => Legal s e ∧ InTurn s e) (created fd) events log s) :
    SendStream s.sent (ios log) := by
  have hinv : Inv fd log s := by
    refine h.invariant (P := fun _ log s => Inv fd log s) (.idle rfl Progress.nil rfl) ?_
    rintro l log t (⟨m, n⟩ | n) es u hinv ⟨hlegal, hturn⟩ hstep
    · exact hinv.onSend hlegal hturn hstep
    · exact hinv.handleWrite hturn hstep
  obtain ⟨_, hprogress, -, -⟩ := hinv.progress
  exact hprogress.sendStream

end Runs

/-! ### Both classes -/

/-- Runs of a pipe and runs of a connection of the local domain keep the guarantee when their steps
are all in turn. -/
theorem keeps_stream (fd : Int) (events : List Event) (log : List Act) :
    (∀ s : Sender PipeAndFifo,
      Traced.Run step (fun s e => Legal s e ∧ InTurn s e) (created fd) events log s →
        SendStream s.sent (ios log)) ∧
    ∀ (handler : Option Nat) (s : Sender Ndsl.Net.Unix.UnixConnection),
      Traced.Run Ndsl.Proofs.Unix.step
        (fun s e => Ndsl.Proofs.Unix.Legal s e ∧ Ndsl.Proofs.Unix.InTurn s e)
        (Ndsl.Proofs.Unix.connected fd handler) events log s → SendStream s.sent (ios log) :=
  ⟨fun _ h => sendStream h, fun _ _ h => Ndsl.Proofs.Unix.sendStream h⟩

/-- A message with a callback. -/
def messageOf (buf : List UInt8) (cb : Nat) : Message :=
  { buf := buf, flags := 0, cb := some cb, param := 7 }

/-- A message that takes an `onSend` and a `handleWrite`, in each class. -/
theorem keeps_stream_split :
    (∃ log s, s.sent = [messageOf [1, 2] 5] ∧ accepted (ios log) = [some 1, some 2] ∧
      Traced.Run step (fun s e => Legal s e ∧ InTurn s e) (created 4)
        [.onSend (messageOf [1, 2] 5) (.count 1), .handleWrite (.count 1)] log s ∧
      SendStream s.sent (ios log)) ∧
    ∃ log s, s.sent = [messageOf [1, 2] 5] ∧ accepted (ios log) = [some 1, some 2] ∧
      Traced.Run Ndsl.Proofs.Unix.step
        (fun s e => Ndsl.Proofs.Unix.Legal s e ∧ Ndsl.Proofs.Unix.InTurn s e)
        (Ndsl.Proofs.Unix.connected 4 none)
        [.onSend (messageOf [1, 2] 5) (.count 1), .handleWrite (.count 1)] log s ∧
      SendStream s.sent (ios log) := by
  have hpipe : ∃ log s, s.sent = [messageOf [1, 2] 5] ∧ accepted (ios log) = [some 1, some 2] ∧
      Traced.Run step (fun s e => Legal s e ∧ InTurn s e) (created 4)
        [.onSend (messageOf [1, 2] 5) (.count 1), .handleWrite (.count 1)] log s := by
    refine ⟨_, _, ?_, ?_, .snoc (.snoc (l := []) .nil ?_ ⟨rfl, rfl⟩) ?_ ⟨rfl, rfl⟩⟩
    all_goals decide
  have hunix : ∃ log s, s.sent = [messageOf [1, 2] 5] ∧ accepted (ios log) = [some 1, some 2] ∧
      Traced.Run Ndsl.Proofs.Unix.step
        (fun s e => Ndsl.Proofs.Unix.Legal s e ∧ Ndsl.Proofs.Unix.InTurn s e)
        (Ndsl.Proofs.Unix.connected 4 none)
        [.onSend (messageOf [1, 2] 5) (.count 1), .handleWrite (.count 1)] log s := by
    refine ⟨_, _, ?_, ?_, .snoc (.snoc (l := []) .nil ?_ ⟨rfl, rfl⟩) ?_ ⟨rfl, rfl⟩⟩
    all_goals decide
  obtain ⟨log, s, hsent, haccepted, hrun⟩ := hpipe
  obtain ⟨log', s', hsent', haccepted', hrun'⟩ := hunix
  exact ⟨⟨log, s, hsent, haccepted, hrun, (keeps_stream 4 _ log).1 s hrun⟩,
    log', s', hsent', haccepted', hrun', (keeps_stream 4 _ log').2 none s' hrun'⟩

/-- Steps out of turn. In a pipe, a `handleWrite` that sends two bytes counts one, and the other is
sent again; behind an `onSend` that finds the socket full, `handleWrite` offers the byte in front of
the buffer. In a connection, a `handleWrite` that finds the socket full drops the rest of its
message; and in both a short message overtakes one that is queued. -/
theorem bytes_sent_twice :
    (∃ log s, Traced.Run step Legal (created 4)
      [.onSend (messageOf [1, 2, 3] 5) (.count 1), .handleWrite (.count 2),
        .handleWrite (.count 1)] log s ∧ ¬ SendStream s.sent (ios log)) ∧
    (∃ log s, Traced.Run step Legal (created 4)
      [.onSend (messageOf [1, 2] 5) .again, .handleWrite (.count 3)] log s ∧
      ¬ SendStream s.sent (ios log)) ∧
    (∃ log s, Traced.Run step Legal (created 4)
      [.onSend (messageOf [1, 2] 5) (.count 1), .onSend (messageOf [3] 6) (.count 1)] log s ∧
      ¬ SendStream s.sent (ios log)) ∧
    (∃ log s, Traced.Run Ndsl.Proofs.Unix.step Ndsl.Proofs.Unix.Legal
      (Ndsl.Proofs.Unix.connected 4 (some 9))
      [.onSend (messageOf [1, 2] 5) (.count 1), .handleWrite .again,
        .onSend (messageOf [3] 6) (.count 1)] log s ∧ ¬ SendStream s.sent (ios log)) ∧
    ∃ log s, Traced.Run Ndsl.Proofs.Unix.step Ndsl.Proofs.Unix.Legal
      (Ndsl.Proofs.Unix.connected 4 none)
      [.onSend (messageOf [1, 2] 5) (.count 1), .onSend (messageOf [3] 6) (.count 1)] log s ∧
      ¬ SendStream s.sent (ios log) := by
  refine ⟨⟨_, _, .snoc (.snoc (.snoc (l := []) .nil ?_ ⟨rfl, rfl⟩) ?_ ⟨rfl, rfl⟩) ?_ ⟨rfl, rfl⟩,
      fun h => absurd h.prefix_bytes (by decide)⟩,
    ⟨_, _, .snoc (.snoc (l := []) .nil ?_ ⟨rfl, rfl⟩) ?_ ⟨rfl, rfl⟩, fun h => ?_⟩,
    ⟨_, _, .snoc (.snoc (l := []) .nil ?_ ⟨rfl, rfl⟩) ?_ ⟨rfl, rfl⟩,
      fun h => absurd h.prefix_bytes (by decide)⟩,
    ⟨_, _, .snoc (.snoc (.snoc (l := []) .nil ?_ ⟨rfl, rfl⟩) ?_ ⟨rfl, rfl⟩) ?_ ⟨rfl, rfl⟩,
      fun h => absurd h.prefix_bytes (by decide)⟩,
    ⟨_, _, .snoc (.snoc (l := []) .nil ?_ ⟨rfl, rfl⟩) ?_ ⟨rfl, rfl⟩,
      fun h => absurd h.prefix_bytes (by decide)⟩⟩
  case refine_6 =>
    exact absurd (h.inBuffer _ (List.mem_cons_of_mem _ List.mem_cons_self) 0 (by decide))
      (by decide)
  all_goals decide

end Ndsl.Proofs.Pipe
