import Ndsl.Net.UnixConnection
import Ndsl.Proofs.TcpConnection.SendStream

/-!
# `Ndsl.Proofs.UnixConnection.SendStream`: what a connection of the local domain puts on its stream

The guarantee is that of a `TcpConnection` (`SendStream`), for the messages whose `onSend` has
returned `S_OK`. `Sender` puts them beside the connection.

A run keeps the guarantee when no `onSend` sends anything while an entry is queued, and no
`handleWrite` finds the socket full. An `onSend` that finds it full has failed, so its message does
not count.
-/

set_option autoImplicit false

namespace Ndsl.Proofs.Unix

open Ndsl.Lib
open Ndsl.Net (S_OK S_FALSE toSize toSize_of_nonneg)
open Ndsl.Net.Tcp (IoResult Message)
open Ndsl.Net.Unix
open Ndsl.Proofs.Tcp (Event Possible SendStream Progress InBuffer accepted callbacks callbackActs
  inBuffer_send)

/-! ### Runs -/

/-- What was done, without the calls of the error handler. -/
def ios (log : List Act) : List Ndsl.Net.Tcp.Act :=
  log.filterMap fun
    | .io act => some act
    | .errorHandle _ _ _ => none

/-- A sender, and the messages of its calls of `onSend` that have returned `S_OK`. -/
structure Sender (σ : Type) where
  conn : σ
  sent : List Message := []

/-- One call, of a class with this `onSend` and this `handleWrite`. -/
def Sender.step {σ : Type} (onSend : Message → IoResult → σ → Traced Act (Int × σ))
    (handleWrite : IoResult → σ → Traced Act (Int × σ)) (s : Sender σ) :
    Event → Traced Act (Sender σ)
  | .onSend m n => do
    let r ← onSend m n s.conn
    return { conn := r.2, sent := if r.1 = S_OK then s.sent ++ [m] else s.sent }
  | .handleWrite n => do
    let r ← handleWrite n s.conn
    return { s with conn := r.2 }

/-- One call of a connection. -/
def step : Sender UnixConnection → Event → Traced Act (Sender UnixConnection) :=
  Sender.step onSend handleWrite

/-- A step that a run can take: the length is an `ssize_t`, and the result is possible. -/
def Legal (s : Sender UnixConnection) : Event → Prop
  | .onSend m n => m.buf.length < 2 ^ 63 ∧ Possible m.buf.length n
  | .handleWrite n => ∀ tsi ∈ s.conn.qSendInfo_.head?,
      Possible (toSize (tsi.len_ - tsi.offset_)) n

/-- A step in its turn: `onSend` finds nothing queued or sends nothing, and `handleWrite` does not
find the socket full. -/
def InTurn (s : Sender UnixConnection) : Event → Prop
  | .onSend _ n => s.conn.qSendInfo_ = [] ∨ n = .again
  | .handleWrite n => s.conn.qSendInfo_ ≠ [] → n ≠ .again

instance (s : Sender UnixConnection) : (e : Event) → Decidable (Legal s e)
  | .onSend m n => inferInstanceAs (Decidable (m.buf.length < 2 ^ 63 ∧ Possible m.buf.length n))
  | .handleWrite n => inferInstanceAs (Decidable (∀ tsi ∈ s.conn.qSendInfo_.head?,
      Possible (toSize (tsi.len_ - tsi.offset_)) n))

instance (s : Sender UnixConnection) : (e : Event) → Decidable (InTurn s e)
  | .onSend _ n => inferInstanceAs (Decidable (s.conn.qSendInfo_ = [] ∨ n = .again))
  | .handleWrite n => inferInstanceAs (Decidable (s.conn.qSendInfo_ ≠ [] → n ≠ .again))

/-- A connection on a new channel, with or without an error handler. -/
def connected (fd : Int) (handler : Option Nat) : Sender UnixConnection :=
  { conn := { pUnixChannel_ := some fd, errorHandle_ := handler } }

/-! ### The calls -/

section Calls
variable {log es : List Act} {m : Message} {n : IoResult} {k j : Nat} {fd ret : Int}
  {conn conn' : UnixConnection}

@[simp] theorem ios_append (log es : List Act) : ios (log ++ es) = ios log ++ ios es :=
  List.filterMap_append

@[simp] theorem ios_io (act : Ndsl.Net.Tcp.Act) (es : List Act) :
    ios (.io act :: es) = act :: ios es := rfl

@[simp] theorem ios_nil : ios [] = [] := rfl

theorem ios_callback {cb : Option Nat} {param : Nat} {u : Unit}
    (h : (callback cb param).Yields es u) :
    ios es = (cb.map fun cb => Ndsl.Net.Tcp.Act.callback cb param).toList := by
  cases cb with
  | none =>
      obtain ⟨rfl, -⟩ := (Traced.pure_yields ..).mp h
      rfl
  | some cb =>
      obtain rfl := (Traced.tell_yields ..).mp h
      rfl

/-- The error handler takes no part in the stream. -/
theorem ios_errorHandle {handler : Option Nat} {errno : Int} {u : Unit}
    (h : (errorHandle handler errno fd).Yields es u) : ios es = [] := by
  cases handler with
  | none => exact absurd h (Traced.fault_yields _ _)
  | some handler =>
      obtain rfl := (Traced.tell_yields ..).mp h
      rfl

/-- The queue entry of a message of which `k` bytes have been accepted. -/
def entry (m : Message) (k : Nat) : Info :=
  { sendBuf_ := m.buf
    len_ := m.buf.length
    flags_ := m.flags
    cb_ := m.cb
    param_ := m.param
    offset_ := k }

/-- What an `onSend` does that returns. -/
theorem onSend_cases (hchannel : conn.pUnixChannel_ = some fd)
    (h : (onSend m n conn).Yields es (ret, conn')) :
    ((∃ errno, n = .fail errno) ∧ ret = S_FALSE ∧ conn' = conn ∧
      ios es = [.send m.buf 0 m.buf.length m.flags n]) ∨
    (n = .count m.buf.length ∧ ret = S_OK ∧ conn' = conn ∧
      ios es = .send m.buf 0 m.buf.length m.flags n :: callbackActs m) ∨
    ∃ k, n = .count k ∧ k ≠ m.buf.length ∧ ret = S_OK ∧
      conn' = { conn with qSendInfo_ := conn.qSendInfo_ ++ [entry m k] } ∧
      ios es = [.send m.buf 0 m.buf.length m.flags n] := by
  unfold onSend at h
  rw [hchannel] at h
  obtain ⟨fs, hrest, rfl⟩ := (Traced.tell_bind_yields ..).mp h
  cases n with
  | fail errno =>
      obtain ⟨gs, u, hs, hhandler, hpure, rfl⟩ := Traced.bind_yields.mp hrest
      obtain ⟨rfl, hpair⟩ := (Traced.pure_yields ..).mp hpure
      obtain ⟨rfl, rfl⟩ := Prod.mk.inj hpair
      refine .inl ⟨⟨errno, rfl⟩, rfl, rfl, ?_⟩
      rw [ios_append, ios_append, ios_errorHandle hhandler]
      rfl
  | count k =>
      right
      dsimp only at hrest
      split at hrest
      · next hall =>
        obtain ⟨gs, u, hs, hcallback, hpure, rfl⟩ := Traced.bind_yields.mp hrest
        obtain ⟨rfl, hpair⟩ := (Traced.pure_yields ..).mp hpure
        obtain ⟨rfl, rfl⟩ := Prod.mk.inj hpair
        refine .inl ⟨by rw [hall], rfl, rfl, ?_⟩
        rw [ios_append, ios_append, ios_callback hcallback]
        exact congrArg _ (List.append_nil _)
      · next hpart =>
        obtain ⟨rfl, hpair⟩ := (Traced.pure_yields ..).mp hrest
        obtain ⟨rfl, rfl⟩ := Prod.mk.inj hpair
        exact .inr ⟨k, rfl, hpart, rfl, rfl, rfl⟩

/-- What a `handleWrite` does that finds nothing to send. -/
theorem handleWrite_nothing (hchannel : conn.pUnixChannel_ = some fd)
    (hnothing : fd < 0 ∨ conn.qSendInfo_ = [])
    (h : (handleWrite n conn).Yields es (ret, conn')) : es = [] ∧ conn' = conn := by
  unfold handleWrite at h
  rw [hchannel] at h
  dsimp only at h
  split at h
  · obtain ⟨rfl, hpair⟩ := (Traced.pure_yields ..).mp h
    exact ⟨rfl, (Prod.mk.inj hpair).2.symm⟩
  · next hopen =>
    rw [hnothing.resolve_left hopen] at h
    obtain ⟨rfl, hpair⟩ := (Traced.pure_yields ..).mp h
    exact ⟨rfl, (Prod.mk.inj hpair).2.symm⟩

/-- What a `handleWrite` does whose `send` accepts `j` more bytes of the message at the front. -/
theorem handleWrite_cases {rest : List Info} (hchannel : conn.pUnixChannel_ = some fd)
    (hfd : ¬ fd < 0) (hqueue : conn.qSendInfo_ = entry m k :: rest) (hk : k ≤ m.buf.length)
    (hsize : m.buf.length < 2 ^ 63) (hj : 0 < j)
    (h : (handleWrite (.count j) conn).Yields es (ret, conn')) :
    (k + j = m.buf.length ∧ conn' = { conn with qSendInfo_ := rest } ∧
      ios es = .send m.buf k (m.buf.length - k) m.flags (.count j) :: callbackActs m) ∨
    (k + j ≠ m.buf.length ∧ conn' = { conn with qSendInfo_ := entry m (k + j) :: rest } ∧
      ios es = [.send m.buf k (m.buf.length - k) m.flags (.count j)]) := by
  have hpos : toSize (k : Int) = k := by
    rw [toSize_of_nonneg (by omega) (by omega)]
    rfl
  have hrest : toSize ((m.buf.length : Int) - k) = m.buf.length - k := by
    rw [toSize_of_nonneg (by omega) (by omega)]
    omega
  obtain ⟨_, _, info, handler⟩ := conn
  obtain rfl : _ = some fd := hchannel
  unfold entry at hqueue ⊢
  obtain rfl : _ = _ :: rest := hqueue
  simp only [handleWrite, if_neg hfd, hpos, hrest, if_pos hj] at h
  obtain ⟨fs, hsent, rfl⟩ := (Traced.tell_bind_yields ..).mp h
  by_cases hall : (k : Int) + j = m.buf.length
  · rw [if_pos hall] at hsent
    obtain ⟨gs, u, hs, hcallback, hpure, rfl⟩ := Traced.bind_yields.mp hsent
    obtain ⟨rfl, hpair⟩ := (Traced.pure_yields ..).mp hpure
    refine .inl ⟨by omega, (Prod.mk.inj hpair).2.symm, ?_⟩
    rw [ios_append, ios_append, ios_callback hcallback]
    exact congrArg _ (List.append_nil _)
  · rw [if_neg hall] at hsent
    obtain ⟨rfl, hpair⟩ := (Traced.pure_yields ..).mp hsent
    exact .inr ⟨by omega, (Prod.mk.inj hpair).2.symm, rfl⟩

end Calls

/-! ### Runs in turn -/

/-- The invariant: the entry of the message that is not done, if there is one, is all that is
queued. -/
structure Inv (fd : Int) (log : List Act) (s : Sender UnixConnection) : Prop where
  channel_eq : s.conn.pUnixChannel_ = some fd
  progress : ∃ unfinished, Progress s.sent (ios log) unfinished ∧
    s.conn.qSendInfo_ = (unfinished.map fun x => entry x.1 x.2).toList ∧
    ∀ x ∈ unfinished, x.1.buf.length < 2 ^ 63 ∧ x.2 < x.1.buf.length

section Runs
variable {fd : Int} {handler : Option Nat} {log es : List Act} {s t : Sender UnixConnection}

/-- All messages are done. -/
theorem Inv.idle (hchannel : s.conn.pUnixChannel_ = some fd)
    (hprogress : Progress s.sent (ios log) none) (hqueue : s.conn.qSendInfo_ = []) :
    Inv fd log s :=
  ⟨hchannel, none, hprogress, hqueue, fun x hx => absurd hx.symm (Option.some_ne_none x)⟩

/-- All messages but the last one are done. -/
theorem Inv.busy {m : Message} {k : Nat} (hchannel : s.conn.pUnixChannel_ = some fd)
    (hprogress : Progress s.sent (ios log) (some (m, k)))
    (hqueue : s.conn.qSendInfo_ = [entry m k]) (hsize : m.buf.length < 2 ^ 63) : Inv fd log s := by
  refine ⟨hchannel, some (m, k), hprogress, hqueue, fun x hx => ?_⟩
  obtain rfl := Option.some.inj hx
  cases hprogress.reached with
  | upTo sent m k hms hk => exact ⟨hsize, hk⟩

/-- An `onSend` in its turn. -/
theorem Inv.onSend {m : Message} {n : IoResult} (h : Inv fd log s)
    (hlegal : Legal s (.onSend m n)) (hturn : InTurn s (.onSend m n))
    (hstep : (step s (.onSend m n)).Yields es t) : Inv fd (log ++ es) t := by
  obtain ⟨hchannel, unfinished, hprogress, hqueue, hunfinished⟩ := h
  obtain ⟨hsize, hpossible⟩ := hlegal
  obtain ⟨fs, ⟨ret, conn⟩, gs, hcall, hpure, rfl⟩ := Traced.bind_yields.mp hstep
  obtain ⟨rfl, rfl⟩ := (Traced.pure_yields ..).mp hpure
  rw [List.append_nil]
  -- a message of which something is accepted finds nothing queued
  have hidle : ∀ k, n = .count k → unfinished = none := by
    rintro k rfl
    have hempty : s.conn.qSendInfo_ = [] := hturn.resolve_right (by simp [IoResult.again])
    cases unfinished with
    | none => rfl
    | some x => exact absurd (hqueue.symm.trans hempty) (List.cons_ne_nil _ _)
  rcases onSend_cases hchannel hcall with ⟨⟨errno, rfl⟩, rfl, rfl, hios⟩ |
    ⟨rfl, rfl, rfl, hios⟩ | ⟨k, rfl, hpart, rfl, rfl, hios⟩
  · -- the call has failed: its message does not count
    refine ⟨hchannel, unfinished, ?_, hqueue, hunfinished⟩
    rw [ios_append, hios]
    exact hprogress.quiet rfl rfl
      (List.forall_mem_singleton.mpr (inBuffer_send (by omega) (by omega)))
  · obtain rfl := hidle _ rfl
    refine .idle hchannel ?_ hqueue
    rw [ios_append, hios]
    exact hprogress.whole (by omega)
  · obtain rfl := hidle _ rfl
    refine .busy hchannel (m := m) (k := k) ?_ ?_ hsize
    · rw [ios_append, hios]
      exact hprogress.begin (by omega) (Nat.lt_of_le_of_ne hpossible.1 hpart)
    · show s.conn.qSendInfo_ ++ [entry m k] = _
      rw [hqueue]
      rfl

/-- A `handleWrite` in its turn. -/
theorem Inv.handleWrite {n : IoResult} (h : Inv fd log s) (hlegal : Legal s (.handleWrite n))
    (hturn : InTurn s (.handleWrite n)) (hstep : (step s (.handleWrite n)).Yields es t) :
    Inv fd (log ++ es) t := by
  obtain ⟨hchannel, unfinished, hprogress, hqueue, hunfinished⟩ := h
  obtain ⟨fs, ⟨ret, conn⟩, gs, hcall, hpure, rfl⟩ := Traced.bind_yields.mp hstep
  obtain ⟨rfl, rfl⟩ := (Traced.pure_yields ..).mp hpure
  rw [List.append_nil]
  by_cases hnothing : fd < 0 ∨ s.conn.qSendInfo_ = []
  · obtain ⟨rfl, rfl⟩ := handleWrite_nothing hchannel hnothing hcall
    rw [List.append_nil]
    exact ⟨hchannel, unfinished, hprogress, hqueue, hunfinished⟩
  rw [not_or] at hnothing
  cases unfinished with
  | none => exact absurd hqueue hnothing.2
  | some x =>
      obtain ⟨m, k⟩ := x
      obtain ⟨hsize, hk⟩ : m.buf.length < 2 ^ 63 ∧ k < m.buf.length := hunfinished (m, k) rfl
      have hfront : s.conn.qSendInfo_ = [entry m k] := hqueue
      have hrest : toSize ((m.buf.length : Int) - k) = m.buf.length - k := by
        rw [toSize_of_nonneg (by omega) (by omega)]
        omega
      have hpossible : Possible (m.buf.length - k) n := by
        rw [← hrest]
        exact hlegal (entry m k) (by rw [hfront]; rfl)
      obtain ⟨j, rfl, hj, hpos⟩ := hpossible.exists_count (hturn hnothing.2)
      rcases handleWrite_cases hchannel hnothing.1 hfront (Nat.le_of_lt hk) hsize (by omega)
        hcall with ⟨hall, rfl, hios⟩ | ⟨hpart, rfl, hios⟩
      · refine .idle hchannel ?_ rfl
        rw [ios_append, hios]
        exact hprogress.finish hall
      · refine .busy hchannel ?_ rfl hsize
        rw [ios_append, hios]
        exact hprogress.more (by omega)

/-- A run whose steps are all in turn keeps the guarantee. -/
theorem sendStream {events : List Event}
    (h : Traced.Run step (fun s e => Legal s e ∧ InTurn s e) (connected fd handler) events log s) :
    SendStream s.sent (ios log) := by
  have hinv : Inv fd log s := by
    refine h.invariant (P := fun _ log s => Inv fd log s) (.idle rfl Progress.nil rfl) ?_
    rintro l log t (⟨m, n⟩ | n) es u hinv ⟨hlegal, hturn⟩ hstep
    · exact hinv.onSend hlegal hturn hstep
    · exact hinv.handleWrite hlegal hturn hstep
  obtain ⟨_, hprogress, -, -⟩ := hinv.progress
  exact hprogress.sendStream

end Runs

end Ndsl.Proofs.Unix
