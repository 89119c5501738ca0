import Ndsl.Lib.Pipe
import Ndsl.Proofs.TcpConnection.Receive
import Ndsl.Proofs.TcpConnection.SendStream

/-!
# `Ndsl.Proofs.TcpConnection.Pair`: two connections as two pipes

A `Link` is two connections that are connected with each other. What the kernel has accepted of one
side is on the wire until it arrives at the other. Both sides send and receive as they like, in any
order, and the wire brings any number of bytes at any time.

`duplex`: under the conditions under which each half of a connection keeps its own law, the two
connections are two pipes, one in each direction. What the callbacks of one side are given is the
beginning of what the other side was asked to send, whatever the two do in the other direction. The
step lemmas show that sending leaves the receive side of a connection alone, and receiving its send
side.
-/

set_option autoImplicit false

namespace Ndsl.Proofs.Tcp.Pair

open Ndsl.Lib
open Ndsl.Net.Tcp
open Ndsl.Proofs.Tcp.Receive (Happening ReceiveLaw reported)

/-! ### Two connections -/

/-- One of the two. -/
inductive Side
  | left
  | right
  deriving Repr, DecidableEq

/-- The other one. -/
def Side.peer : Side → Side
  | .left => .right
  | .right => .left

/-- The two connections with their sockets. `wire` holds what a side has sent and what has not
arrived yet. -/
structure Link where
  ends : Side → Receive.System
  wire : Side → List UInt8 := fun _ => []

/-- What happens on a side. -/
inductive Happened
  /-- A call that sends did this. -/
  | sent (acts : List Act)
  /-- Something happened to a call of `onRecv`. -/
  | received (happening : Happening)
  deriving Repr, DecidableEq

/-- A step of a side: a call of its connection; the next bytes of the peer arrive; the stream of the
peer has come to its end. -/
inductive Op
  | onSend (m : Message) (n : IoResult)
  | handleWrite (n : IoResult)
  | onRecv (r : Request) (result : RecvResult)
  | handleRead (result : RecvResult)
  | arrive (k : Nat)
  | close
  deriving Repr, DecidableEq

/-- The bytes that the kernel has accepted. Outside of a buffer memory holds `junk`. -/
def outgoing (junk : UInt8) (acts : List Act) : List UInt8 :=
  (accepted acts).map fun b => b.getD junk

namespace Link

/-- A call that sends. -/
def send (junk : UInt8) (l : Link) (side : Side) (e : Event) : Traced (Side × Happened) Link :=
  (Tcp.step (l.ends side).conn e).record (fun acts => (side, .sent acts)) fun conn acts =>
    { ends := Function.update l.ends side { l.ends side with conn := conn }
      wire := Function.update l.wire side (l.wire side ++ outgoing junk acts) }

/-- A step of the receive side. -/
def receive (l : Link) (side : Side) (a : Receive.Action) : Traced (Side × Happened) Link :=
  ((l.ends side).step a).view (fun h => [(side, .received h)]) fun s =>
    { l with ends := Function.update l.ends side s }

/-- One step. -/
def step (junk : UInt8) (l : Link) : Side × Op → Traced (Side × Happened) Link
  | (side, .onSend m n) => l.send junk side (.onSend m n)
  | (side, .handleWrite n) => l.send junk side (.handleWrite n)
  | (side, .onRecv r result) => l.receive side (.onRecv r result)
  | (side, .handleRead result) => l.receive side (.handleRead result)
  | (side, .arrive k) =>
    let arrived := (l.wire side.peer).take k
    { l with wire := Function.update l.wire side.peer ((l.wire side.peer).drop k) }.receive side
      (.arrive arrived)
  | (side, .close) => l.receive side .close

/-- A result that `send` can have for a request, also one that it fails with for good. -/
def CanGive (requested : Nat) : IoResult → Prop
  | .count k => k ≤ requested ∧ (requested = 0 ∨ 0 < k)
  | .fail _ => True

/-- The steps that can be taken. Behind the end of its stream a side sends nothing, and the end
arrives behind everything else. -/
def Possible (l : Link) : Side × Op → Prop
  | (side, .onSend m n) =>
    (l.ends side.peer).eof = false ∧ m.buf.length < 2 ^ 64 ∧ CanGive m.buf.length n
  | (side, .handleWrite n) =>
    (l.ends side.peer).eof = false ∧ ∀ tsi ∈ (l.ends side).conn.qSendInfo_.head?, CanGive tsi.rest n
  | (side, .onRecv _ result) => (l.ends side).Gives result
  | (side, .handleRead result) => (l.ends side).Gives result
  | (side, .arrive _) => (l.ends side).eof = false
  | (side, .close) => l.wire side.peer = []

/-- A step for which the two halves of a connection are made: nothing is sent while something is
queued, each `send` takes some bytes, so that it neither blocks nor fails, and no receive blocks
that must not. -/
def Orderly (l : Link) : Side × Op → Prop
  | (side, .onSend _ n) => (l.ends side).conn.qSendInfo_ = [] ∧ ∃ k, n = .count k
  | (side, .handleWrite n) => (l.ends side).conn.qSendInfo_ ≠ [] → ∃ k, n = .count k
  | (side, .onRecv r result) => (l.ends side).Unblocked (.onRecv r result)
  | (side, .handleRead result) => (l.ends side).Unblocked (.handleRead result)
  | _ => True

end Link

/-- Two new connections. -/
def new (channel : Side → TcpChannel) : Link := { ends := fun side => Receive.idle (channel side) }

/-! ### What a side has done -/

section
variable (junk : UInt8) (side : Side)

/-- The messages that a side was asked to send. -/
def messagesOf (ops : List (Side × Op)) : List Message :=
  ops.filterMap fun
    | (s, .onSend m _) => if s = side then some m else none
    | _ => none

/-- What its send side has done. -/
def actsOf (log : List (Side × Happened)) : List Act :=
  log.flatMap fun
    | (s, .sent acts) => if s = side then acts else []
    | _ => []

/-- What has happened to its `onRecv` calls. -/
def happeningsOf (log : List (Side × Happened)) : List Happening :=
  log.filterMap fun
    | (s, .received h) => if s = side then some h else none
    | _ => none

/-- What a trace does to the pipe from a side to its peer. -/
def traffic (log : List (Side × Happened)) : List (Pipe UInt8) :=
  log.filterMap fun
    | (s, .sent acts) => if s = side then some (.put (outgoing junk acts)) else none
    | (s, .received h) => if s = side.peer then some (.get (reported [h])) else none

end

/-! ### Traces -/

section
variable {junk : UInt8} {side d : Side} {log : List (Side × Happened)}

@[simp] theorem peer_peer (side : Side) : side.peer.peer = side := by
  cases side <;> rfl

theorem peer_ne (side : Side) : side.peer ≠ side := by
  cases side <;> decide

theorem eq_or_eq_peer (d side : Side) : d = side ∨ d = side.peer := by
  cases d <;> cases side <;> decide

@[simp] theorem outgoing_append (acts as : List Act) :
    outgoing junk (acts ++ as) = outgoing junk acts ++ outgoing junk as := by
  rw [outgoing, accepted_append, List.map_append]
  rfl

@[simp] theorem messagesOf_append (side : Side) (ops os : List (Side × Op)) :
    messagesOf side (ops ++ os) = messagesOf side ops ++ messagesOf side os :=
  List.filterMap_append

@[simp] theorem actsOf_append (side : Side) (log es : List (Side × Happened)) :
    actsOf side (log ++ es) = actsOf side log ++ actsOf side es := List.flatMap_append

@[simp] theorem happeningsOf_append (side : Side) (log es : List (Side × Happened)) :
    happeningsOf side (log ++ es) = happeningsOf side log ++ happeningsOf side es :=
  List.filterMap_append

@[simp] theorem traffic_append (junk : UInt8) (side : Side) (log es : List (Side × Happened)) :
    traffic junk side (log ++ es) = traffic junk side log ++ traffic junk side es :=
  List.filterMap_append

/-- What went into a pipe is what its side has sent. -/
theorem puts_traffic (junk : UInt8) (side : Side) (log : List (Side × Happened)) :
    Pipe.puts (traffic junk side log) = outgoing junk (actsOf side log) := by
  induction log with
  | nil => rfl
  | cons e log ih =>
      rw [← List.singleton_append, traffic_append, Pipe.puts_append, actsOf_append,
        outgoing_append, ih]
      congr 1
      obtain ⟨s, happened⟩ := e
      cases happened with
      | sent acts => by_cases hs : s = side <;> simp [traffic, actsOf, hs, outgoing]
      | received h => by_cases hs : s = side.peer <;> simp [traffic, actsOf, hs, outgoing]

/-- What came out of it is what was reported to the peer. -/
theorem gets_traffic (junk : UInt8) (side : Side) (log : List (Side × Happened)) :
    Pipe.gets (traffic junk side log) = reported (happeningsOf side.peer log) := by
  induction log with
  | nil => rfl
  | cons e log ih =>
      rw [← List.singleton_append, traffic_append, Pipe.gets_append, happeningsOf_append,
        Receive.reported_append, ih]
      congr 1
      obtain ⟨s, happened⟩ := e
      cases happened with
      | sent acts => by_cases hs : s = side <;> simp [traffic, happeningsOf, hs, reported]
      | received h => by_cases hs : s = side.peer <;> simp [traffic, happeningsOf, hs, reported]

/-! ### What a step leaves alone -/

/-- What a call that sends leaves alone. -/
def Kept (conn conn' : TcpConnection) : Prop :=
  conn'.pTcpChannel_ = conn.pTcpChannel_ ∧ conn'.RecvInfo_ = conn.RecvInfo_

theorem onSend_frame (m : Message) (n : IoResult) (conn : TcpConnection) :
    (onSend m n conn).Ensures (fun _ => True) fun r => Kept conn r.2 := by
  unfold onSend
  split
  · exact .pure ⟨rfl, rfl⟩
  · refine .tell_bind (fun _ _ => trivial) ?_
    split
    · split
      · exact .bind ⟨fun _ _ => trivial, fun _ _ => trivial⟩
          fun _ (_ : True) => .pure ⟨rfl, rfl⟩
      · exact .pure ⟨rfl, rfl⟩
    · split
      · exact .bind ⟨fun _ _ => trivial, fun _ _ => trivial⟩
          fun _ (_ : True) => .pure ⟨rfl, rfl⟩
      · exact .pure ⟨rfl, rfl⟩

theorem handleWrite_frame (n : IoResult) (conn : TcpConnection) :
    (handleWrite n conn).Ensures (fun _ => True) fun r => Kept conn r.2 := by
  unfold handleWrite
  split
  · exact .pure ⟨rfl, rfl⟩
  · exact .fault
  · split
    · exact .pure ⟨rfl, rfl⟩
    · refine .tell_bind (fun _ _ => trivial) ?_
      split
      · exact .bind ⟨fun _ _ => trivial, fun _ _ => trivial⟩
          fun _ (_ : True) => .pure ⟨rfl, rfl⟩
      · split
        · split
          · exact .bind ⟨fun _ _ => trivial, fun _ _ => trivial⟩
              fun _ (_ : True) => .pure ⟨rfl, rfl⟩
          · exact .pure ⟨rfl, rfl⟩
        · exact .pure ⟨rfl, rfl⟩

/-- A call that sends keeps the channel and the registration. -/
theorem send_frame {conn conn' : TcpConnection} {e : Event} {acts : List Act}
    (h : (Tcp.step conn e).Yields acts conn') : Kept conn conn' := by
  cases e with
  | onSend m n =>
      obtain ⟨fs, r, gs, hcall, hrest, -⟩ := Traced.bind_yields.mp h
      obtain ⟨-, rfl⟩ := (Traced.pure_yields ..).mp hrest
      exact (onSend_frame m n conn).value r hcall.2
  | handleWrite n =>
      obtain ⟨fs, r, gs, hcall, hrest, -⟩ := Traced.bind_yields.mp h
      obtain ⟨-, rfl⟩ := (Traced.pure_yields ..).mp hrest
      exact (handleWrite_frame n conn).value r hcall.2

/-- What a call that receives leaves alone. -/
def Left (conn conn' : TcpConnection) : Prop :=
  conn'.pTcpChannel_ = conn.pTcpChannel_ ∧ conn'.qSendInfo_ = conn.qSendInfo_

theorem onRecv_frame (r : Request) (result : RecvResult) (conn : TcpConnection) :
    (onRecv r result conn).Ensures (fun _ => True) fun p => Left conn p.2 := by
  unfold onRecv
  split
  · exact .pure ⟨rfl, rfl⟩
  · refine .tell_bind (fun _ _ => trivial) ?_
    split
    · split
      · exact .pure ⟨rfl, rfl⟩
      · refine .tell_bind (fun _ _ => trivial) ?_
        exact .bind ⟨fun _ _ => trivial, fun _ _ => trivial⟩
          fun _ (_ : True) => .pure ⟨rfl, rfl⟩
    · exact .tell_bind (fun _ _ => trivial) (.pure ⟨rfl, rfl⟩)
    · refine .tell_bind (fun _ _ => trivial) ?_
      exact .bind ⟨fun _ _ => trivial, fun _ _ => trivial⟩
        fun _ (_ : True) => .pure ⟨rfl, rfl⟩

theorem handleRead_frame (result : RecvResult) (conn : TcpConnection) :
    (handleRead result conn).Ensures (fun _ => True) fun p => Left conn p.2 := by
  unfold handleRead
  split
  · split
    · exact .fault
    · split
      · exact .pure ⟨rfl, rfl⟩
      · split
        · exact .pure ⟨rfl, rfl⟩
        · refine .tell_bind (fun _ _ => trivial) ?_
          split
          · refine .tell_bind (fun _ _ => trivial) ?_
            exact .bind ⟨fun _ _ => trivial, fun _ _ => trivial⟩
              fun _ (_ : True) => .pure ⟨rfl, rfl⟩
          · exact .tell_bind (fun _ _ => trivial) (.pure ⟨rfl, rfl⟩)
          · refine .tell_bind (fun _ _ => trivial) ?_
            exact .bind ⟨fun _ _ => trivial, fun _ _ => trivial⟩
              fun _ (_ : True) => .pure ⟨rfl, rfl⟩
  · exact .pure ⟨rfl, rfl⟩

/-- What a call of the connection does to the rest of the system. -/
theorem settle_frame (s : Receive.System) {s' : Receive.System} {call : Option Nat}
    {registered : Bool} {result : RecvResult} {x : Traced Act (Int × TcpConnection)}
    {es : List Happening}
    (hx : x.Ensures (fun _ => True) fun r => Left s.conn r.2)
    (h : (s.settle call registered result x).Yields es s') :
    Left s.conn s'.conn ∧ s'.received = s.received ∧ s'.eof = s.eof := by
  cases hvalue : x.value with
  | none =>
      unfold Receive.System.settle at h
      rw [hvalue] at h
      exact absurd h (Traced.fault_yields _ _)
  | some r =>
      obtain ⟨ret, conn⟩ := r
      obtain ⟨-, rfl⟩ := Receive.settle_yields ⟨rfl, hvalue⟩ h
      exact ⟨hx.value _ hvalue, rfl, rfl⟩

/-- A call that receives changes neither what has arrived nor whether the stream has ended. -/
theorem onRecv_step_frame {s s' : Receive.System} {r : Request} {result : RecvResult}
    {es : List Happening} (h : (s.step (.onRecv r result)).Yields es s') :
    Left s.conn s'.conn ∧ s'.received = s.received ∧ s'.eof = s.eof :=
  settle_frame { s with requests := s.requests ++ [r] } (onRecv_frame r result s.conn) h

theorem handleRead_step_frame {s s' : Receive.System} {result : RecvResult} {es : List Happening}
    (h : (s.step (.handleRead result)).Yields es s') :
    Left s.conn s'.conn ∧ s'.received = s.received ∧ s'.eof = s.eof :=
  settle_frame s (handleRead_frame result s.conn) h

/-! ### The invariant -/

/-- The send side depends on the channel and the queue only. -/
theorem sending_of_left {channel : TcpChannel} {ms : List Message} {acts : List Act}
    {conn conn' : TcpConnection} (h : Tcp.Inv channel ms acts conn) (hleft : Left conn conn') :
    Tcp.Inv channel ms acts conn' := by
  obtain ⟨unfinished, hprogress, hqueue⟩ := h.progress
  exact .of_progress (hleft.1.trans h.channel_eq) hprogress (hleft.2.trans hqueue)

/-- The receive side depends on the channel and the registration only. -/
theorem receiving_of_kept {channel : TcpChannel} {happenings : List Happening} {s : Receive.System}
    {conn' : TcpConnection} (h : Receive.Inv channel happenings s) (hkept : Kept s.conn conn') :
    Receive.Inv channel happenings { s with conn := conn' } := by
  refine ⟨hkept.1.trans h.channel_eq, h.stream, ?_, ?_, h.made, h.once, h.reports, h.kept⟩
  · intro hnone
    show conn'.RecvInfo_.recvInUse_ = false
    rw [hkept.2]
    exact h.idle hnone
  · intro k hk
    obtain ⟨r, hr, hinfo, hnot⟩ := h.armed k hk
    exact ⟨r, hr, hkept.2.trans hinfo, hnot⟩

/-- The invariant of a run.

- `sending`, `receiving`: each half of each connection keeps its own invariant;
- `carries`: what a side has sent was reported to its peer, or waits there, or is on the wire;
- `ended`: behind the end of its stream nothing of a side is on the wire. -/
structure Inv (junk : UInt8) (channel : Side → TcpChannel) (ops : List (Side × Op))
    (log : List (Side × Happened)) (l : Link) : Prop where
  sending : ∀ d, Tcp.Inv (channel d) (messagesOf d ops) (actsOf d log) (l.ends d).conn
  receiving : ∀ d, Receive.Inv (channel d) (happeningsOf d log) (l.ends d)
  carries : ∀ d, Pipe.Carries [] (traffic junk d log) ((l.ends d.peer).pending ++ l.wire d)
  ended : ∀ d, (l.ends d.peer).eof = true → l.wire d = []

section Steps
variable {channel : Side → TcpChannel} {ops os : List (Side × Op)} {l l' : Link}
  {es : List (Side × Happened)}

/-- A call that sends, on one connection. -/
theorem sending_step {channel : TcpChannel} {ms : List Message} {acts fs : List Act}
    {conn conn' : TcpConnection} {e : Event} (h : Tcp.Inv channel ms acts conn)
    (hlegal : Legal conn e) (hturn : InTurn conn e) (hstep : (Tcp.step conn e).Yields fs conn') :
    Tcp.Inv channel (ms ++ Tcp.messages [e]) (acts ++ fs) conn' := by
  cases e with
  | onSend m n => exact h.onSend hlegal hturn hstep
  | handleWrite n =>
      have hnone : Tcp.messages [.handleWrite n] = [] := rfl
      rw [hnone, List.append_nil]
      exact h.handleWrite hlegal hturn hstep

/-- A call that sends. -/
theorem Inv.send (h : Inv junk channel ops log l) {e : Event}
    (hopen : (l.ends side.peer).eof = false) (hlegal : Legal (l.ends side).conn e)
    (hturn : InTurn (l.ends side).conn e) (hown : messagesOf side os = Tcp.messages [e])
    (hother : messagesOf side.peer os = []) (hstep : (l.send junk side e).Yields es l') :
    Inv junk channel (ops ++ os) (log ++ es) l' := by
  obtain ⟨acts, conn, hcall, rfl, rfl⟩ := Traced.record_yields.mp hstep
  have hkept := send_frame hcall
  have hne := peer_ne side
  refine ⟨fun d => ?_, fun d => ?_, fun d => ?_, fun d => ?_⟩ <;> dsimp only
  · rcases eq_or_eq_peer d side with rfl | rfl
    · have hacts : actsOf d [(d, .sent acts)] = acts := by simp [actsOf]
      rw [messagesOf_append, hown, actsOf_append, hacts, Function.update_self]
      exact sending_step (h.sending d) hlegal hturn hcall
    · have hacts : actsOf side.peer [(side, .sent acts)] = [] := by simp [actsOf, hne.symm]
      rw [messagesOf_append, hother, actsOf_append, hacts, Function.update_of_ne hne,
        List.append_nil, List.append_nil]
      exact h.sending side.peer
  · have hhappenings : happeningsOf d [(side, .sent acts)] = [] := rfl
    rw [happeningsOf_append, hhappenings, List.append_nil]
    rcases eq_or_eq_peer d side with rfl | rfl
    · rw [Function.update_self]
      exact receiving_of_kept (h.receiving d) hkept
    · rw [Function.update_of_ne hne]
      exact h.receiving side.peer
  · rcases eq_or_eq_peer d side with rfl | rfl
    · have htraffic : traffic junk d [(d, .sent acts)] = [.put (outgoing junk acts)] := by
        simp [traffic]
      rw [traffic_append, htraffic, Function.update_self, Function.update_of_ne hne,
        ← List.append_assoc]
      exact (h.carries d).put
    · have htraffic : traffic junk side.peer [(side, .sent acts)] = [] := by
        simp [traffic, hne.symm]
      have hcarries := h.carries side.peer
      rw [peer_peer] at hcarries
      rw [traffic_append, htraffic, List.append_nil, Function.update_of_ne hne, peer_peer,
        Function.update_self]
      exact hcarries
  · rcases eq_or_eq_peer d side with rfl | rfl
    · -- the stream has not ended
      rw [Function.update_of_ne hne]
      intro heof
      exact absurd (heof.symm.trans hopen) (by decide)
    · have hended := h.ended side.peer
      rw [peer_peer] at hended
      rw [peer_peer, Function.update_self, Function.update_of_ne hne]
      exact hended

/-- The trace of what has happened on the receive side. -/
def trace (side : Side) (fs : List Happening) : List (Side × Happened) :=
  fs.flatMap fun h => [(side, .received h)]

theorem happeningsOf_trace (side : Side) (fs : List Happening) :
    happeningsOf side (trace side fs) = fs ∧ happeningsOf side.peer (trace side fs) = [] := by
  have hne := (peer_ne side).symm
  induction fs with
  | nil => exact ⟨rfl, rfl⟩
  | cons h fs ih =>
      rw [trace, List.flatMap_cons, happeningsOf_append, happeningsOf_append]
      change _ ++ happeningsOf side (trace side fs) = _ ∧
        _ ++ happeningsOf side.peer (trace side fs) = _
      rw [ih.1, ih.2]
      simp [happeningsOf, hne]

theorem actsOf_trace (d side : Side) (fs : List Happening) : actsOf d (trace side fs) = [] := by
  refine List.flatMap_eq_nil_iff.mpr fun e he => ?_
  obtain ⟨h, -, hmem⟩ := List.mem_flatMap.mp he
  obtain rfl := List.mem_singleton.mp hmem
  rfl

/-- It is what comes out of the pipe from the peer. -/
theorem traffic_trace (junk : UInt8) (side : Side) (fs : List Happening) :
    traffic junk side.peer (trace side fs) = (fs.map fun h => reported [h]).map .get ∧
      traffic junk side (trace side fs) = [] := by
  have hne := (peer_ne side).symm
  induction fs with
  | nil => exact ⟨rfl, rfl⟩
  | cons h fs ih =>
      rw [trace, List.flatMap_cons, traffic_append, traffic_append]
      change _ ++ traffic junk side.peer (trace side fs) = _ ∧
        _ ++ traffic junk side (trace side fs) = _
      rw [ih.1, ih.2]
      simp [traffic, hne]

theorem flatten_reported (fs : List Happening) :
    (fs.map fun h => reported [h]).flatten = reported fs := by
  induction fs with
  | nil => rfl
  | cons h fs ih =>
      rw [List.map_cons, List.flatten_cons, ih, ← Receive.reported_append]
      rfl

/-- A step of the receive side: what has come out of the pipe was the first of what was in it. -/
theorem Inv.receive (h : Inv junk channel ops log l) (fs : List Happening) (s' : Receive.System)
    (wire : List UInt8) (hnone : ∀ d, messagesOf d os = [])
    (hleft : Left (l.ends side).conn s'.conn)
    (hinv : Receive.Inv (channel side) (happeningsOf side log ++ fs) s')
    (hflight : (l.ends side).pending ++ l.wire side.peer =
      reported fs ++ (s'.pending ++ wire))
    (hended : s'.eof = true → wire = []) :
    Inv junk channel (ops ++ os) (log ++ trace side fs)
      { ends := Function.update l.ends side s'
        wire := Function.update l.wire side.peer wire } := by
  have hne := peer_ne side
  refine ⟨fun d => ?_, fun d => ?_, fun d => ?_, fun d => ?_⟩ <;> dsimp only
  · rw [messagesOf_append, hnone, List.append_nil, actsOf_append, actsOf_trace, List.append_nil]
    rcases eq_or_eq_peer d side with rfl | rfl
    · rw [Function.update_self]
      exact sending_of_left (h.sending d) hleft
    · rw [Function.update_of_ne hne]
      exact h.sending side.peer
  · rcases eq_or_eq_peer d side with rfl | rfl
    · rw [happeningsOf_append, (happeningsOf_trace d fs).1, Function.update_self]
      exact hinv
    · rw [happeningsOf_append, (happeningsOf_trace side fs).2, List.append_nil,
        Function.update_of_ne hne]
      exact h.receiving side.peer
  · rcases eq_or_eq_peer d side with rfl | rfl
    · rw [traffic_append, (traffic_trace junk d fs).2, List.append_nil,
        Function.update_of_ne hne, Function.update_of_ne hne.symm]
      exact h.carries d
    · rw [traffic_append, (traffic_trace junk side fs).1, peer_peer, Function.update_self,
        Function.update_self]
      have hcarries := h.carries side.peer
      rw [peer_peer, hflight, ← flatten_reported] at hcarries
      exact hcarries.gets
  · rcases eq_or_eq_peer d side with rfl | rfl
    · rw [Function.update_of_ne hne, Function.update_of_ne hne.symm]
      exact h.ended d
    · rw [peer_peer, Function.update_self, Function.update_self]
      exact hended

/-- A call that receives: what is pending goes to the callback, and the rest stays pending. -/
theorem Inv.called (h : Inv junk channel ops log l) {s' : Receive.System} {fs : List Happening}
    (hnone : ∀ d, messagesOf d os = [])
    (hframe : Left (l.ends side).conn s'.conn ∧ s'.received = (l.ends side).received ∧
      s'.eof = (l.ends side).eof)
    (hinv : Receive.Inv (channel side) (happeningsOf side log ++ fs) s') :
    Inv junk channel (ops ++ os) (log ++ trace side fs)
      { l with ends := Function.update l.ends side s' } := by
  obtain ⟨hleft, hreceived, heof⟩ := hframe
  have hpending : (l.ends side).pending = reported fs ++ s'.pending := by
    have hbefore := (h.receiving side).stream
    rw [← hreceived, hinv.stream, Receive.reported_append, List.append_assoc] at hbefore
    exact (List.append_cancel_left hbefore).symm
  have hended : s'.eof = true → l.wire side.peer = [] := by
    intro hclosed
    refine h.ended side.peer ?_
    rw [peer_peer, ← heof]
    exact hclosed
  have hinv' := h.receive fs s' (l.wire side.peer) hnone hleft hinv
    (by rw [hpending, List.append_assoc]) hended
  rwa [Function.update_eq_self] at hinv'

/-- Bytes arrive: they were the first on the wire, and are the last that are pending. -/
theorem Inv.arrive (h : Inv junk channel ops log l) {k : Nat} (hnone : ∀ d, messagesOf d os = [])
    (hopen : (l.ends side).eof = false)
    (hstep : (l.step junk (side, .arrive k)).Yields es l') :
    Inv junk channel (ops ++ os) (log ++ es) l' := by
  obtain ⟨fs, s', hcall, rfl, rfl⟩ := Traced.view_yields.mp hstep
  obtain ⟨rfl, rfl⟩ := (Traced.pure_yields ..).mp hcall
  have hside := h.receiving side
  refine h.receive [] _ _ hnone ⟨rfl, rfl⟩ ?_ ?_ fun hclosed => ?_
  · rw [List.append_nil]
    exact ⟨hside.channel_eq, by rw [← List.append_assoc, ← hside.stream], hside.idle, hside.armed,
      hside.made, hside.once, hside.reports, hside.kept⟩
  · show (l.ends side).pending ++ l.wire side.peer =
      [] ++ (((l.ends side).pending ++ (l.wire side.peer).take k) ++ (l.wire side.peer).drop k)
    rw [List.nil_append, List.append_assoc, List.take_append_drop]
  · -- nothing arrives behind the end of the stream
    exact absurd (hclosed.symm.trans hopen) (by decide)

/-- The stream of the peer comes to its end, behind the last byte. -/
theorem Inv.close (h : Inv junk channel ops log l) (hnone : ∀ d, messagesOf d os = [])
    (hempty : l.wire side.peer = [])
    (hstep : (l.step junk (side, .close)).Yields es l') :
    Inv junk channel (ops ++ os) (log ++ es) l' := by
  obtain ⟨fs, s', hcall, rfl, rfl⟩ := Traced.view_yields.mp hstep
  obtain ⟨rfl, rfl⟩ := (Traced.pure_yields ..).mp hcall
  have hside := h.receiving side
  have hinv := h.receive [] { l.ends side with eof := true } (l.wire side.peer) hnone
    ⟨rfl, rfl⟩ ?_ rfl fun _ => hempty
  · rwa [Function.update_eq_self] at hinv
  · rw [List.append_nil]
    exact ⟨hside.channel_eq, hside.stream, hside.idle, hside.armed, hside.made, hside.once,
      hside.reports, hside.kept⟩

/-- A `send` that takes something does what the send side is made for. -/
theorem Inv.onSend (h : Inv junk channel ops log l) {m : Message} {n : IoResult}
    (hpossible : l.Possible (side, .onSend m n)) (horderly : l.Orderly (side, .onSend m n))
    (hstep : (l.step junk (side, .onSend m n)).Yields es l') :
    Inv junk channel (ops ++ [(side, .onSend m n)]) (log ++ es) l' := by
  obtain ⟨hopen, hsize, hgives⟩ := hpossible
  obtain ⟨hqueue, k, rfl⟩ := horderly
  refine h.send hopen (e := .onSend m (.count k)) ⟨hsize, hgives⟩ ⟨hqueue, ?_⟩ ?_ ?_ hstep
  · exact fun hagain => IoResult.noConfusion hagain
  · simp [messagesOf, Tcp.messages]
  · simp [messagesOf, (peer_ne side).symm]

theorem Inv.handleWrite (h : Inv junk channel ops log l) {n : IoResult}
    (hpossible : l.Possible (side, .handleWrite n)) (horderly : l.Orderly (side, .handleWrite n))
    (hstep : (l.step junk (side, .handleWrite n)).Yields es l') :
    Inv junk channel (ops ++ [(side, .handleWrite n)]) (log ++ es) l' := by
  obtain ⟨hopen, hgives⟩ := hpossible
  refine h.send hopen (e := .handleWrite n) (fun tsi htsi => ?_) (fun hqueue hagain => ?_) rfl rfl
    hstep
  · have hqueue : (l.ends side).conn.qSendInfo_ ≠ [] :=
      List.ne_nil_of_mem (List.mem_of_mem_head? htsi)
    obtain ⟨k, rfl⟩ := horderly hqueue
    exact hgives tsi htsi
  · obtain ⟨k, rfl⟩ := horderly hqueue
    exact IoResult.noConfusion hagain

/-- Every step keeps the invariant. -/
theorem Inv.step (h : Inv junk channel ops log l) {op : Side × Op} (hpossible : l.Possible op)
    (horderly : l.Orderly op) (hstep : (l.step junk op).Yields es l') :
    Inv junk channel (ops ++ [op]) (log ++ es) l' := by
  obtain ⟨side, op⟩ := op
  cases op with
  | onSend m n => exact h.onSend hpossible horderly hstep
  | handleWrite n => exact h.handleWrite hpossible horderly hstep
  | onRecv r result =>
      obtain ⟨fs, s', hcall, rfl, rfl⟩ := Traced.view_yields.mp hstep
      exact h.called (fun _ => rfl) (onRecv_step_frame hcall)
        ((h.receiving side).onRecv hpossible horderly hcall)
  | handleRead result =>
      obtain ⟨fs, s', hcall, rfl, rfl⟩ := Traced.view_yields.mp hstep
      exact h.called (fun _ => rfl) (handleRead_step_frame hcall)
        ((h.receiving side).handleRead hpossible horderly hcall)
  | arrive k => exact h.arrive (fun _ => rfl) hpossible hstep
  | close => exact h.close (fun _ => rfl) hpossible hstep

end Steps

/-! ### Whole runs -/

/-- What the two connections guarantee in the direction from `d` to its peer: each half keeps its
own law, and between the two nothing is lost, made up or overtaken. -/
structure Carried (junk : UInt8) (ops : List (Side × Op)) (log : List (Side × Happened)) (l : Link)
    (d : Side) : Prop where
  sent : SendStream (messagesOf d ops) (actsOf d log)
  received : ReceiveLaw (l.ends d.peer) (happeningsOf d.peer log)
  balance : outgoing junk (actsOf d log) =
    reported (happeningsOf d.peer log) ++ ((l.ends d.peer).pending ++ l.wire d)
  delivered : reported (happeningsOf d.peer log) <+: bytes (messagesOf d ops)
  all : reported (happeningsOf d.peer log) = bytes (messagesOf d ops) ↔
    (l.ends d).conn.qSendInfo_ = [] ∧ (l.ends d.peer).pending = [] ∧ l.wire d = []
  ended : (l.ends d.peer).eof = true → l.wire d = []

section
variable {channel : Side → TcpChannel} {ops : List (Side × Op)} {l : Link}

/-- Two new connections. -/
theorem Inv.new : Inv junk channel [] [] (new channel) := by
  refine ⟨fun d => ⟨rfl, .idle rfl rfl rfl, by simp [actsOf]⟩, fun d => ?_, fun _ => .nil,
    fun _ _ => rfl⟩
  refine ⟨rfl, rfl, fun _ => rfl, fun k hk => absurd hk.symm (Option.some_ne_none k), ?_,
    List.nodup_nil, ?_, ?_⟩
  all_goals simp [Receive.completed, happeningsOf]

/-- What has gone out is the beginning of what was to be sent, and all of it when nothing is
queued. -/
theorem Inv.outgoing_bytes (h : Inv junk channel ops log l) (d : Side) :
    outgoing junk (actsOf d log) <+: bytes (messagesOf d ops) ∧
      (outgoing junk (actsOf d log) = bytes (messagesOf d ops) ↔
        (l.ends d).conn.qSendInfo_ = []) := by
  have hgetD : ∀ bs : List UInt8, (bs.map some).map (fun b => b.getD junk) = bs := by
    intro bs
    rw [List.map_map]
    exact List.map_id' bs
  obtain ⟨unfinished, ⟨hreached, -⟩, hqueue⟩ := (h.sending d).progress
  rw [hqueue]
  cases hreached with
  | all hbytes hcalls =>
      have hall : outgoing junk (actsOf d log) = bytes (messagesOf d ops) := by
        rw [outgoing, hbytes, hgetD]
      exact ⟨hall ▸ List.prefix_refl _, iff_of_true hall rfl⟩
  | upTo sent m k hms hk hsize hbytes hcalls =>
      rw [outgoing, hbytes, hgetD, hms, bytes_append, bytes_singleton]
      refine ⟨(List.prefix_append_right_inj _).mpr (List.take_prefix k m.buf), iff_of_false ?_ ?_⟩
      · intro heq
        have hlength := congrArg List.length (List.append_cancel_left heq)
        rw [List.length_take] at hlength
        omega
      · exact List.cons_ne_nil _ _

/-- The invariant gives the guarantee. -/
theorem Inv.carried (h : Inv junk channel ops log l) (d : Side) : Carried junk ops log l d := by
  obtain ⟨_, hprogress, -⟩ := (h.sending d).progress
  obtain ⟨hbeginning, hall⟩ := h.outgoing_bytes d
  have hbalance := (h.carries d).balance
  have hreported := (h.carries d).beginning
  have hempty := (h.carries d).eq_iff
  rw [puts_traffic, gets_traffic] at hbalance hreported hempty
  refine ⟨hprogress.sendStream, (h.receiving d.peer).law, hbalance, hreported.trans hbeginning, ?_,
    h.ended d⟩
  rw [← hall, ← List.append_eq_nil_iff, ← hempty]
  constructor
  · intro heq
    -- what has come out is all that was to be sent, so all of that has gone in
    have hout : outgoing junk (actsOf d log) = bytes (messagesOf d ops) :=
      hbeginning.eq_of_length_le (heq ▸ hreported.length_le)
    exact ⟨hout, heq.trans hout.symm⟩
  · rintro ⟨hout, hin⟩
    exact hin.trans hout

/-- Two connections are two pipes, in every state that a run reaches in which each half is used as
it is made to be used, whatever the two sides do and in whatever order. -/
theorem duplex (hrun : Traced.Run (Link.step junk) (fun l op => l.Possible op ∧ l.Orderly op)
    (new channel) ops log l) (d : Side) : Carried junk ops log l d := by
  suffices h : Inv junk channel ops log l from h.carried d
  refine hrun.invariant (P := fun ops log l => Inv junk channel ops log l) .new ?_
  intro ops log l op es l' h hok hstep
  exact h.step hok.1 hok.2 hstep

end

end

/-- The left side sends two bytes in two parts, and the right side one. -/
def both : List (Side × Op) :=
  [(.right, .onRecv (Receive.requestAt 16) (.fail EAGAIN)),
    (.left, .onSend (messageOf [1, 2] 5) (.count 1)),
    (.right, .onSend (messageOf [3] 6) (.count 1)), (.left, .handleWrite (.count 1)),
    (.right, .arrive 2), (.left, .arrive 1), (.right, .handleRead (.data [1, 2])),
    (.left, .onRecv (Receive.requestAt 32) (.data [3]))]

/-- What they have sent is delivered. -/
theorem duplex_both : ∃ log l,
    Traced.Run (Link.step 0) (fun l op => l.Possible op ∧ l.Orderly op)
      (new fun _ => Receive.open4) both log l ∧
      (∀ d, Carried 0 both log l d) ∧
      reported (happeningsOf .right log) = [1, 2] ∧ reported (happeningsOf .left log) = [3] := by
  have hrun : ∃ log l, Traced.Run (Link.step 0) (fun l op => l.Possible op ∧ l.Orderly op)
      (new fun _ => Receive.open4) both log l ∧
      reported (happeningsOf .right log) = [1, 2] ∧ reported (happeningsOf .left log) = [3] := by
    refine ⟨_, _, .snoc (.snoc (.snoc (.snoc (.snoc (.snoc (.snoc (.snoc (l := []) .nil
      ?ask ⟨rfl, rfl⟩) ?send ⟨rfl, rfl⟩) ?answer ⟨rfl, rfl⟩) ?rest ⟨rfl, rfl⟩) ?there ⟨rfl, rfl⟩)
      ?back ⟨rfl, rfl⟩) ?read ⟨rfl, rfl⟩) ?take ⟨rfl, rfl⟩, ?right, ?left⟩
    case ask => exact ⟨fun _ => ⟨rfl, rfl⟩, fun h => Bool.noConfusion h⟩
    case send => exact ⟨⟨rfl, by decide, by decide, by decide⟩, rfl, 1, rfl⟩
    case answer => exact ⟨⟨rfl, by decide, by decide, by decide⟩, rfl, 1, rfl⟩
    case rest =>
      refine ⟨⟨rfl, ?_⟩, fun _ => ⟨1, rfl⟩⟩
      intro tsi htsi
      obtain rfl := Option.some.inj htsi
      exact ⟨by decide, by decide⟩
    case there => exact ⟨rfl, trivial⟩
    case back => exact ⟨rfl, trivial⟩
    case read => exact ⟨⟨List.prefix_refl _, by decide⟩, fun _ => rfl⟩
    case take => exact ⟨⟨List.prefix_refl _, by decide⟩, fun _ => rfl⟩
    case right => rfl
    case left => rfl
  obtain ⟨log, l, hrun, hright, hleft⟩ := hrun
  exact ⟨log, l, hrun, duplex hrun, hright, hleft⟩

end Ndsl.Proofs.Tcp.Pair
