import Ndsl.Lib.Slot
import Ndsl.Lib.Traced
import Ndsl.Net.Acceptor

/-!
# `Ndsl.Proofs.Acceptor.Pairs`: registrations and connections in pairs

`info` is a slot for one registration (`Slot`): `onAccept` puts one there, and a connection that is
accepted takes it. `Pairs` says what a log must show for that: no connection is accepted without a
registration, and each registration that is taken brings the channel on its loop, what is written
for the user, and one call of its callback. The lemmas say which events keep it. `Answers` is the
other half: a call that takes a connection for the registration and does all this.
-/

set_option autoImplicit false

namespace Ndsl.Proofs.Acceptor

open Ndsl.Lib
open Ndsl.Net Ndsl.Net.Acceptor

/-! ### What a log says -/

/-- What an event does to the registration. -/
def use : Event → Option (Use Request)
  | .onAccept request => some (.put request)
  | .accept .. => some .take
  | _ => none

/-- The connection that is accepted, and its descriptor. -/
def accepted? : Event → Option (Connection × Int)
  | .accept connection connfd => some (connection, connfd)
  | _ => none

/-- The connection that arrives. -/
def arrived? : Event → Option Connection
  | .arrives connection => some connection
  | _ => none

/-- The channel that is made: for which `TcpConnection`, descriptor and loop. -/
def channel? : Event → Option (Nat × Int × Nat)
  | .createChannel pCon connfd loop => some (pCon, connfd, loop)
  | _ => none

/-- The callback that is called, and its parameter. -/
def callback? : Event → Option (Nat × Nat)
  | .callback cb param => some (cb, param)
  | _ => none

/-- What is written for the user. -/
def written? : Event → Option Event
  | .address addr cliaddr => some (.address addr cliaddr)
  | .length addrlen clilen => some (.length addrlen clilen)
  | _ => none

/-- The registrations that were taken, each with the connection that took it. -/
def pairs (log : List Event) : List (Request × (Connection × Int)) :=
  (Slot.slot use log).consumed.zip (log.filterMap accepted?)

/-- Each connection that was accepted has taken the registration that was there, and served it. The
registration `armed` is there now, and the connections `waiting` are still to be accepted. -/
structure Pairs (loop : Nat) (copies : Request → Connection → List Event) (log : List Event)
    (armed : Option Request) (waiting : List Connection) : Prop where
  armed_eq : (Slot.slot use log).armed = armed
  missed : (Slot.slot use log).missed = 0
  paired : (Slot.slot use log).consumed.length = (log.filterMap accepted?).length
  channels : log.filterMap channel? =
    (pairs log).map fun p => (p.1.pCon_, p.2.2, p.1.loop_.getD loop)
  written : log.filterMap written? = (pairs log).flatMap fun p => copies p.1 p.2.1
  callbacks : log.filterMap callback? =
    (Slot.slot use log).consumed.filterMap fun request => request.cb_.map (·, request.param_)
  arrivals : log.filterMap arrived? = (log.filterMap accepted?).map Prod.fst ++ waiting

/-- The event says nothing about registrations and connections. -/
def Quiet (e : Event) : Prop :=
  use e = none ∧ accepted? e = none ∧ arrived? e = none ∧ channel? e = none ∧ callback? e = none ∧
    written? e = none

/-- What `handleRead` does for the registration `request`, behind `accept`. -/
structure Serves (request : Request) (connection : Connection) (connfd : Int) (loop : Nat)
    (copies : Request → Connection → List Event) (es : List Event) : Prop where
  use_none : ∀ e ∈ es, use e = none
  accepted : es.filterMap accepted? = []
  arrived : es.filterMap arrived? = []
  channels : es.filterMap channel? = [(request.pCon_, connfd, request.loop_.getD loop)]
  written : es.filterMap written? = copies request connection
  callbacks : es.filterMap callback? = (request.cb_.map (·, request.param_)).toList

/-- The call takes the connection `connection` for the registration `request`, and serves it: behind
it none is there, and the connections `waiting` are still to be accepted. -/
def Answers {σ : Type} (loop : Nat) (copies : Request → Connection → List Event) (request : Request)
    (connection : Connection) (connfd : Int) (armed : σ → Option Request)
    (waits : σ → List Connection) (waiting : List Connection) (x : Traced Event σ) : Prop :=
  ∃ es t, x.Yields (.accept connection connfd :: es) t ∧
    Serves request connection connfd loop copies es ∧ armed t = none ∧ waits t = waiting

/-! ### What keeps it -/

section Keeps
variable {loop : Nat} {copies : Request → Connection → List Event} {log es : List Event}
  {armed : Option Request} {waiting : List Connection} {request : Request}
  {connection : Connection} {connfd : Int}

theorem quiet_returned (ret : Int) : ∀ e ∈ [Event.returned ret], Quiet e := by
  intro e he
  rw [List.mem_singleton.mp he]
  exact ⟨rfl, rfl, rfl, rfl, rfl, rfl⟩

theorem quiet_testCallback (cb : Nat) : ∀ e ∈ [Event.testCallback cb], Quiet e := by
  intro e he
  rw [List.mem_singleton.mp he]
  exact ⟨rfl, rfl, rfl, rfl, rfl, rfl⟩

theorem quiet_fails (message : String) :
    ∀ e ∈ [Event.log message, .returned S_FALSE], Quiet e := by
  intro e he
  rcases List.mem_pair.mp he with rfl | rfl <;> exact ⟨rfl, rfl, rfl, rfl, rfl, rfl⟩

/-- A projection that does not see the last event. -/
theorem filterMap_snoc {β : Type} {f : Event → Option β} {e : Event} (h : f e = none) :
    (log ++ [e]).filterMap f = log.filterMap f :=
  Traced.filterMap_append_of_none fun e' he => by rw [List.mem_singleton.mp he, h]

/-- Nothing that matters has happened. -/
theorem Pairs.quiet (h : Pairs loop copies log armed waiting) (hquiet : ∀ e ∈ es, Quiet e) :
    Pairs loop copies (log ++ es) armed waiting := by
  have hslot : Slot.slot use (log ++ es) = Slot.slot use log :=
    Slot.slot_append_of_none fun e he => (hquiet e he).1
  have haccepted : (log ++ es).filterMap accepted? = log.filterMap accepted? :=
    Traced.filterMap_append_of_none fun e he => (hquiet e he).2.1
  have hpairs : pairs (log ++ es) = pairs log := by rw [pairs, hslot, haccepted, pairs]
  refine ⟨?_, ?_, ?_, ?_, ?_, ?_, ?_⟩
  · rw [hslot, h.armed_eq]
  · rw [hslot, h.missed]
  · rw [hslot, haccepted, h.paired]
  · rw [hpairs, Traced.filterMap_append_of_none fun e he => (hquiet e he).2.2.2.1, h.channels]
  · rw [hpairs, Traced.filterMap_append_of_none fun e he => (hquiet e he).2.2.2.2.2, h.written]
  · rw [hslot, Traced.filterMap_append_of_none fun e he => (hquiet e he).2.2.2.2.1, h.callbacks]
  · rw [haccepted, Traced.filterMap_append_of_none fun e he => (hquiet e he).2.2.1, h.arrivals]

/-- A connection arrives. -/
theorem Pairs.arrives (h : Pairs loop copies log armed waiting) (connection : Connection) :
    Pairs loop copies (log ++ [.arrives connection]) armed (waiting ++ [connection]) := by
  have hslot : Slot.slot use (log ++ [.arrives connection]) = Slot.slot use log :=
    Slot.slot_snoc ..
  have haccepted : (log ++ [Event.arrives connection]).filterMap accepted? =
      log.filterMap accepted? := filterMap_snoc rfl
  have hpairs : pairs (log ++ [Event.arrives connection]) = pairs log := by
    rw [pairs, hslot, haccepted, pairs]
  refine ⟨?_, ?_, ?_, ?_, ?_, ?_, ?_⟩
  · rw [hslot, h.armed_eq]
  · rw [hslot, h.missed]
  · rw [hslot, haccepted, h.paired]
  · rw [hpairs, filterMap_snoc rfl, h.channels]
  · rw [hpairs, filterMap_snoc rfl, h.written]
  · rw [hslot, filterMap_snoc rfl, h.callbacks]
  · rw [haccepted, List.filterMap_append, h.arrivals, List.append_assoc]
    rfl

/-- A registration is made. -/
theorem Pairs.registers (h : Pairs loop copies log armed waiting) (request : Request) :
    Pairs loop copies (log ++ [.onAccept request]) (some request) waiting := by
  have hslot : Slot.slot use (log ++ [.onAccept request]) =
      (Slot.slot use log).after (some (.put request)) := Slot.slot_snoc ..
  have haccepted : (log ++ [Event.onAccept request]).filterMap accepted? =
      log.filterMap accepted? := filterMap_snoc rfl
  have hpairs : pairs (log ++ [Event.onAccept request]) = pairs log := by
    rw [pairs, hslot, haccepted]
    rfl
  refine ⟨?_, ?_, ?_, ?_, ?_, ?_, ?_⟩
  · rw [hslot]
    rfl
  · rw [hslot]
    exact h.missed
  · rw [hslot, haccepted]
    exact h.paired
  · rw [hpairs, filterMap_snoc rfl, h.channels]
  · rw [hpairs, filterMap_snoc rfl, h.written]
  · rw [hslot, filterMap_snoc rfl]
    exact h.callbacks
  · rw [haccepted, filterMap_snoc rfl, h.arrivals]

/-- The registration is taken. -/
theorem Serves.slot_eq (hserves : Serves request connection connfd loop copies es)
    (harmed : (Slot.slot use log).armed = some request) :
    Slot.slot use (log ++ .accept connection connfd :: es) =
      { Slot.slot use log with
        armed := none, consumed := (Slot.slot use log).consumed ++ [request] } := by
  rw [List.append_cons, Slot.slot_append_of_none hserves.use_none, Slot.slot_snoc]
  exact Slot.after_take_of_some harmed

/-- A connection is accepted and served. -/
theorem Pairs.serves (h : Pairs loop copies log (some request) (connection :: waiting))
    (hserves : Serves request connection connfd loop copies es) :
    Pairs loop copies (log ++ .accept connection connfd :: es) none waiting := by
  -- the request and the connection are the last pair, and each list has one entry more
  have hslot := hserves.slot_eq h.armed_eq
  have haccepted : (log ++ .accept connection connfd :: es).filterMap accepted? =
      log.filterMap accepted? ++ [(connection, connfd)] := by
    rw [List.filterMap_append,
      List.filterMap_cons_some (f := accepted?) (b := (connection, connfd)) rfl, hserves.accepted]
  have hpairs : pairs (log ++ .accept connection connfd :: es) =
      pairs log ++ [(request, (connection, connfd))] := by
    rw [pairs, hslot, haccepted, List.zip_append h.paired]
    rfl
  refine ⟨?_, ?_, ?_, ?_, ?_, ?_, ?_⟩
  · rw [hslot]
  · rw [hslot]
    exact h.missed
  · rw [hslot, haccepted, List.length_append, List.length_append, h.paired]
    rfl
  · rw [hpairs, List.filterMap_append, List.filterMap_cons_none rfl, hserves.channels, h.channels,
      List.map_append]
    rfl
  · rw [hpairs, List.filterMap_append, List.filterMap_cons_none rfl, hserves.written, h.written,
      List.flatMap_append]
    exact congrArg _ (List.append_nil _).symm
  · rw [hslot, List.filterMap_append, List.filterMap_cons_none rfl, hserves.callbacks,
      h.callbacks, List.filterMap_append]
    cases hcb : request.cb_ with
    | none => simp [hcb]
    | some cb => simp [hcb]
  · rw [haccepted, List.filterMap_append, List.filterMap_cons_none rfl, hserves.arrived,
      List.append_nil, h.arrivals, List.map_append, List.append_assoc]
    rfl

/-- Events behind which nothing more is served. -/
theorem Serves.append_quiet {fs : List Event}
    (h : Serves request connection connfd loop copies es) (hquiet : ∀ e ∈ fs, Quiet e) :
    Serves request connection connfd loop copies (es ++ fs) where
  use_none := by
    intro e he
    rcases List.mem_append.mp he with he | he
    · exact h.use_none e he
    · exact (hquiet e he).1
  accepted := by rw [Traced.filterMap_append_of_none fun e he => (hquiet e he).2.1, h.accepted]
  arrived := by rw [Traced.filterMap_append_of_none fun e he => (hquiet e he).2.2.1, h.arrived]
  channels := by rw [Traced.filterMap_append_of_none fun e he => (hquiet e he).2.2.2.1, h.channels]
  written := by rw [Traced.filterMap_append_of_none fun e he => (hquiet e he).2.2.2.2.2, h.written]
  callbacks := by
    rw [Traced.filterMap_append_of_none fun e he => (hquiet e he).2.2.2.2.1, h.callbacks]

end Keeps

end Ndsl.Proofs.Acceptor
