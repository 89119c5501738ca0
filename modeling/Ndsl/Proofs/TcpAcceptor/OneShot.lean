import Ndsl.Net.TcpAcceptor
import Ndsl.Proofs.Acceptor.Pairs

/-!
# `Ndsl.Proofs.TcpAcceptor.OneShot`: one connection for each registration

`handleRead` accepts a connection only where it finds a registration, and clears `inUse_` before it
calls back, so a registration that the callback makes stays.

`oneShot_of_nonzero` says that connections and registrations come in pairs (`Pairs`). A registration
that is made while another one is there replaces it (`registration_replaced`).
-/

set_option autoImplicit false

namespace Ndsl.Proofs.TcpAcceptor

open Ndsl.Lib
open Ndsl.Net Ndsl.Net.Acceptor Ndsl.Net.TcpAcceptor
open Ndsl.Proofs.Acceptor

/-- The registration that is there. -/
def armed (s : TcpAcceptor) : Option Request :=
  if s.info.inUse_ then some s.info.toRequest else none

/-- Each connection that is accepted takes the registration that is there, and serves it. A
connection that waits is accepted for the registration that is there where `accept` succeeds with a
descriptor other than 0. -/
structure OneShot (loop : Nat) (log : List Event) (s : TcpAcceptor) : Prop where
  pairs : Pairs loop copies log (armed s) s.waiting
  served : ∀ request connection waiting connfd, armed s = some request →
    s.waiting = connection :: waiting → 0 < connfd → Answers loop copies request connection connfd
      armed TcpAcceptor.waiting waiting (s.step (.handleRead connfd))

/-- `accept` does not give the descriptor 0. -/
def Nonzero : Op → Prop
  | .handleRead connfd => connfd ≠ 0
  | _ => True

section Step
variable {loop : Nat} {log es : List Event} {s t : TcpAcceptor}

/-- The callback for tests changes nothing. -/
theorem runTest_yields (h : s.runTest.Yields es t) :
    (∀ e ∈ es, Quiet e) ∧ t.info = s.info ∧ t.waiting = s.waiting ∧ t.pLoop_ = s.pLoop_ := by
  unfold runTest at h
  cases hcb : s.cb_ with
  | some cb =>
      rw [hcb] at h
      obtain ⟨rfl, rfl⟩ := (Traced.tell_pure_yields ..).mp h
      exact ⟨quiet_testCallback cb, rfl, rfl, rfl⟩
  | none =>
      rw [hcb] at h
      obtain ⟨rfl, rfl⟩ := (Traced.tell_pure_yields ..).mp h
      exact ⟨quiet_returned _, rfl, rfl, rfl⟩

/-- The channel, the copies and the call of the callback. -/
theorem serves_events (request : Request) (connection : Connection) (connfd : Int) (loop : Nat) :
    Serves request connection connfd loop copies
      (.createChannel request.pCon_ connfd (request.loop_.getD loop) :: copies request connection ++
        (request.cb_.map (Event.callback · request.param_)).toList) := by
  obtain ⟨pCon, addr, addrlen, cb, param, loop?⟩ := request
  cases addr <;> cases addrlen <;> cases cb <;>
    refine ⟨fun e he => ?_, rfl, rfl, rfl, rfl, rfl⟩ <;>
    simp [copies] at he <;> rcases he with rfl | rfl | rfl | rfl <;> rfl

/-- `handleRead` serves the registration that it finds, and clears it. -/
theorem serve_yields {connection : Connection} {connfd : Int}
    (h : (s.serve connfd connection).Yields es t) :
    Serves s.info.toRequest connection connfd s.pLoop_ copies es ∧ armed t = none ∧
      t.waiting = s.waiting ∧ t.pLoop_ = s.pLoop_ := by
  have hserves := serves_events s.info.toRequest connection connfd s.pLoop_
  unfold serve at h
  rw [Traced.tell_bind_yields] at h
  obtain ⟨fs, h, rfl⟩ := h
  rw [Traced.tell_bind_yields] at h
  obtain ⟨gs, h, rfl⟩ := h
  cases hcb : s.info.cb_ with
  | some cb =>
      simp only [hcb] at h
      obtain ⟨rfl, rfl⟩ := (Traced.tell_pure_yields ..).mp h
      refine ⟨?_, rfl, rfl, rfl⟩
      rw [hcb] at hserves
      exact hserves
  | none =>
      simp only [hcb] at h
      obtain ⟨hquiet, hinfo, hwaiting, hloop⟩ := runTest_yields h
      refine ⟨?_, by rw [armed, hinfo]; rfl, hwaiting, hloop⟩
      rw [hcb] at hserves
      have happend := hserves.append_quiet hquiet
      simpa using happend

theorem exists_runTest (s : TcpAcceptor) : ∃ es t, s.runTest.Yields es t := by
  unfold runTest
  split
  · exact ⟨_, _, (Traced.tell_pure_yields ..).mpr ⟨rfl, rfl⟩⟩
  · exact ⟨_, _, (Traced.tell_pure_yields ..).mpr ⟨rfl, rfl⟩⟩

theorem exists_serve (connfd : Int) (connection : Connection) (s : TcpAcceptor) :
    ∃ es t, (s.serve connfd connection).Yields es t := by
  unfold serve
  dsimp only
  split
  · exact ⟨_, _, (Traced.tell_bind_yields ..).mpr ⟨_, (Traced.tell_bind_yields ..).mpr
      ⟨_, (Traced.tell_pure_yields ..).mpr ⟨rfl, rfl⟩, rfl⟩, rfl⟩⟩
  · obtain ⟨es, t, h⟩ := exists_runTest { s with info := { s.info with inUse_ := false } }
    exact ⟨_, t, (Traced.tell_bind_yields ..).mpr ⟨_, (Traced.tell_bind_yields ..).mpr
      ⟨es, h, rfl⟩, rfl⟩⟩

/-- The registration that is there is served with the connection that waits first. -/
theorem answers {request : Request} {connection : Connection} {waiting : List Connection}
    {connfd : Int} (harmed : armed s = some request) (hwaits : s.waiting = connection :: waiting)
    (hconnfd : 0 < connfd) : Answers s.pLoop_ copies request connection connfd armed
      TcpAcceptor.waiting waiting (s.step (.handleRead connfd)) := by
  unfold armed at harmed
  split at harmed
  · next hinUse =>
    obtain rfl := Option.some.inj harmed
    obtain ⟨es, t, hserve⟩ := exists_serve connfd connection { s with waiting := waiting }
    obtain ⟨hserves, hcleared, hwaiting, -⟩ := serve_yields hserve
    refine ⟨es, t, ?_, hserves, hcleared, hwaiting⟩
    change (s.handleRead connfd).Yields _ t
    unfold handleRead
    rw [if_pos hinUse]
    have hnonneg : ¬ connfd < 0 := by omega
    simp only [hwaits, decide_eq_false hnonneg]
    rw [if_pos hconnfd]
    exact (Traced.tell_bind_yields ..).mpr ⟨es, hserve, rfl⟩
  · exact absurd harmed.symm (Option.some_ne_none request)

/-- What every step keeps. -/
structure Inv (loop : Nat) (log : List Event) (s : TcpAcceptor) : Prop where
  pairs : Pairs loop copies log (armed s) s.waiting
  loop_eq : s.pLoop_ = loop

/-- Every step keeps the invariant. -/
theorem Inv.step {op : Op} (h : Inv loop log s) (hpossible : Possible s op) (hnonzero : Nonzero op)
    (hstep : (s.step op).Yields es t) : Inv loop (log ++ es) t := by
  obtain ⟨hone, rfl⟩ := h
  cases op with
  | arrives connection =>
      obtain ⟨rfl, rfl⟩ := (Traced.tell_pure_yields ..).mp hstep
      exact ⟨hone.arrives connection, rfl⟩
  | onAccept request =>
      obtain ⟨rfl, rfl⟩ := (Traced.tell_pure_yields ..).mp hstep
      exact ⟨hone.registers request, rfl⟩
  | handleRead connfd =>
      change (s.handleRead connfd).Yields es t at hstep
      unfold handleRead at hstep
      cases hinUse : s.info.inUse_ with
      | false =>
          -- without a request the acceptor does not accept, and the connection stays
          rw [hinUse, if_neg Bool.false_ne_true] at hstep
          obtain ⟨rfl, rfl⟩ := (Traced.tell_pure_yields ..).mp hstep
          exact ⟨hone.quiet (quiet_returned _), rfl⟩
      | true =>
          have harmed : armed s = some s.info.toRequest := by rw [armed, hinUse, if_pos rfl]
          rw [hinUse, if_pos rfl] at hstep
          cases hwaits : s.waiting with
          | nil =>
              -- `accept` finds no connection, and the request stays armed
              simp only [hwaits] at hstep
              obtain ⟨rfl, rfl⟩ := (Traced.tell_pure_yields ..).mp hstep
              exact ⟨hone.quiet (quiet_fails _), rfl⟩
          | cons connection waiting =>
              by_cases hneg : connfd < 0
              · simp only [hwaits, decide_eq_true hneg] at hstep
                obtain ⟨rfl, rfl⟩ := (Traced.tell_pure_yields ..).mp hstep
                exact ⟨hone.quiet (quiet_fails _), rfl⟩
              · -- a descriptor that is positive is what the function takes for success
                have hne : connfd ≠ 0 := hnonzero
                have hpos : connfd > 0 := by omega
                simp only [hwaits, decide_eq_false hneg] at hstep
                rw [if_pos hpos, Traced.tell_bind_yields] at hstep
                obtain ⟨fs, hserve, rfl⟩ := hstep
                obtain ⟨hserves, hcleared, hwaiting, hloop⟩ := serve_yields hserve
                refine ⟨?_, hloop⟩
                rw [harmed, hwaits] at hone
                rw [hcleared, hwaiting]
                exact hone.serves hserves
  | returns =>
      unfold TcpAcceptor.step at hstep
      cases hcall : s.call with
      | idle => exact absurd hcall hpossible
      | callback =>
          -- behind the callback of the user there is still the callback for tests
          simp only [hcall] at hstep
          obtain ⟨hquiet, hinfo, hwaiting, hloop⟩ := runTest_yields hstep
          refine ⟨?_, hloop⟩
          rw [armed, hinfo, hwaiting]
          exact hone.quiet hquiet
      | test =>
          simp only [hcall] at hstep
          obtain ⟨rfl, rfl⟩ := (Traced.tell_pure_yields ..).mp hstep
          exact ⟨hone.quiet (quiet_returned _), rfl⟩

end Step

/-- In every run each connection that is accepted takes the registration that is there and serves
it, and the call that finds a connection for the registration that is there serves it. A
registration has been taken, or replaced by another one that was made while it was there, or it is
there. -/
theorem oneShot_of_nonzero {loop : Nat} {cb : Option Nat} {ops : List Op} {log : List Event}
    {s : TcpAcceptor}
    (hrun : Traced.Run TcpAcceptor.step (fun s op => Possible s op ∧ Nonzero op)
      { pLoop_ := loop, cb_ := cb } ops log s) :
    OneShot loop log s ∧ (Slot.registered use log).Perm
      ((Slot.slot use log).consumed ++ (Slot.slot use log).replaced ++ (armed s).toList) := by
  have hstart : Inv loop [] ({ pLoop_ := loop, cb_ := cb } : TcpAcceptor) :=
    ⟨⟨rfl, rfl, rfl, rfl, rfl, rfl, rfl⟩, rfl⟩
  have hinv : Inv loop log s := hrun.invariant (P := fun _ log s => Inv loop log s) hstart
    fun _ _ _ _ _ _ h hok hstep => h.step hok.1 hok.2 hstep
  refine ⟨⟨hinv.pairs, fun request connection waiting connfd harmed hwaits hconnfd => ?_⟩, ?_⟩
  · rw [← hinv.loop_eq]
    exact answers harmed hwaits hconnfd
  · rw [← hinv.pairs.armed_eq]
    exact Slot.registered_perm log

/-- A registration that the callback makes serves the next connection. -/
theorem oneShot_of_nonzero_again : ∃ log s,
    Traced.Run TcpAcceptor.step (fun s op => Possible s op ∧ Nonzero op) { pLoop_ := 7 }
      [.onAccept { pCon_ := 1, cb_ := some 10 }, .arrives ⟨100, 16⟩, .arrives ⟨200, 16⟩,
        .handleRead 5, .onAccept { pCon_ := 2, loop_ := some 8 }, .returns, .handleRead 6] log s ∧
    log.filterMap channel? = [(1, 5, 7), (2, 6, 8)] ∧ OneShot 7 log s := by
  have hrun : ∃ log s,
      Traced.Run TcpAcceptor.step (fun s op => Possible s op ∧ Nonzero op) { pLoop_ := 7 }
        [.onAccept { pCon_ := 1, cb_ := some 10 }, .arrives ⟨100, 16⟩, .arrives ⟨200, 16⟩,
          .handleRead 5, .onAccept { pCon_ := 2, loop_ := some 8 }, .returns, .handleRead 6] log s ∧
      log.filterMap channel? = [(1, 5, 7), (2, 6, 8)] := by
    refine ⟨_, _, .snoc (.snoc (.snoc (.snoc (.snoc (.snoc (.snoc (l := []) .nil ?first ⟨rfl, rfl⟩)
      ?_ ⟨rfl, rfl⟩) ?_ ⟨rfl, rfl⟩) ?read ⟨rfl, rfl⟩) ?second ⟨rfl, rfl⟩) ?returns ⟨rfl, rfl⟩)
      ?again ⟨rfl, rfl⟩, rfl⟩
    case read => exact ⟨⟨rfl, fun _ _ => List.cons_ne_nil _ _⟩, show (5 : Int) ≠ 0 by decide⟩
    case again => exact ⟨⟨rfl, fun _ _ => List.cons_ne_nil _ _⟩, show (6 : Int) ≠ 0 by decide⟩
    case returns => exact ⟨Call.noConfusion, trivial⟩
    all_goals exact ⟨trivial, trivial⟩
  obtain ⟨log, s, hrun, hchannels⟩ := hrun
  exact ⟨log, s, hrun, hchannels, (oneShot_of_nonzero hrun).1⟩

/-- A second registration before a connection comes: the first one is not taken, and it is not there
any more. -/
theorem registration_replaced : ∃ log s, Traced.Run TcpAcceptor.step Possible { pLoop_ := 7 }
      [.onAccept { pCon_ := 1, cb_ := some 10 }, .onAccept { pCon_ := 2, cb_ := some 20 },
        .arrives ⟨100, 16⟩, .handleRead 5] log s ∧
    { pCon_ := 1, cb_ := some 10 } ∈ Slot.registered use log ∧
    (Slot.slot use log).consumed = [{ pCon_ := 2, cb_ := some 20 }] ∧ armed s = none ∧
    log.filterMap callback? = [(20, 0)] := by
  refine ⟨_, _, .snoc (.snoc (.snoc (.snoc (l := []) .nil trivial ⟨rfl, rfl⟩) trivial ⟨rfl, rfl⟩)
    trivial ⟨rfl, rfl⟩) ?read ⟨rfl, rfl⟩, ?_, rfl, rfl, rfl⟩
  case read => exact ⟨rfl, fun _ _ => List.cons_ne_nil _ _⟩
  exact List.mem_cons_self

end Ndsl.Proofs.TcpAcceptor
