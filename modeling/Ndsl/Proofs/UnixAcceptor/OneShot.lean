import Ndsl.Net.UnixAcceptor
import Ndsl.Proofs.Acceptor.Pairs

/-!
# `Ndsl.Proofs.UnixAcceptor.OneShot`: one connection for each registration

`handleRead` accepts a connection before it looks for a registration, and clears `inUse_` behind the
callback. So a connection without a registration is accepted and dropped
(`connection_dropped`), and a registration that the callback makes is cleared.

`oneShot_of_careful` says that connections and registrations come in pairs where no connection is
accepted while `inUse_` is false, and no registration is made while it is true.
-/

set_option autoImplicit false

namespace Ndsl.Proofs.UnixAcceptor

open Ndsl.Lib
open Ndsl.Net Ndsl.Net.Acceptor Ndsl.Net.UnixAcceptor
open Ndsl.Proofs.Acceptor

/-- The registration that is there. The one whose callback runs has been taken. -/
def armed (s : UnixAcceptor) : Option Request :=
  if s.info.inUse_ ∧ s.call ≠ .callback then some s.info.toRequest else none

/-- Each connection that is accepted takes the registration that is there and serves it, and no
registration is replaced. A connection that waits is accepted for the registration that is there
where `accept` and `fcntl` succeed. -/
structure OneShot (loop : Nat) (log : List Event) (s : UnixAcceptor) : Prop where
  pairs : Pairs loop (fun _ _ => []) log (armed s) s.waiting
  registered : Slot.registered use log = (Slot.slot use log).consumed ++ (armed s).toList
  served : ∀ request connection waiting (results : Results), armed s = some request →
    s.waiting = connection :: waiting → 0 ≤ results.accept → 0 ≤ results.getfl →
      0 ≤ results.setfl → Answers loop (fun _ _ => []) request connection results.accept armed
        UnixAcceptor.waiting waiting (s.step (.handleRead results))

/-- A connection is accepted for a registration, and `fcntl` succeeds. A registration is made while
`inUse_` is false. -/
def Careful (s : UnixAcceptor) : Op → Prop
  | .onAccept _ => s.info.inUse_ = false
  | .handleRead results => 0 ≤ results.accept →
      s.info.inUse_ = true ∧ 0 ≤ results.getfl ∧ 0 ≤ results.setfl
  | _ => True

section Step
variable {loop : Nat} {log es : List Event} {s t : UnixAcceptor}

/-- What every careful step keeps. -/
structure Inv (loop : Nat) (log : List Event) (s : UnixAcceptor) : Prop where
  pairs : Pairs loop (fun _ _ => []) log (armed s) s.waiting
  replaced : (Slot.slot use log).replaced = []
  loop_eq : s.pLoop_ = loop
  loop_none : s.info.loop_ = none
  /-- The flag is cleared behind the callback only. -/
  inUse : s.call = .callback → s.info.inUse_ = true

/-- Nothing that matters has happened. -/
theorem Inv.quiet (h : Inv loop log s) (hquiet : ∀ e ∈ es, Quiet e) (harmed : armed t = armed s)
    (hwaiting : t.waiting = s.waiting) (hloop : t.pLoop_ = s.pLoop_)
    (hnone : t.info.loop_ = s.info.loop_) (hcall : t.call ≠ .callback) :
    Inv loop (log ++ es) t where
  pairs := by rw [harmed, hwaiting]; exact h.pairs.quiet hquiet
  replaced := by
    rw [Slot.slot_append_of_none fun e he => (hquiet e he).1]
    exact h.replaced
  loop_eq := hloop.trans h.loop_eq
  loop_none := hnone.trans h.loop_none
  inUse := fun hcallback => absurd hcallback hcall

/-- The callback for tests changes nothing. -/
theorem runTest_yields (h : s.runTest.Yields es t) :
    (∀ e ∈ es, Quiet e) ∧ t.info = s.info ∧ t.waiting = s.waiting ∧ t.pLoop_ = s.pLoop_ ∧
      t.call ≠ .callback := by
  unfold runTest at h
  cases hcb : s.cb_ with
  | some cb =>
      rw [hcb] at h
      obtain ⟨rfl, rfl⟩ := (Traced.tell_pure_yields ..).mp h
      exact ⟨quiet_testCallback cb, rfl, rfl, rfl, Call.noConfusion⟩
  | none =>
      rw [hcb] at h
      obtain ⟨rfl, rfl⟩ := (Traced.tell_pure_yields ..).mp h
      exact ⟨quiet_returned _, rfl, rfl, rfl, Call.noConfusion⟩

theorem armed_of_not_inUse (h : s.info.inUse_ = false) : armed s = none := by
  rw [armed, h]
  exact if_neg fun hand => Bool.false_ne_true hand.1

/-- The channel and the call of the callback. -/
theorem serves_events (request : Request) (connection : Connection) (connfd : Int) (loop : Nat)
    (hnone : request.loop_ = none) :
    Serves request connection connfd loop (fun _ _ => [])
      (.createChannel request.pCon_ connfd loop ::
        (request.cb_.map (Event.callback · request.param_)).toList) := by
  have hloop : request.loop_.getD loop = loop := by rw [hnone]; rfl
  cases hcb : request.cb_ with
  | none =>
      refine ⟨fun e he => ?_, rfl, rfl, by rw [hloop]; rfl, rfl, by rw [hcb]; rfl⟩
      rw [List.mem_singleton.mp he]
      rfl
  | some cb =>
      refine ⟨fun e he => ?_, rfl, rfl, by rw [hloop]; rfl, rfl, by rw [hcb]; rfl⟩
      rcases List.mem_pair.mp he with rfl | rfl <;> rfl

/-- `handleRead` serves the registration that it finds. -/
theorem serve_yields (connection : Connection) {connfd : Int} (hinUse : s.info.inUse_ = true)
    (hnone : s.info.loop_ = none) (h : (s.serve connfd).Yields es t) :
    Serves s.info.toRequest connection connfd s.pLoop_ (fun _ _ => []) es ∧ armed t = none ∧
      t.waiting = s.waiting ∧ t.pLoop_ = s.pLoop_ ∧ t.info.loop_ = none ∧
      (t.call = .callback → t.info.inUse_ = true) := by
  have hserves := serves_events s.info.toRequest connection connfd s.pLoop_ hnone
  unfold serve at h
  rw [if_pos hinUse, Traced.tell_bind_yields] at h
  obtain ⟨fs, h, rfl⟩ := h
  cases hcb : s.info.cb_ with
  | some cb =>
      simp only [hcb] at h
      obtain ⟨rfl, rfl⟩ := (Traced.tell_pure_yields ..).mp h
      rw [hcb] at hserves
      exact ⟨hserves, if_neg fun hand => hand.2 rfl, rfl, rfl, hnone, fun _ => hinUse⟩
  | none =>
      simp only [hcb] at h
      obtain ⟨hquiet, hinfo, hwaiting, hloop, hcall⟩ := runTest_yields h
      rw [hcb] at hserves
      refine ⟨hserves.append_quiet hquiet, armed_of_not_inUse (by rw [hinfo]; rfl), hwaiting, hloop,
        by rw [hinfo]; exact hnone, fun hcallback => absurd hcallback hcall⟩

theorem exists_runTest (s : UnixAcceptor) : ∃ es t, s.runTest.Yields es t := by
  unfold runTest
  split
  · exact ⟨_, _, (Traced.tell_pure_yields ..).mpr ⟨rfl, rfl⟩⟩
  · exact ⟨_, _, (Traced.tell_pure_yields ..).mpr ⟨rfl, rfl⟩⟩

theorem exists_serve (connfd : Int) (s : UnixAcceptor) :
    ∃ es t, (s.serve connfd).Yields es t := by
  unfold serve
  split
  · split
    · exact ⟨_, _, (Traced.tell_bind_yields ..).mpr
        ⟨_, (Traced.tell_pure_yields ..).mpr ⟨rfl, rfl⟩, rfl⟩⟩
    · obtain ⟨es, t, h⟩ := exists_runTest s.clear
      exact ⟨_, t, (Traced.tell_bind_yields ..).mpr ⟨es, h, rfl⟩⟩
  · exact exists_runTest s

/-- The registration that is there is served with the connection that waits first. -/
theorem Inv.answers (h : Inv loop log s) {request : Request} {connection : Connection}
    {waiting : List Connection} {results : Results} (harmed : armed s = some request)
    (hwaits : s.waiting = connection :: waiting) (haccept : 0 ≤ results.accept)
    (hgetfl : 0 ≤ results.getfl) (hsetfl : 0 ≤ results.setfl) :
    Answers loop (fun _ _ => []) request connection results.accept armed UnixAcceptor.waiting
      waiting (s.step (.handleRead results)) := by
  have hinUse : s.info.inUse_ = true := by
    by_contra hnot
    rw [armed_of_not_inUse (Bool.not_eq_true _ ▸ hnot)] at harmed
    exact absurd harmed.symm (Option.some_ne_none request)
  have hrequest : s.info.toRequest = request := by
    unfold armed at harmed
    split at harmed
    · exact Option.some.inj harmed
    · exact absurd harmed.symm (Option.some_ne_none request)
  obtain ⟨es, t, hserve⟩ := exists_serve results.accept { s with waiting := waiting }
  obtain ⟨hserves, hcleared, hwaiting, -⟩ :=
    serve_yields (s := { s with waiting := waiting }) connection hinUse h.loop_none hserve
  refine ⟨es, t, ?_, hrequest ▸ h.loop_eq ▸ hserves, hcleared, hwaiting⟩
  change (s.handleRead results).Yields _ t
  unfold handleRead
  simp only [hwaits, decide_eq_false (Int.not_lt.mpr haccept)]
  rw [if_neg (Int.not_lt.mpr hgetfl), if_neg (Int.not_lt.mpr hsetfl)]
  exact (Traced.tell_bind_yields ..).mpr ⟨es, hserve, rfl⟩

/-- Every careful step keeps the invariant. -/
theorem Inv.step {op : Op} (h : Inv loop log s) (hpossible : Possible s op)
    (hcareful : Careful s op) (hstep : (s.step op).Yields es t) : Inv loop (log ++ es) t := by
  have hpairs := h.pairs
  cases op with
  | arrives connection =>
      obtain ⟨rfl, rfl⟩ := (Traced.tell_pure_yields ..).mp hstep
      refine ⟨hpairs.arrives connection, ?_, h.loop_eq, h.loop_none, h.inUse⟩
      rw [Slot.slot_snoc]
      exact h.replaced
  | onAccept request =>
      obtain ⟨rfl, rfl⟩ := (Traced.tell_pure_yields ..).mp hstep
      -- the flag is true as long as a callback runs
      have hcall : s.call ≠ .callback :=
        fun hcallback => Bool.false_ne_true (hcareful.symm.trans (h.inUse hcallback))
      have hnone : (Slot.slot use log).armed = none :=
        hpairs.armed_eq.trans (armed_of_not_inUse hcareful)
      have harmed : armed (s.onAccept request).2 = some { request with loop_ := none } :=
        if_pos ⟨rfl, hcall⟩
      refine ⟨?_, ?_, h.loop_eq, rfl, fun _ => rfl⟩
      · rw [harmed]
        exact hpairs.registers _
      · rw [Slot.slot_snoc]
        show ((Slot.slot use log).after (some (.put _))).replaced = []
        rw [Slot.after_put_of_none hnone]
        exact h.replaced
  | handleRead results =>
      obtain ⟨hidle, -⟩ := hpossible
      have hidle' : s.call ≠ .callback := by rw [hidle]; exact Call.noConfusion
      change (s.handleRead results).Yields es t at hstep
      unfold handleRead at hstep
      cases hwaits : s.waiting with
      | nil =>
          -- nothing waits, and the request stays
          simp only [hwaits] at hstep
          obtain ⟨rfl, rfl⟩ := (Traced.tell_pure_yields ..).mp hstep
          exact h.quiet (quiet_fails _) rfl rfl rfl rfl hidle'
      | cons connection waiting =>
          by_cases hneg : results.accept < 0
          · -- a failed `accept` leaves the request and the connection
            simp only [hwaits, decide_eq_true hneg] at hstep
            obtain ⟨rfl, rfl⟩ := (Traced.tell_pure_yields ..).mp hstep
            exact h.quiet (quiet_fails _) rfl rfl rfl rfl hidle'
          · -- the flags of the descriptor can be read and set, so the request is served
            obtain ⟨hinUse, hgetfl, hsetfl⟩ := hcareful (Int.not_lt.mp hneg)
            simp only [hwaits, decide_eq_false hneg] at hstep
            rw [if_neg (Int.not_lt.mpr hgetfl), if_neg (Int.not_lt.mpr hsetfl),
              Traced.tell_bind_yields] at hstep
            obtain ⟨fs, hserve, rfl⟩ := hstep
            obtain ⟨hserves, hcleared, hwaiting, hloop, hnone, hcallback⟩ :=
              serve_yields (s := { s with waiting := waiting }) connection hinUse h.loop_none hserve
            have harmed : armed s = some s.info.toRequest := if_pos ⟨hinUse, hidle'⟩
            rw [harmed, hwaits] at hpairs
            rw [show ({ s with waiting := waiting } : UnixAcceptor).pLoop_ = loop from h.loop_eq]
              at hserves
            refine ⟨?_, ?_, hloop.trans h.loop_eq, hnone, hcallback⟩
            · rw [hcleared, hwaiting]
              exact hpairs.serves hserves
            · rw [List.singleton_append, hserves.slot_eq hpairs.armed_eq]
              exact h.replaced
  | returns =>
      unfold UnixAcceptor.step at hstep
      cases hcall : s.call with
      | idle => exact absurd hcall hpossible
      | callback =>
          simp only [hcall] at hstep
          obtain ⟨hquiet, hinfo, hwaiting, hloop, hcall'⟩ := runTest_yields hstep
          -- while the callback runs no request is armed, and none is behind it
          have harmed : armed s = none := if_neg fun hand => hand.2 hcall
          refine h.quiet hquiet ?_ hwaiting hloop (by rw [hinfo]; rfl) hcall'
          rw [harmed]
          exact armed_of_not_inUse (by rw [hinfo]; rfl)
      | test =>
          simp only [hcall] at hstep
          obtain ⟨rfl, rfl⟩ := (Traced.tell_pure_yields ..).mp hstep
          refine h.quiet (quiet_returned _) ?_ rfl rfl rfl Call.noConfusion
          rw [armed, armed, hcall]
          simp

end Step

/-- In a run whose steps are all careful, each connection that is accepted takes the registration
that is there and serves it, each registration has been taken by one connection or is there, and
the one that is there is served by the call that finds a connection for it. -/
theorem oneShot_of_careful {loop : Nat} {cb : Option Nat} {ops : List Op} {log : List Event}
    {s : UnixAcceptor}
    (hrun : Traced.Run UnixAcceptor.step (fun s op => Possible s op ∧ Careful s op)
      { pLoop_ := loop, cb_ := cb } ops log s) : OneShot loop log s := by
  have hstart : Inv loop [] ({ pLoop_ := loop, cb_ := cb } : UnixAcceptor) :=
    ⟨⟨rfl, rfl, rfl, rfl, rfl, rfl, rfl⟩, rfl, rfl, rfl, Call.noConfusion⟩
  have hinv : Inv loop log s := hrun.invariant (P := fun _ log s => Inv loop log s) hstart
    fun _ _ _ _ _ _ h hok hstep => h.step hok.1 hok.2 hstep
  refine ⟨hinv.pairs, ?_, fun request connection waiting results => hinv.answers⟩
  rw [← hinv.pairs.armed_eq]
  exact Slot.registered_eq hinv.replaced

/-- Two registrations, the second one behind the callback of the first. -/
theorem oneShot_of_careful_two : ∃ log s,
    Traced.Run UnixAcceptor.step (fun s op => Possible s op ∧ Careful s op) { pLoop_ := 7 }
      [.onAccept { pCon_ := 1, cb_ := some 10 }, .arrives ⟨100, 2⟩, .handleRead { accept := 5 },
        .returns, .onAccept { pCon_ := 2 }, .arrives ⟨200, 2⟩, .handleRead { accept := 6 }] log s ∧
    log.filterMap channel? = [(1, 5, 7), (2, 6, 7)] ∧ OneShot 7 log s := by
  have hrun : ∃ log s,
      Traced.Run UnixAcceptor.step (fun s op => Possible s op ∧ Careful s op) { pLoop_ := 7 }
        [.onAccept { pCon_ := 1, cb_ := some 10 }, .arrives ⟨100, 2⟩, .handleRead { accept := 5 },
          .returns, .onAccept { pCon_ := 2 }, .arrives ⟨200, 2⟩,
          .handleRead { accept := 6 }] log s ∧
      log.filterMap channel? = [(1, 5, 7), (2, 6, 7)] := by
    have hsucceeds : (0 : Int) ≤ 0 := by decide
    refine ⟨_, _, .snoc (.snoc (.snoc (.snoc (.snoc (.snoc (.snoc (l := []) .nil ?first ⟨rfl, rfl⟩)
      ?_ ⟨rfl, rfl⟩) ?read ⟨rfl, rfl⟩) ?returns ⟨rfl, rfl⟩) ?second ⟨rfl, rfl⟩) ?_ ⟨rfl, rfl⟩)
      ?again ⟨rfl, rfl⟩, rfl⟩
    case first => exact ⟨trivial, rfl⟩
    case second => exact ⟨trivial, rfl⟩
    case read => exact ⟨⟨rfl, fun _ => List.cons_ne_nil _ _⟩, fun _ => ⟨rfl, hsucceeds, hsucceeds⟩⟩
    case again =>
      exact ⟨⟨rfl, fun _ => List.cons_ne_nil _ _⟩, fun _ => ⟨rfl, hsucceeds, hsucceeds⟩⟩
    case returns => exact ⟨Call.noConfusion, trivial⟩
    all_goals exact ⟨trivial, trivial⟩
  obtain ⟨log, s, hrun, hchannels⟩ := hrun
  exact ⟨log, s, hrun, hchannels, oneShot_of_careful hrun⟩

/-- The callback registers for the next connection. Its registration is cleared behind it, and the
next connection is accepted and dropped. -/
theorem connection_dropped : ∃ log s, Traced.Run UnixAcceptor.step Possible { pLoop_ := 7 }
      [.onAccept { pCon_ := 1, cb_ := some 10 }, .arrives ⟨100, 2⟩, .handleRead { accept := 5 },
        .onAccept { pCon_ := 2, cb_ := some 10 }, .returns, .arrives ⟨200, 2⟩,
        .handleRead { accept := 6 }] log s ∧
    log.filterMap accepted? = [(⟨100, 2⟩, 5), (⟨200, 2⟩, 6)] ∧
    log.filterMap channel? = [(1, 5, 7)] ∧ armed s = none ∧ ¬ OneShot 7 log s := by
  have hrun : ∃ log s, Traced.Run UnixAcceptor.step Possible { pLoop_ := 7 }
        [.onAccept { pCon_ := 1, cb_ := some 10 }, .arrives ⟨100, 2⟩, .handleRead { accept := 5 },
          .onAccept { pCon_ := 2, cb_ := some 10 }, .returns, .arrives ⟨200, 2⟩,
          .handleRead { accept := 6 }] log s ∧
      log.filterMap accepted? = [(⟨100, 2⟩, 5), (⟨200, 2⟩, 6)] ∧
      log.filterMap channel? = [(1, 5, 7)] ∧ armed s = none ∧ (pairs log).length = 2 := by
    refine ⟨_, _, .snoc (.snoc (.snoc (.snoc (.snoc (.snoc (.snoc (l := []) .nil trivial ⟨rfl, rfl⟩)
      trivial ⟨rfl, rfl⟩) ?read ⟨rfl, rfl⟩) trivial ⟨rfl, rfl⟩) Call.noConfusion ⟨rfl, rfl⟩)
      trivial ⟨rfl, rfl⟩) ?again ⟨rfl, rfl⟩, rfl, rfl, rfl, rfl⟩
    case read => exact ⟨rfl, fun _ => List.cons_ne_nil _ _⟩
    case again => exact ⟨rfl, fun _ => List.cons_ne_nil _ _⟩
  obtain ⟨log, s, hrun, haccepted, hchannels, harmed, htwo⟩ := hrun
  refine ⟨log, s, hrun, haccepted, hchannels, harmed, fun hone => ?_⟩
  -- the second connection has no channel
  have hlength := congrArg List.length hone.pairs.channels
  rw [hchannels, List.length_map, htwo] at hlength
  exact absurd hlength (by decide)

end Ndsl.Proofs.UnixAcceptor
