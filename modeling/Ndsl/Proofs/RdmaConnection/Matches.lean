import Ndsl.Proofs.RdmaConnection.Called

/-!
# `Ndsl.Proofs.RdmaConnection.Matches`: the completions that are polled

`pollIncomingData` puts the completions of `ibv_poll_cq` that were successful into a list, and the
loop of `handleSend` or `handleRecv` comes to them in order. `Matches` says so, on top of `Called`,
which says what the loop does at each of them.

`matches_iff_careful` says that completions and requests match as long as the queue is not empty at
a completion, and no handler on the buffer waits at the completion of an atomic operation, and that
the next step is right only then. What happens otherwise is shown by `front_of_empty`.
-/

set_option autoImplicit false

namespace Ndsl.Proofs.RdmaConnection

open Ndsl.Lib
open Ndsl.Net Ndsl.Net.RdmaConnection

/-! ### What a log says -/

/-- The successful completion that `ibv_poll_cq` gives. -/
def polled? (queue : Queue) : Event → Option Wc
  | .polled q wc => if q = queue ∧ wc.status = 0 then some wc else none
  | _ => none

/-- The completion that the loop comes to. -/
def completed? (queue : Queue) : Event → Option Wc
  | .completion q wc => if q = queue then some wc else none
  | _ => none

/-- The completions that the loop has still to come to. -/
def left (s : RdmaConnection) (queue : Queue) : List Wc :=
  match s.place with
  | .loop q dataList => if q = queue then dataList else []
  | .callback q _ dataList => if q = queue then dataList else []
  | _ => []

/-- The completion that is reported, when it was successful. -/
def successful? : Poll → Option Wc
  | .wc wc => if wc.status = 0 then some wc else none
  | .interrupted => none

/-- The call of the event loop for a queue. -/
def handles : Queue → Polled → Op
  | .send, polled => .handleSend polled
  | .recv, polled => .handleRecv polled

/-- The loop has come to the successful completions that were polled, in order, up to those that are
left, and each of them has served its request. Where a handler is in the queue, a call polls all
that is reported, and the loop goes on with the completion that is left first. -/
structure Matches (log : List Event) (s : RdmaConnection) : Prop extends Called log s where
  polled : ∀ queue,
    log.filterMap (polled? queue) = log.filterMap (completed? queue) ++ left s queue
  polls : ∀ queue (polled : Polled), s.handlers queue ≠ [] → 0 ≤ polled.getCqEvent →
    polled.reqNotify = 0 → ∃ es t, (s.step (handles queue polled)).Yields es t ∧
      es.filterMap (polled? queue) = polled.polls.filterMap successful?
  completes : ∀ queue wc dataList, s.place = .loop queue (wc :: dataList) →
    ∃ es t, (s.step .next).Yields (.completion queue wc :: es) t

/-! ### Steps that come to no completion -/

/-- The event tells of no completion that is polled, or that the loop comes to. -/
def Aside (e : Event) : Prop := ∀ queue, polled? queue e = none ∧ completed? queue e = none

theorem aside_singleton {e : Event}
    (h : ∀ queue, polled? queue e = none ∧ completed? queue e = none) : ∀ e' ∈ [e], Aside e' :=
  List.forall_mem_singleton.mpr h

section Steps
variable {s t : RdmaConnection} {log es : List Event}

@[simp] theorem place_setHandlers (l : List SaveInfo) (queue : Queue) :
    (s.setHandlers l queue).place = s.place := by
  cases queue <;> rfl

theorem left_congr (h : t.place = s.place) : left t = left s := by
  funext queue
  rw [left, left, h]

theorem left_loop {queue : Queue} {dataList : List Wc} (h : t.place = .loop queue dataList)
    (q : Queue) : left t q = if queue = q then dataList else [] := by
  rw [left, h]

theorem left_callback {queue : Queue} {info : SaveInfo} {dataList : List Wc}
    (h : t.place = .callback queue info dataList) (q : Queue) :
    left t q = if queue = q then dataList else [] := by
  rw [left, h]

theorem postWr_aside {buf : Nat} {wr : Mr → Wr} {ret : Int} {message : String}
    {handler : Option (Queue × SaveInfo)} :
    (call (s.postWr buf wr ret message handler)).Ensures Aside fun t => t.place = s.place := by
  have hpost : (s.postWr buf wr ret message handler).Ensures Aside
      fun r => r.2.place = s.place := by
    unfold postWr
    split
    · exact .tell_bind (aside_singleton fun _ => ⟨rfl, rfl⟩) (.pure rfl)
    refine .tell_bind (aside_singleton fun _ => ⟨rfl, rfl⟩) ?_
    split
    · exact .tell_bind (aside_singleton fun _ => ⟨rfl, rfl⟩) (.pure rfl)
    split
    · exact .pure rfl
    · exact .tell_bind (aside_singleton fun _ => ⟨rfl, rfl⟩) (.pure (place_setHandlers ..))
  exact hpost.bind fun r hr => .tell_bind (aside_singleton fun _ => ⟨rfl, rfl⟩) (.pure hr)

theorem registerMemory_aside {addr len : Nat} {atomic : Bool} {region : Option Mr} :
    (s.registerMemory addr len atomic region).Ensures Aside fun r => r.2.place = s.place := by
  unfold registerMemory
  split
  · exact .pure rfl
  split
  · exact .tell_bind (aside_singleton fun _ => ⟨rfl, rfl⟩) (.pure rfl)
  refine .tell_bind (aside_singleton fun _ => ⟨rfl, rfl⟩) ?_
  split
  · exact .tell_bind (aside_singleton fun _ => ⟨rfl, rfl⟩) (.pure rfl)
  · exact .pure rfl

theorem deregisterMemory_aside {addr : Nat} {ret : Int} :
    (s.deregisterMemory addr ret).Ensures Aside fun r => r.2.place = s.place := by
  unfold deregisterMemory
  split
  · exact .pure rfl
  refine .tell_bind (aside_singleton fun _ => ⟨rfl, rfl⟩) ?_
  split
  · exact .tell_bind (aside_singleton fun _ => ⟨rfl, rfl⟩) (.pure rfl)
  · exact .pure rfl

theorem finish_aside {queue : Queue} {comp : SaveInfo} {dataList : List Wc} :
    (s.finish queue comp dataList).Ensures Aside
      fun t => ∀ q, left t q = if queue = q then dataList else [] := by
  unfold finish
  split
  · exact .tell_bind (aside_singleton fun _ => ⟨rfl, rfl⟩) (.pure (left_callback rfl))
  · exact .tell_bind (aside_singleton fun _ => ⟨rfl, rfl⟩) (.pure (left_loop rfl))

/-- What is polled and what is left are kept apart by a step that is about neither. -/
theorem polled_append (h : ∀ queue, log.filterMap (polled? queue) =
      log.filterMap (completed? queue) ++ left s queue)
    (hes : ∀ e ∈ es, Aside e) (hleft : left t = left s) (queue : Queue) :
    (log ++ es).filterMap (polled? queue) =
      (log ++ es).filterMap (completed? queue) ++ left t queue := by
  rw [Traced.filterMap_append_of_none fun e he => (hes e he queue).1,
    Traced.filterMap_append_of_none fun e he => (hes e he queue).2, hleft]
  exact h queue

/-! ### Polling -/

/-- The loop of `pollIncomingData` polls all that is reported, and keeps what was successful. -/
theorem pollCq_yields (channel : Queue) (polls : List Poll) :
    ∃ es, (pollCq channel polls).Yields es (polls.filterMap successful?) ∧
      ∀ q, es.filterMap (polled? q) =
          (if channel = q then polls.filterMap successful? else []) ∧
        es.filterMap (completed? q) = [] := by
  induction polls with
  | nil => exact ⟨[], (Traced.pure_yields ..).mpr ⟨rfl, rfl⟩, fun q => ⟨(ite_self _).symm, rfl⟩⟩
  | cons poll polls ih =>
      obtain ⟨es, hyields, hes⟩ := ih
      cases poll with
      | interrupted => exact ⟨es, hyields, hes⟩
      | wc wc =>
          by_cases hstatus : wc.status = 0
          · -- the completion goes to the list
            have hkept : successful? (.wc wc) = some wc := if_pos hstatus
            refine ⟨.polled channel wc :: es, ?_, fun q => ⟨?_, (hes q).2⟩⟩
            · refine (Traced.tell_bind_yields ..).mpr ⟨es, ?_, rfl⟩
              rw [if_neg (not_not_intro hstatus), List.filterMap_cons_some hkept]
              refine Traced.bind_yields.mpr ⟨es, _, [], hyields, ?_, (List.append_nil _).symm⟩
              exact (Traced.pure_yields ..).mpr ⟨rfl, rfl⟩
            · rw [List.filterMap_cons_some hkept]
              by_cases hq : channel = q
              · have hsome : polled? q (.polled channel wc) = some wc := if_pos ⟨hq, hstatus⟩
                rw [List.filterMap_cons_some hsome, (hes q).1, if_pos hq, if_pos hq]
              · have hnone : polled? q (.polled channel wc) = none := if_neg fun hand => hq hand.1
                rw [List.filterMap_cons_none hnone, (hes q).1, if_neg hq, if_neg hq]
          · have hdropped : successful? (.wc wc) = none := if_neg hstatus
            refine ⟨.polled channel wc :: .failed wc :: es, ?_, fun q => ⟨?_, (hes q).2⟩⟩
            · refine (Traced.tell_bind_yields ..).mpr ⟨.failed wc :: es, ?_, rfl⟩
              rw [if_pos hstatus, List.filterMap_cons_none hdropped]
              exact (Traced.tell_bind_yields ..).mpr ⟨es, hyields, rfl⟩
            · have hnone : polled? q (.polled channel wc) = none :=
                if_neg fun hand => hstatus hand.2
              rw [List.filterMap_cons_none hnone, List.filterMap_cons_none rfl,
                List.filterMap_cons_none hdropped]
              exact (hes q).1

/-- The list that `pollIncomingData` gives. -/
def received (polled : Polled) : List Wc :=
  if polled.getCqEvent < 0 ∨ polled.reqNotify ≠ 0 then []
  else polled.polls.filterMap successful?

theorem pollIncomingData_yields (channel : Queue) (polled : Polled) :
    ∃ es ret, (pollIncomingData channel polled).Yields es (ret, received polled) ∧
      ∀ q, es.filterMap (polled? q) = (if channel = q then received polled else []) ∧
        es.filterMap (completed? q) = [] := by
  -- a call that fails gives an empty list
  have hfails : ∀ message, received polled = [] →
      (Traced.tell [.log message] >>= fun _ => pure (S_FALSE, [])).Yields
          [Event.log message] (S_FALSE, received polled) ∧
        ∀ q, [Event.log message].filterMap (polled? q) =
            (if channel = q then received polled else []) ∧
          [Event.log message].filterMap (completed? q) = [] := by
    intro message hnil
    rw [hnil]
    exact ⟨(Traced.tell_pure_yields ..).mpr ⟨rfl, rfl⟩, fun q => ⟨(ite_self _).symm, rfl⟩⟩
  unfold pollIncomingData
  split
  · next hget => exact ⟨_, _, hfails _ (if_pos (.inl hget))⟩
  split
  · next hnotify => exact ⟨_, _, hfails _ (if_pos (.inr hnotify))⟩
  next hget hnotify =>
  have hreceived : received polled = polled.polls.filterMap successful? :=
    if_neg fun hor => hor.elim hget hnotify
  obtain ⟨es, hyields, hes⟩ := pollCq_yields channel polled.polls
  let errors : List Event := if polled.last < 0 then [.log "ibv poll cq error."] else []
  have herrors : ∀ q, errors.filterMap (polled? q) = [] ∧ errors.filterMap (completed? q) = [] := by
    intro q
    by_cases hlast : polled.last < 0 <;> simp [errors, hlast, polled?, completed?]
  rw [hreceived]
  refine ⟨es ++ (errors ++ [.ackCqEvents]), S_OK, ?_, fun q => ?_⟩
  · refine Traced.bind_yields.mpr ⟨_, _, _, hyields, ?_, rfl⟩
    refine (Traced.tell_bind_yields ..).mpr ⟨_, ?_, rfl⟩
    exact (Traced.tell_pure_yields ..).mpr ⟨rfl, rfl⟩
  · rw [List.filterMap_append, List.filterMap_append, List.filterMap_append,
      List.filterMap_append, (herrors q).1, (herrors q).2, (hes q).1, (hes q).2]
    exact ⟨List.append_nil _, rfl⟩

/-- A call that finds a handler in its queue has the completions that were polled in front of it. -/
theorem handle_yields {queue : Queue} (polled : Polled) (hne : s.handlers queue ≠ []) :
    ∃ es, (s.handle queue polled).Yields es { s with place := .loop queue (received polled) } ∧
      ∀ q, es.filterMap (polled? q) = (if queue = q then received polled else []) ∧
        es.filterMap (completed? q) = [] := by
  obtain ⟨es, ret, hyields, hes⟩ := pollIncomingData_yields queue polled
  refine ⟨es, ?_, hes⟩
  unfold handle
  rw [if_neg hne]
  refine Traced.bind_yields.mpr ⟨es, _, [], hyields, ?_, (List.append_nil _).symm⟩
  exact (Traced.pure_yields ..).mpr ⟨rfl, rfl⟩

theorem step_handles (queue : Queue) (polled : Polled) :
    s.step (handles queue polled) = s.handle queue polled := by
  cases queue <;> rfl

/-- A call polls what is reported. -/
theorem polls_of_handlers {queue : Queue} {polled : Polled} (hne : s.handlers queue ≠ [])
    (hget : 0 ≤ polled.getCqEvent) (hnotify : polled.reqNotify = 0) :
    ∃ es t, (s.step (handles queue polled)).Yields es t ∧
      es.filterMap (polled? queue) = polled.polls.filterMap successful? := by
  obtain ⟨es, hyields, hes⟩ := handle_yields polled hne
  refine ⟨es, _, (step_handles queue polled).symm ▸ hyields, ?_⟩
  rw [(hes queue).1, if_pos rfl, received, if_neg]
  exact fun hor => hor.elim (Int.not_lt.mpr hget) fun hnot => hnot hnotify

/-- The loop comes to the completion that is left first. -/
theorem completes_of_loop {queue : Queue} {wc : Wc} {dataList : List Wc}
    (hplace : s.place = .loop queue (wc :: dataList)) :
    ∃ es t, (s.step .next).Yields (.completion queue wc :: es) t := by
  have hstep : s.step .next = s.complete queue wc dataList := by
    show s.next = _
    rw [RdmaConnection.next, hplace]
  rw [hstep]
  have hfinish : ∀ (u : RdmaConnection) comp,
      ∃ es t, (u.finish queue comp dataList).Yields es t := by
    intro u comp
    unfold finish
    split
    · exact ⟨_, _, (Traced.tell_pure_yields ..).mpr ⟨rfl, rfl⟩⟩
    · exact ⟨_, _, (Traced.tell_pure_yields ..).mpr ⟨rfl, rfl⟩⟩
  by_cases hempty : s.handlers queue = []
  · refine ⟨[.frontOfEmpty queue], { s with place := .undefined }, ?_⟩
    refine (Traced.tell_bind_yields ..).mpr ⟨[.frontOfEmpty queue], ?_, rfl⟩
    rw [hempty]
    exact (Traced.tell_pure_yields ..).mpr ⟨rfl, rfl⟩
  · rw [complete_eq hempty]
    cases hfind : (s.handlers queue).find? (ofId wc.wr_id) with
    | none =>
        exact ⟨_, _, (Traced.tell_bind_yields ..).mpr ⟨_,
          (Traced.tell_pure_yields ..).mpr ⟨rfl, rfl⟩, rfl⟩⟩
    | some comp =>
        obtain ⟨es, t, hyields⟩ := hfinish _ comp
        exact ⟨es, t, (Traced.tell_bind_yields ..).mpr ⟨es, hyields, rfl⟩⟩

/-! ### Steps -/

/-- The loop has come to one completion, and the others are left. -/
theorem complete_left {queue : Queue} {wc : Wc} {dataList : List Wc}
    (hne : s.handlers queue ≠ []) (hstep : (s.complete queue wc dataList).Yields es t) :
    ∃ fs, es = .completion queue wc :: fs ∧ (∀ e ∈ fs, Aside e) ∧
      ∀ q, left t q = if queue = q then dataList else [] := by
  rw [complete_eq hne] at hstep
  obtain ⟨fs, hrest, rfl⟩ := (Traced.tell_bind_yields ..).mp hstep
  refine ⟨fs, rfl, ?_⟩
  cases hfind : (s.handlers queue).find? (ofId wc.wr_id) with
  | none =>
      simp only [hfind] at hrest
      obtain ⟨rfl, rfl⟩ := (Traced.tell_pure_yields ..).mp hrest
      exact ⟨aside_singleton fun _ => ⟨rfl, rfl⟩, left_loop rfl⟩
  | some comp =>
      simp only [hfind] at hrest
      exact finish_aside.of_yields hrest

/-- The completions that were polled are those that the loop came to, and those that are left. -/
theorem polled_step (h : ∀ queue, log.filterMap (polled? queue) =
      log.filterMap (completed? queue) ++ left s queue)
    {op : Op} (hpossible : Possible s op) (hcareful : Careful s op)
    (hstep : (s.step op).Yields es t) (q : Queue) :
    (log ++ es).filterMap (polled? q) = (log ++ es).filterMap (completed? q) ++ left t q := by
  have haside : (s.step op).Ensures Aside (fun t => t.place = s.place) →
      (log ++ es).filterMap (polled? q) = (log ++ es).filterMap (completed? q) ++ left t q := by
    intro hensures
    obtain ⟨hes, hplace⟩ := hensures.of_yields hstep
    exact polled_append h hes (left_congr hplace) q
  have hhandle : ∀ queue polled, s.place = .idle → (s.handle queue polled).Yields es t →
      (log ++ es).filterMap (polled? q) = (log ++ es).filterMap (completed? q) ++ left t q := by
    intro queue polled hidle hyields
    have hnothing : left s q = [] := by rw [left, hidle]
    by_cases hempty : s.handlers queue = []
    · -- nobody waits, and nothing is polled
      rw [handle, if_pos hempty] at hyields
      obtain ⟨rfl, rfl⟩ := (Traced.tell_pure_yields ..).mp hyields
      exact polled_append h (aside_singleton fun _ => ⟨rfl, rfl⟩) rfl q
    · obtain ⟨fs, hpolls, hfs⟩ := handle_yields polled hempty
      obtain ⟨rfl, rfl⟩ := hyields.unique hpolls
      rw [List.filterMap_append, List.filterMap_append, (hfs q).1, (hfs q).2, h q, hnothing,
        List.append_nil]
      exact congrArg _ (left_loop rfl q).symm
  cases op with
  | onSend | onRecv | FetchAndAdd | CmpAndSwp => exact haside postWr_aside
  | registerMemory =>
      exact haside (registerMemory_aside.bind fun r hr =>
        .tell_bind (aside_singleton fun _ => ⟨rfl, rfl⟩) (.pure hr))
  | deregisterMemory =>
      exact haside (deregisterMemory_aside.bind fun r hr =>
        .tell_bind (aside_singleton fun _ => ⟨rfl, rfl⟩) (.pure hr))
  | handleSend polled => exact hhandle .send polled hpossible hstep
  | handleRecv polled => exact hhandle .recv polled hpossible hstep
  | returns =>
      -- behind the callback the loop goes on with what was left
      obtain ⟨queue, info, dataList, hplace⟩ := hpossible
      change s.returns.Yields es t at hstep
      rw [RdmaConnection.returns, hplace] at hstep
      obtain ⟨rfl, rfl⟩ := (Traced.tell_pure_yields ..).mp hstep
      refine polled_append h (aside_singleton fun _ => ⟨rfl, rfl⟩) (funext fun r => ?_) q
      rw [left_callback hplace, left_loop rfl]
  | next =>
      obtain ⟨queue, dataList, hplace⟩ := hpossible
      change s.next.Yields es t at hstep
      rw [RdmaConnection.next, hplace] at hstep
      cases dataList with
      | nil =>
          obtain ⟨rfl, rfl⟩ := (Traced.tell_pure_yields ..).mp hstep
          refine polled_append h (aside_singleton fun _ => ⟨rfl, rfl⟩) (funext fun r => ?_) q
          rw [left_loop hplace, ite_self]
          rfl
      | cons wc dataList =>
          obtain ⟨fs, rfl, hfs, hleft⟩ :=
            complete_left (hcareful queue wc dataList hplace).1 hstep
          have hnone : polled? q (.completion queue wc) = none := rfl
          rw [List.filterMap_append, List.filterMap_append, List.filterMap_cons_none hnone,
            List.filterMap_eq_nil_iff.mpr fun e he => (hfs e he q).1, h q, left_loop hplace,
            hleft, List.append_nil, List.append_assoc]
          by_cases hq : queue = q
          · have hsome : completed? q (.completion queue wc) = some wc := if_pos hq
            rw [if_pos hq, if_pos hq, List.filterMap_cons_some hsome,
              List.filterMap_eq_nil_iff.mpr fun e he => (hfs e he q).2]
            rfl
          · have hnone : completed? q (.completion queue wc) = none := if_neg hq
            rw [if_neg hq, if_neg hq, List.filterMap_cons_none hnone,
              List.filterMap_eq_nil_iff.mpr fun e he => (hfs e he q).2]
            rfl

/-- What the log says of the completions, and what the next calls do. -/
theorem Matches.of_called (hcalled : Called log s) (hpolled : ∀ queue,
      log.filterMap (polled? queue) = log.filterMap (completed? queue) ++ left s queue) :
    Matches log s where
  toCalled := hcalled
  polled := hpolled
  polls _ _ := polls_of_handlers
  completes _ _ _ := completes_of_loop

/-- A possible step is right if and only if it is careful. -/
theorem Matches.step_iff (h : Matches log s) {op : Op} (hpossible : Possible s op)
    (hstep : (s.step op).Yields es t) : Matches (log ++ es) t ↔ Careful s op := by
  constructor
  · exact fun hmatches => (h.toCalled.step_iff hpossible hstep).mp hmatches.toCalled
  · intro hcareful
    exact .of_called ((h.toCalled.step_iff hpossible hstep).mpr hcareful)
      (polled_step h.polled hpossible hcareful hstep)

end Steps

/-- In a run whose steps are all careful, completions and requests match, and they do behind the
next step if and only if it is careful too. -/
theorem matches_iff_careful {ops : List Op} {log : List Event} {s : RdmaConnection}
    (hrun : Traced.Run RdmaConnection.step (fun s op => Possible s op ∧ Careful s op) {} ops log
      s) :
    Matches log s ∧ ∀ op es t, Possible s op → (s.step op).Yields es t →
      (Matches (log ++ es) t ↔ Careful s op) := by
  have hstart : Matches [] ({} : RdmaConnection) := by
    refine .of_called (called_of (fun _ => rfl) (fun queue => ?_)
      fun queue hmem => absurd hmem List.not_mem_nil) fun _ => rfl
    cases queue <;> rfl
  have hmatches : Matches log s := hrun.invariant (P := fun _ log s => Matches log s) hstart
    fun _ _ _ _ _ _ h hok hstep => (h.step_iff hok.1 hstep).mpr hok.2
  exact ⟨hmatches, fun op es t hpossible hstep => hmatches.step_iff hpossible hstep⟩

/-- Two sends that are completed in the other order. -/
theorem matches_iff_careful_two : ∃ log s,
    Traced.Run RdmaConnection.step (fun s op => Possible s op ∧ Careful s op) {}
      [.registerMemory 100 8 false (some { addr := 100 }),
        .registerMemory 200 8 false (some { addr := 200 }), .onSend 100 8 (some 1) 0 0,
        .onSend 200 8 (some 2) 0 0,
        .handleSend { polls := [.wc { wr_id := 200, opcode := .send },
          .wc { wr_id := 100, opcode := .send }] },
        .next, .returns, .next, .returns, .next] log s ∧
    log.filterMap (called? .send) = [(2, 0), (1, 0)] ∧ Matches log s ∧
    ∀ op es t, Possible s op → (s.step op).Yields es t →
      (Matches (log ++ es) t ↔ Careful s op) := by
  have hrun : ∃ log s,
      Traced.Run RdmaConnection.step (fun s op => Possible s op ∧ Careful s op) {}
        [.registerMemory 100 8 false (some { addr := 100 }),
          .registerMemory 200 8 false (some { addr := 200 }), .onSend 100 8 (some 1) 0 0,
          .onSend 200 8 (some 2) 0 0,
          .handleSend { polls := [.wc { wr_id := 200, opcode := .send },
            .wc { wr_id := 100, opcode := .send }] },
          .next, .returns, .next, .returns, .next] log s ∧
      log.filterMap (called? .send) = [(2, 0), (1, 0)] := by
    refine ⟨_, _, .snoc (.snoc (.snoc (.snoc (.snoc (.snoc (.snoc (.snoc (.snoc (.snoc (l := [])
      .nil ⟨trivial, trivial⟩ ⟨rfl, rfl⟩) ⟨trivial, trivial⟩ ⟨rfl, rfl⟩) ⟨trivial, trivial⟩
      ⟨rfl, rfl⟩) ⟨trivial, trivial⟩ ⟨rfl, rfl⟩) ⟨rfl, trivial⟩ ⟨rfl, rfl⟩) ⟨⟨_, _, rfl⟩, ?first⟩
      ⟨rfl, rfl⟩) ⟨⟨_, _, _, rfl⟩, trivial⟩ ⟨rfl, rfl⟩) ⟨⟨_, _, rfl⟩, ?second⟩ ⟨rfl, rfl⟩)
      ⟨⟨_, _, _, rfl⟩, trivial⟩ ⟨rfl, rfl⟩) ⟨⟨_, _, rfl⟩, ?last⟩ ⟨rfl, rfl⟩, rfl⟩
    case first =>
      intro queue wc dataList hloop
      obtain ⟨rfl, hcons⟩ := Place.loop.inj hloop
      obtain ⟨rfl, rfl⟩ := List.cons.inj hcons
      exact ⟨List.cons_ne_nil _ _, fun hopcode => absurd rfl hopcode⟩
    case second =>
      intro queue wc dataList hloop
      obtain ⟨rfl, hcons⟩ := Place.loop.inj hloop
      obtain ⟨rfl, rfl⟩ := List.cons.inj hcons
      exact ⟨List.cons_ne_nil _ _, fun hopcode => absurd rfl hopcode⟩
    case last =>
      intro queue wc dataList hloop
      exact absurd (Place.loop.inj hloop).2.symm (List.cons_ne_nil _ _)
  obtain ⟨log, s, hrun, hcalled⟩ := hrun
  obtain ⟨hmatches, hnext⟩ := matches_iff_careful hrun
  exact ⟨log, s, hrun, hcalled, hmatches, hnext⟩

/-- A send and an atomic operation are completed. Where they have their own buffers, the queue is
empty at the second completion. Where they have one buffer, and the atomic operation is the first,
its completion calls the callback of the send. -/
theorem front_of_empty :
    (∃ log s, Traced.Run RdmaConnection.step Possible {}
        [.registerMemory 100 8 false (some { addr := 100 }),
          .registerMemory 200 8 false (some { addr := 200 }), .onSend 100 8 (some 1) 0 0,
          .FetchAndAdd 200 { addr := 900 } 1 0,
          .handleSend { polls := [.wc { wr_id := 100, opcode := .send },
            .wc { wr_id := 200, opcode := .atomicFetchAndAdd }] },
          .next, .returns, .next] log s ∧
      .frontOfEmpty .send ∈ log ∧ ¬ Matches log s) ∧
    ∃ log s, Traced.Run RdmaConnection.step Possible {}
        [.registerMemory 100 8 false (some { addr := 100 }), .FetchAndAdd 100 { addr := 900 } 1 0,
          .onSend 100 8 (some 1) 0 0,
          .handleSend { polls := [.wc { wr_id := 100, opcode := .atomicFetchAndAdd }] },
          .next] log s ∧
      log.filterMap (called? .send) = [(1, 0)] ∧ s.handlers .send = [] ∧ ¬ Matches log s := by
  constructor
  · have hrun : ∃ log s, Traced.Run RdmaConnection.step Possible {}
          [.registerMemory 100 8 false (some { addr := 100 }),
            .registerMemory 200 8 false (some { addr := 200 }), .onSend 100 8 (some 1) 0 0,
            .FetchAndAdd 200 { addr := 900 } 1 0,
            .handleSend { polls := [.wc { wr_id := 100, opcode := .send },
              .wc { wr_id := 200, opcode := .atomicFetchAndAdd }] },
            .next, .returns, .next] log s ∧
        .frontOfEmpty .send ∈ log := by
      refine ⟨_, _, .snoc (.snoc (.snoc (.snoc (.snoc (.snoc (.snoc (.snoc (l := [])
        .nil trivial ⟨rfl, rfl⟩) trivial ⟨rfl, rfl⟩) trivial ⟨rfl, rfl⟩) trivial ⟨rfl, rfl⟩) ?_
        ⟨rfl, rfl⟩) ⟨_, _, rfl⟩ ⟨rfl, rfl⟩) ⟨_, _, _, rfl⟩ ⟨rfl, rfl⟩) ⟨_, _, rfl⟩ ⟨rfl, rfl⟩, ?_⟩
      · rfl
      · exact List.mem_append_right _ (List.mem_cons_of_mem _ List.mem_cons_self)
    obtain ⟨log, s, hrun, hfront⟩ := hrun
    exact ⟨log, s, hrun, hfront, fun hmatches => hmatches.safe .send hfront⟩
  · have hrun : ∃ log s, Traced.Run RdmaConnection.step Possible {}
          [.registerMemory 100 8 false (some { addr := 100 }),
            .FetchAndAdd 100 { addr := 900 } 1 0, .onSend 100 8 (some 1) 0 0,
            .handleSend { polls := [.wc { wr_id := 100, opcode := .atomicFetchAndAdd }] },
            .next] log s ∧
        log.filterMap (called? .send) = [(1, 0)] ∧ s.handlers .send = [] ∧
        (Matching.matching (use .send) log).served = [] := by
      refine ⟨_, _, .snoc (.snoc (.snoc (.snoc (.snoc (l := []) .nil trivial ⟨rfl, rfl⟩) trivial
        ⟨rfl, rfl⟩) trivial ⟨rfl, rfl⟩) ?_ ⟨rfl, rfl⟩) ⟨_, _, rfl⟩ ⟨rfl, rfl⟩, rfl, rfl, rfl⟩
      rfl
    obtain ⟨log, s, hrun, hcalled, hhandlers, hserved⟩ := hrun
    refine ⟨log, s, hrun, hcalled, hhandlers, fun hmatches => ?_⟩
    -- no completion has served the send
    have hnone := hmatches.called .send
    rw [hcalled, hserved] at hnone
    exact absurd hnone (List.cons_ne_nil _ _)

end Ndsl.Proofs.RdmaConnection
