import Ndsl.Lib.Matching
import Ndsl.Net.RdmaConnection

/-!
# `Ndsl.Proofs.RdmaConnection.Called`: which handler a completion calls

`handleSend` and `handleRecv` look for the first handler with the `wr_id` of the completion. An
atomic operation has no handler, and its `wr_id` is its buffer, as for a send. So its completion
takes the handler of a send on this buffer; and behind the last handler the loop reads the front of
an empty queue.

`Called` says that each completion which the loop comes to calls the handler of its request, and
`Called.step_iff` that this goes on as long as the queue is not empty at a completion, and no
handler on the buffer waits at the completion of an atomic operation. What is right is read off the
log with `Matching`.
-/

set_option autoImplicit false

namespace Ndsl.Proofs.RdmaConnection

open Ndsl.Lib
open Ndsl.Net Ndsl.Net.RdmaConnection

/-! ### What a log says -/

/-- The requests whose handlers stand in the queue. -/
def opcode : Queue → Opcode
  | .send => .send
  | .recv => .recv

/-- The handlers with this `wr_id`. -/
def ofId (wr_id : Nat) (info : SaveInfo) : Bool := info.wr_id = wr_id

/-- What an event does to the requests of a queue. A completion of another kind of request, such as
an atomic operation, has nothing to do with them. -/
def use (queue : Queue) : Event → Option (Matching.Use SaveInfo)
  | .queued q info => if q = queue then some (.post info) else none
  | .completion q wc =>
      if q = queue ∧ wc.opcode = opcode queue then some (.complete (ofId wc.wr_id)) else none
  | _ => none

/-- The callback that is called, and its parameter. -/
def called? (queue : Queue) : Event → Option (Nat × Nat)
  | .callback q cb param => if q = queue then some (cb, param) else none
  | _ => none

/-- The callback of a handler, and its parameter. -/
def callback? (info : SaveInfo) : Option (Nat × Nat) := info.cb.map (·, info.param)

/-- Each completion that the loop came to has served the oldest request of its kind that had its
`wr_id`, and no other callback has been called. The handlers in the queues are those of the requests
that wait, and each request has been served once or waits. The front of an empty queue has not been
read. -/
structure Called (log : List Event) (s : RdmaConnection) : Prop where
  called : ∀ queue, log.filterMap (called? queue) =
    (Matching.matching (use queue) log).served.filterMap callback?
  handlers : ∀ queue, s.handlers queue = (Matching.matching (use queue) log).waiting
  once : ∀ queue, (Matching.posted (use queue) log).Perm
    ((Matching.matching (use queue) log).served ++ s.handlers queue)
  safe : ∀ queue, .frontOfEmpty queue ∉ log

/-- The next completion finds handlers in its queue, and where it is none of a request of this
queue, none of them has its `wr_id`. -/
def Careful (s : RdmaConnection) : Op → Prop
  | .next => ∀ queue wc dataList, s.place = .loop queue (wc :: dataList) →
      s.handlers queue ≠ [] ∧
        (wc.opcode ≠ opcode queue → ∀ info ∈ s.handlers queue, info.wr_id ≠ wc.wr_id)
  | _ => True

/-! ### The handlers of a queue -/

section Handlers
variable {s : RdmaConnection} {l : List SaveInfo} {queue q : Queue}

@[simp] theorem handlers_setHandlers_self : (s.setHandlers l queue).handlers queue = l := by
  cases queue <;> rfl

theorem handlers_setHandlers_of_ne (h : q ≠ queue) :
    (s.setHandlers l queue).handlers q = s.handlers q := by
  cases queue <;> cases q <;> first | rfl | exact absurd rfl h

theorem setHandlers_handlers : s.setHandlers (s.handlers queue) queue = s := by
  cases queue <;> rfl

end Handlers

theorem ofId_iff {wr_id : Nat} {info : SaveInfo} : ofId wr_id info ↔ info.wr_id = wr_id :=
  decide_eq_true_iff

/-- The search finds the first handler with the `wr_id`. -/
theorem search_eq (wr_id : Nat) (l : List SaveInfo) :
    search wr_id l = (l.find? (ofId wr_id), l.eraseP (ofId wr_id)) := by
  induction l with
  | nil => rfl
  | cons info l ih =>
      rw [search]
      by_cases hid : info.wr_id = wr_id
      · rw [if_pos hid, List.find?_cons_of_pos (ofId_iff.mpr hid),
          List.eraseP_cons_of_pos (ofId_iff.mpr hid)]
      · have hnot : ¬ ofId wr_id info := fun h => hid (ofId_iff.mp h)
        rw [if_neg hid, ih, List.find?_cons_of_neg hnot, List.eraseP_cons_of_neg hnot]

/-- What the body of the loop does with a queue that is not empty. -/
theorem complete_eq {s : RdmaConnection} {queue : Queue} {wc : Wc} {dataList : List Wc}
    (h : s.handlers queue ≠ []) :
    s.complete queue wc dataList = Traced.tell [.completion queue wc] >>= fun _ =>
      match (s.handlers queue).find? (ofId wc.wr_id) with
      | some comp =>
          (s.setHandlers ((s.handlers queue).eraseP (ofId wc.wr_id)) queue).finish queue comp
            dataList
      | none => Traced.tell [.log "unknown wc error."] >>= fun _ =>
          pure { s with place := .loop queue dataList } := by
  unfold complete
  refine congrArg _ (funext fun _ => ?_)
  cases hhandlers : s.handlers queue with
  | nil => exact absurd hhandlers h
  | cons front behind =>
      by_cases hid : front.wr_id = wc.wr_id
      · have hofId : ofId wc.wr_id front := ofId_iff.mpr hid
        rw [List.find?_cons_of_pos hofId, List.eraseP_cons_of_pos hofId]
        exact if_neg (not_not_intro hid)
      · have hnot : ¬ ofId wc.wr_id front := fun hofId => hid (ofId_iff.mp hofId)
        simp only [search_eq, List.eraseP_cons_of_neg hnot, if_pos hid]
        cases hfind : (front :: behind).find? (ofId wc.wr_id) with
        | none =>
            -- the queue is as it was, and the handler is the one at its front
            have hbehind : front :: behind.eraseP (ofId wc.wr_id) = s.handlers queue := by
              rw [hhandlers, ← List.eraseP_cons_of_neg hnot]
              exact Matching.eraseP_of_find?_eq_none hfind
            rw [Option.getD_none, if_pos rfl, hbehind, setHandlers_handlers]
        | some comp =>
            have hcomp : comp.wr_id = wc.wr_id := ofId_iff.mp (List.find?_some hfind)
            rw [Option.getD_some, if_neg fun heq => hid (heq.symm.trans hcomp)]

/-! ### Steps that have nothing to do with the handlers -/

/-- The event says nothing about requests. -/
def Quiet (e : Event) : Prop :=
  ∀ queue, use queue e = none ∧ called? queue e = none ∧ e ≠ .frontOfEmpty queue

section Step
variable {log es : List Event} {s t : RdmaConnection}

/-- It is enough to know what the handlers are, and what was called. -/
theorem called_of (hcalled : ∀ queue, log.filterMap (called? queue) =
      (Matching.matching (use queue) log).served.filterMap callback?)
    (hhandlers : ∀ queue, s.handlers queue = (Matching.matching (use queue) log).waiting)
    (hsafe : ∀ queue, .frontOfEmpty queue ∉ log) : Called log s where
  called := hcalled
  handlers := hhandlers
  once queue := by
    rw [hhandlers]
    exact Matching.posted_perm log
  safe := hsafe

theorem matching_quiet (h : ∀ e ∈ es, Quiet e) (queue : Queue) :
    Matching.matching (use queue) (log ++ es) = Matching.matching (use queue) log :=
  Matching.matching_append_of_none fun e he => (h e he queue).1

/-- Nothing that matters has happened. -/
theorem Called.quiet (h : Called log s) (hquiet : ∀ e ∈ es, Quiet e)
    (hhandlers : ∀ queue, t.handlers queue = s.handlers queue) : Called (log ++ es) t := by
  refine called_of (fun queue => ?_) (fun queue => ?_) fun queue hmem => ?_
  · rw [Traced.filterMap_append_of_none fun e he => (hquiet e he queue).2.1,
      matching_quiet hquiet, h.called]
  · rw [hhandlers, matching_quiet hquiet, h.handlers]
  · rcases List.mem_append.mp hmem with hmem | hmem
    · exact h.safe queue hmem
    · exact (hquiet _ hmem queue).2.2 rfl

theorem quiet_post (wr : Wr) (ret : Int) : Quiet (.post wr ret) :=
  fun _ => ⟨rfl, rfl, Event.noConfusion⟩

theorem quiet_log (message : String) : Quiet (.log message) :=
  fun _ => ⟨rfl, rfl, Event.noConfusion⟩

theorem quiet_delete (info : SaveInfo) : Quiet (.delete info) :=
  fun _ => ⟨rfl, rfl, Event.noConfusion⟩

theorem quiet_returned (ret : Int) : Quiet (.returned ret) :=
  fun _ => ⟨rfl, rfl, Event.noConfusion⟩

theorem quiet_singleton {e e' : Event} (h : Quiet e) (he : e' ∈ [e]) : Quiet e' := by
  rwa [List.mem_singleton.mp he]

/-! ### Posting -/

/-- A handler is added to its queue, or nothing that matters happens. -/
theorem postWr_cases {buf : Nat} {wr : Mr → Wr} {ret r : Int} {message : String}
    {handler : Option (Queue × SaveInfo)}
    (h : (s.postWr buf wr ret message handler).Yields es (r, t)) :
    ((∀ e ∈ es, Quiet e) ∧ t = s) ∨ ∃ front queue info, (∀ e ∈ front, Quiet e) ∧
      es = front ++ [.queued queue info] ∧
      t = s.setHandlers (s.handlers queue ++ [info]) queue := by
  unfold postWr at h
  cases hmr : s.mrMap_ buf with
  | none =>
      -- the memory of the buffer is not registered
      simp only [hmr] at h
      obtain ⟨rfl, hpair⟩ := (Traced.tell_pure_yields ..).mp h
      exact .inl ⟨fun e he => quiet_singleton (quiet_log _) he, (Prod.mk.inj hpair).2.symm⟩
  | some mr =>
      simp only [hmr] at h
      obtain ⟨fs, hrest, rfl⟩ := (Traced.tell_bind_yields ..).mp h
      have hpost : ∀ e ∈ [Event.post (wr mr.mr) ret], Quiet e :=
        fun e he => quiet_singleton (quiet_post _ _) he
      by_cases hret : ret ≠ 0
      · -- the verb has failed, and no handler is kept for it
        rw [if_pos hret] at hrest
        obtain ⟨rfl, hpair⟩ := (Traced.tell_pure_yields ..).mp hrest
        refine .inl ⟨fun e he => ?_, (Prod.mk.inj hpair).2.symm⟩
        rcases List.mem_append.mp he with he | he
        · exact hpost e he
        · exact quiet_singleton (quiet_log _) he
      · rw [if_neg hret] at hrest
        cases handler with
        | none =>
            -- a request that nobody waits for
            obtain ⟨rfl, hpair⟩ := (Traced.pure_yields ..).mp hrest
            refine .inl ⟨fun e he => ?_, (Prod.mk.inj hpair).2.symm⟩
            rw [List.append_nil] at he
            exact hpost e he
        | some handler =>
            obtain ⟨rfl, hpair⟩ := (Traced.tell_pure_yields ..).mp hrest
            exact .inr ⟨_, handler.1, handler.2, hpost, rfl, (Prod.mk.inj hpair).2.symm⟩

/-- The handler of a request that was posted is added to its queue. -/
theorem Called.queued (h : Called log s) (queue : Queue) (info : SaveInfo) :
    Called (log ++ [.queued queue info]) (s.setHandlers (s.handlers queue ++ [info]) queue) := by
  have hcalled : ∀ q, (log ++ [Event.queued queue info]).filterMap (called? q) =
      log.filterMap (called? q) := fun q => by
    rw [List.filterMap_append, List.filterMap_cons_none (by rfl), List.filterMap_nil,
      List.append_nil]
  have hsafe : ∀ q, .frontOfEmpty q ∉ log ++ [.queued queue info] := by
    intro q hmem
    rcases List.mem_append.mp hmem with hmem | hmem
    · exact h.safe q hmem
    · exact Event.noConfusion (List.mem_singleton.mp hmem)
  refine called_of (fun q => ?_) (fun q => ?_) hsafe
  · rw [hcalled, Matching.matching_snoc, h.called q]
    by_cases hq : queue = q
    · rw [use, if_pos hq]
      rfl
    · rw [use, if_neg hq]
      rfl
  · rw [Matching.matching_snoc]
    by_cases hq : queue = q
    · subst hq
      rw [use, if_pos rfl, handlers_setHandlers_self, h.handlers]
      rfl
    · rw [use, if_neg hq, handlers_setHandlers_of_ne (Ne.symm hq), h.handlers]
      rfl

/-- A function of the user that posts a request. -/
theorem Called.call (h : Called log s) {buf : Nat} {wr : Mr → Wr} {ret : Int} {message : String}
    {handler : Option (Queue × SaveInfo)}
    (hstep : (RdmaConnection.call (s.postWr buf wr ret message handler)).Yields es t) :
    Called (log ++ es) t := by
  obtain ⟨fs, ⟨r, u⟩, gs, hpost, hreturn, rfl⟩ := Traced.bind_yields.mp hstep
  obtain ⟨rfl, rfl⟩ := (Traced.tell_pure_yields ..).mp hreturn
  have hreturned : ∀ e ∈ [Event.returned r], Quiet e :=
    fun e he => quiet_singleton (quiet_returned r) he
  rw [← List.append_assoc]
  refine Called.quiet ?_ hreturned fun _ => rfl
  rcases postWr_cases hpost with ⟨hquiet, rfl⟩ | ⟨front, queue, info, hquiet, rfl, rfl⟩
  · exact h.quiet hquiet fun _ => rfl
  · rw [← List.append_assoc]
    exact (h.quiet hquiet fun _ => rfl).queued queue info

/-- What registers or deregisters memory has nothing to do with requests. -/
theorem registerMemory_yields {addr len : Nat} {atomic : Bool} {region mr : Option Mr}
    (h : (s.registerMemory addr len atomic region).Yields es (mr, t)) :
    (∀ e ∈ es, Quiet e) ∧ ∀ queue, t.handlers queue = s.handlers queue := by
  have hregMr : ∀ fs, (∀ e ∈ fs, Quiet e) → ∀ e ∈ Event.regMr addr len atomic :: fs, Quiet e := by
    intro fs hfs e he
    rcases List.mem_cons.mp he with rfl | he
    · exact fun _ => ⟨rfl, rfl, Event.noConfusion⟩
    · exact hfs e he
  unfold registerMemory at h
  split at h
  · obtain ⟨rfl, hpair⟩ := (Traced.pure_yields ..).mp h
    obtain ⟨-, rfl⟩ := Prod.mk.inj hpair
    exact ⟨fun e he => absurd he List.not_mem_nil, fun _ => rfl⟩
  split at h
  · obtain ⟨rfl, hpair⟩ := (Traced.tell_pure_yields ..).mp h
    obtain ⟨-, rfl⟩ := Prod.mk.inj hpair
    exact ⟨fun e he => quiet_singleton (quiet_log _) he, fun _ => rfl⟩
  obtain ⟨fs, hrest, rfl⟩ := (Traced.tell_bind_yields ..).mp h
  cases region with
  | none =>
      obtain ⟨rfl, hpair⟩ := (Traced.tell_pure_yields ..).mp hrest
      obtain ⟨-, rfl⟩ := Prod.mk.inj hpair
      exact ⟨hregMr _ fun e he => quiet_singleton (quiet_log _) he, fun _ => rfl⟩
  | some region =>
      obtain ⟨rfl, hpair⟩ := (Traced.pure_yields ..).mp hrest
      obtain ⟨-, rfl⟩ := Prod.mk.inj hpair
      refine ⟨hregMr _ fun e he => absurd he List.not_mem_nil, fun queue => ?_⟩
      cases queue <;> rfl

theorem deregisterMemory_yields {addr : Nat} {ret r : Int}
    (h : (s.deregisterMemory addr ret).Yields es (r, t)) :
    (∀ e ∈ es, Quiet e) ∧ ∀ queue, t.handlers queue = s.handlers queue := by
  have hderegMr : ∀ mr fs, (∀ e ∈ fs, Quiet e) → ∀ e ∈ Event.deregMr mr :: fs, Quiet e := by
    intro mr fs hfs e he
    rcases List.mem_cons.mp he with rfl | he
    · exact fun _ => ⟨rfl, rfl, Event.noConfusion⟩
    · exact hfs e he
  unfold deregisterMemory at h
  split at h
  · obtain ⟨rfl, hpair⟩ := (Traced.pure_yields ..).mp h
    obtain ⟨-, rfl⟩ := Prod.mk.inj hpair
    exact ⟨fun e he => absurd he List.not_mem_nil, fun _ => rfl⟩
  obtain ⟨fs, hrest, rfl⟩ := (Traced.tell_bind_yields ..).mp h
  split at hrest
  · obtain ⟨rfl, hpair⟩ := (Traced.tell_pure_yields ..).mp hrest
    obtain ⟨-, rfl⟩ := Prod.mk.inj hpair
    exact ⟨hderegMr _ _ fun e he => quiet_singleton (quiet_log _) he, fun _ => rfl⟩
  · obtain ⟨rfl, hpair⟩ := (Traced.pure_yields ..).mp hrest
    obtain ⟨-, rfl⟩ := Prod.mk.inj hpair
    refine ⟨hderegMr _ _ fun e he => absurd he List.not_mem_nil, fun queue => ?_⟩
    cases queue <;> rfl

/-! ### Completions -/

theorem pollCq_quiet {channel : Queue} {polls : List Poll} {wcList : List Wc}
    (h : (pollCq channel polls).Yields es wcList) :
    ∀ e ∈ es, Quiet e := by
  have hpolled : ∀ wc, ∀ e ∈ [Event.polled channel wc], Quiet e :=
    fun wc e he => quiet_singleton (fun _ => ⟨rfl, rfl, Event.noConfusion⟩) he
  induction polls generalizing es wcList with
  | nil =>
      obtain ⟨rfl, -⟩ := (Traced.pure_yields ..).mp h
      exact fun e he => absurd he List.not_mem_nil
  | cons poll polls ih =>
      cases poll with
      | interrupted => exact ih h
      | wc wc =>
          obtain ⟨gs, hstatus, rfl⟩ := (Traced.tell_bind_yields ..).mp h
          refine List.forall_mem_append.mpr ⟨hpolled wc, ?_⟩
          split at hstatus
          · obtain ⟨fs, hrest, rfl⟩ := (Traced.tell_bind_yields ..).mp hstatus
            refine List.forall_mem_append.mpr ⟨fun e he => ?_, ih hrest⟩
            exact quiet_singleton (fun _ => ⟨rfl, rfl, Event.noConfusion⟩) he
          · obtain ⟨fs, _, ks, hrest, hcons, rfl⟩ := Traced.bind_yields.mp hstatus
            obtain ⟨rfl, -⟩ := (Traced.pure_yields ..).mp hcons
            rw [List.append_nil]
            exact ih hrest

theorem pollIncomingData_quiet {channel : Queue} {polled : Polled} {ret : Int} {wcList : List Wc}
    (h : (pollIncomingData channel polled).Yields es (ret, wcList)) : ∀ e ∈ es, Quiet e := by
  unfold pollIncomingData at h
  split at h
  · obtain ⟨rfl, -⟩ := (Traced.tell_pure_yields ..).mp h
    exact fun e he => quiet_singleton (quiet_log _) he
  split at h
  · obtain ⟨rfl, -⟩ := (Traced.tell_pure_yields ..).mp h
    exact fun e he => quiet_singleton (quiet_log _) he
  obtain ⟨fs, _, gs, hpoll, hrest, rfl⟩ := Traced.bind_yields.mp h
  obtain ⟨ks, hack, rfl⟩ := (Traced.tell_bind_yields ..).mp hrest
  obtain ⟨rfl, -⟩ := (Traced.tell_pure_yields ..).mp hack
  intro e he
  rcases List.mem_append.mp he with he | he
  · exact pollCq_quiet hpoll e he
  rcases List.mem_append.mp he with he | he
  · split at he
    · exact quiet_singleton (quiet_log _) he
    · exact absurd he List.not_mem_nil
  · rw [List.mem_singleton.mp he]
    exact fun _ => ⟨rfl, rfl, Event.noConfusion⟩

/-- Up to the loop nothing that matters happens. -/
theorem Called.handle (h : Called log s) {queue : Queue} {polled : Polled}
    (hstep : (s.handle queue polled).Yields es t) : Called (log ++ es) t := by
  unfold RdmaConnection.handle at hstep
  split at hstep
  · obtain ⟨rfl, rfl⟩ := (Traced.tell_pure_yields ..).mp hstep
    exact h.quiet (fun e he => quiet_singleton (quiet_returned _) he) fun _ => rfl
  · obtain ⟨fs, ⟨ret, wcList⟩, gs, hpoll, hrest, rfl⟩ := Traced.bind_yields.mp hstep
    obtain ⟨rfl, rfl⟩ := (Traced.pure_yields ..).mp hrest
    rw [List.append_nil]
    refine h.quiet (pollIncomingData_quiet hpoll) fun q => ?_
    cases q <;> rfl

/-- The callback of a handler is called, if there is one. -/
theorem finish_yields {queue : Queue} {comp : SaveInfo} {dataList : List Wc}
    (h : (s.finish queue comp dataList).Yields es t) :
    (∀ q, t.handlers q = s.handlers q) ∧ (∀ q, ∀ e ∈ es, use q e = none) ∧
    (∀ q, .frontOfEmpty q ∉ es) ∧
    ∀ q, es.filterMap (called? q) = if queue = q then (callback? comp).toList else [] := by
  unfold finish at h
  cases hcb : comp.cb with
  | some cb =>
      simp only [hcb] at h
      obtain ⟨rfl, rfl⟩ := (Traced.tell_pure_yields ..).mp h
      refine ⟨fun q => ?_, fun q e he => ?_, fun q hmem => ?_, fun q => ?_⟩
      · cases q <;> rfl
      · rw [List.mem_singleton.mp he]
        rfl
      · exact Event.noConfusion (List.mem_singleton.mp hmem)
      · by_cases hq : queue = q
        · rw [if_pos hq, callback?, hcb]
          exact List.filterMap_cons_some (if_pos hq)
        · rw [if_neg hq]
          exact List.filterMap_cons_none (if_neg hq)
  | none =>
      simp only [hcb] at h
      obtain ⟨rfl, rfl⟩ := (Traced.tell_pure_yields ..).mp h
      refine ⟨fun q => ?_, fun q e he => ?_, fun q hmem => ?_, fun q => ?_⟩
      · cases q <;> rfl
      · rw [List.mem_singleton.mp he]
        rfl
      · exact Event.noConfusion (List.mem_singleton.mp hmem)
      · rw [callback?, hcb]
        exact (ite_self _).symm

theorem called_completion (queue : Queue) (wc : Wc) (q : Queue) :
    (log ++ [Event.completion queue wc]).filterMap (called? q) = log.filterMap (called? q) := by
  rw [List.filterMap_append]
  exact List.append_nil _

theorem safe_completion (h : Called log s) (queue : Queue) (wc : Wc) (q : Queue) :
    .frontOfEmpty q ∉ log ++ [.completion queue wc] := by
  intro hmem
  rcases List.mem_append.mp hmem with hmem | hmem
  · exact h.safe q hmem
  · exact Event.noConfusion (List.mem_singleton.mp hmem)

/-- A completion that finds no handler. -/
theorem Called.unknown (h : Called log s) {queue : Queue} {wc : Wc}
    (hfind : (s.handlers queue).find? (ofId wc.wr_id) = none) :
    Called (log ++ [.completion queue wc]) s := by
  have hsame : ∀ q, Matching.matching (use q) (log ++ [.completion queue wc]) =
      Matching.matching (use q) log := by
    intro q
    rw [Matching.matching_snoc, use]
    by_cases hq : queue = q ∧ wc.opcode = opcode q
    · obtain ⟨rfl, hopcode⟩ := hq
      rw [if_pos ⟨rfl, hopcode⟩]
      exact Matching.after_complete_of_none (h.handlers queue ▸ hfind)
    · rw [if_neg hq]
      rfl
  refine called_of (fun q => ?_) (fun q => ?_) (safe_completion h queue wc)
  · rw [called_completion, hsame, h.called]
  · rw [hsame, h.handlers]

/-- The completion of a request whose handler is found, which is called. -/
theorem Called.serves (h : Called log s) {queue : Queue} {wc : Wc} {comp : SaveInfo}
    {dataList : List Wc} (hopcode : wc.opcode = opcode queue)
    (hfind : (s.handlers queue).find? (ofId wc.wr_id) = some comp)
    (hstep : ((s.setHandlers ((s.handlers queue).eraseP (ofId wc.wr_id)) queue).finish queue comp
      dataList).Yields es t) : Called (log ++ [.completion queue wc] ++ es) t := by
  obtain ⟨hhandlers, huse, hsafe, hcalled⟩ := finish_yields hstep
  have hmatching : ∀ q, Matching.matching (use q) (log ++ [.completion queue wc] ++ es) =
      (Matching.matching (use q) log).after (use q (.completion queue wc)) := fun q => by
    rw [Matching.matching_append_of_none (huse q), Matching.matching_snoc]
  -- the queue of the completion: its oldest handler is taken
  have hself : (Matching.matching (use queue) log).after (use queue (.completion queue wc)) =
      { waiting := (s.handlers queue).eraseP (ofId wc.wr_id)
        served := (Matching.matching (use queue) log).served ++ [comp] } := by
    rw [use, if_pos ⟨rfl, hopcode⟩, h.handlers]
    exact Matching.after_complete_of_some (h.handlers queue ▸ hfind)
  -- the other queue
  have hother : ∀ q, queue ≠ q →
      (Matching.matching (use q) log).after (use q (.completion queue wc)) =
        Matching.matching (use q) log := fun q hq => by
    rw [use, if_neg fun hand => hq hand.1]
    rfl
  refine called_of (fun q => ?_) (fun q => ?_) fun q hmem => ?_
  · rw [List.filterMap_append, called_completion, hcalled, hmatching, h.called]
    by_cases hq : queue = q
    · subst hq
      rw [if_pos rfl, hself, List.filterMap_append]
      cases hcb : callback? comp with
      | none => rw [List.filterMap_cons_none hcb]; rfl
      | some callback => rw [List.filterMap_cons_some hcb]; rfl
    · rw [if_neg hq, hother q hq, List.append_nil]
  · rw [hmatching, hhandlers]
    by_cases hq : queue = q
    · subst hq
      rw [hself, handlers_setHandlers_self]
    · rw [hother q hq, handlers_setHandlers_of_ne (Ne.symm hq), h.handlers]
  · rcases List.mem_append.mp hmem with hmem | hmem
    · exact safe_completion h queue wc q hmem
    · exact hsafe q hmem

/-- A completion that may come now. -/
theorem Called.complete (h : Called log s) {queue : Queue} {wc : Wc} {dataList : List Wc}
    (hne : s.handlers queue ≠ [])
    (hkind : wc.opcode ≠ opcode queue → ∀ info ∈ s.handlers queue, info.wr_id ≠ wc.wr_id)
    (hstep : (s.complete queue wc dataList).Yields es t) : Called (log ++ es) t := by
  rw [complete_eq hne] at hstep
  obtain ⟨fs, hrest, rfl⟩ := (Traced.tell_bind_yields ..).mp hstep
  rw [← List.append_assoc]
  cases hfind : (s.handlers queue).find? (ofId wc.wr_id) with
  | none =>
      simp only [hfind] at hrest
      obtain ⟨rfl, rfl⟩ := (Traced.tell_pure_yields ..).mp hrest
      refine (h.unknown hfind).quiet (fun e he => quiet_singleton (quiet_log _) he) fun q => ?_
      cases q <;> rfl
  | some comp =>
      simp only [hfind] at hrest
      have hopcode : wc.opcode = opcode queue := by
        by_contra hopcode
        exact hkind hopcode comp (List.mem_of_find?_eq_some hfind)
          (ofId_iff.mp (List.find?_some hfind))
      exact h.serves hopcode hfind hrest

/-- A completion that may not come now. -/
theorem not_called_complete (h : Called log s) {queue : Queue} {wc : Wc} {dataList : List Wc}
    (hnot : ¬ (s.handlers queue ≠ [] ∧
      (wc.opcode ≠ opcode queue → ∀ info ∈ s.handlers queue, info.wr_id ≠ wc.wr_id)))
    (hstep : (s.complete queue wc dataList).Yields es t) : ¬ Called (log ++ es) t := by
  intro hcalls
  by_cases hempty : s.handlers queue = []
  · -- the front of the empty queue is read
    unfold RdmaConnection.complete at hstep
    rw [hempty] at hstep
    obtain ⟨fs, hrest, rfl⟩ := (Traced.tell_bind_yields ..).mp hstep
    obtain ⟨rfl, -⟩ := (Traced.tell_pure_yields ..).mp hrest
    exact hcalls.safe queue (by simp)
  · have hkind : wc.opcode ≠ opcode queue ∧ ∃ info ∈ s.handlers queue, info.wr_id = wc.wr_id := by
      by_contra hkind
      refine hnot ⟨hempty, fun hopcode info hinfo hid => hkind ⟨hopcode, info, hinfo, hid⟩⟩
    obtain ⟨hopcode, info, hinfo, hid⟩ := hkind
    rw [complete_eq hempty] at hstep
    obtain ⟨fs, hrest, rfl⟩ := (Traced.tell_bind_yields ..).mp hstep
    cases hfind : (s.handlers queue).find? (ofId wc.wr_id) with
    | none => exact List.find?_eq_none.mp hfind info hinfo (ofId_iff.mpr hid)
    | some comp =>
        simp only [hfind] at hrest
        obtain ⟨hhandlers, huse, -, -⟩ := finish_yields hrest
        -- the requests that wait are as they were, and a handler is gone
        have hwaiting : t.handlers queue = s.handlers queue := by
          rw [hcalls.handlers, h.handlers, ← List.append_assoc,
            Matching.matching_append_of_none (huse queue), Matching.matching_snoc, use,
            if_neg fun hand => hopcode hand.2]
          rfl
        rw [hhandlers, handlers_setHandlers_self, List.eraseP_eq_self_iff] at hwaiting
        exact hwaiting info hinfo (ofId_iff.mpr hid)

/-- A possible step is right if and only if it is careful. -/
theorem Called.step_iff (h : Called log s) {op : Op} (hpossible : Possible s op)
    (hstep : (s.step op).Yields es t) : Called (log ++ es) t ↔ Careful s op := by
  cases op with
  | onSend | onRecv | FetchAndAdd | CmpAndSwp => exact iff_of_true (h.call hstep) trivial
  | registerMemory =>
      -- memory has nothing to do with the work requests
      obtain ⟨fs, ⟨mr, u⟩, gs, hregister, hreturn, rfl⟩ := Traced.bind_yields.mp hstep
      obtain ⟨rfl, rfl⟩ := (Traced.tell_pure_yields ..).mp hreturn
      obtain ⟨hquiet, hhandlers⟩ := registerMemory_yields hregister
      rw [← List.append_assoc]
      refine iff_of_true ((h.quiet hquiet hhandlers).quiet (fun e he => ?_) fun _ => rfl) trivial
      rw [List.mem_singleton.mp he]
      exact fun _ => ⟨rfl, rfl, Event.noConfusion⟩
  | deregisterMemory =>
      obtain ⟨fs, ⟨ret, u⟩, gs, hderegister, hreturn, rfl⟩ := Traced.bind_yields.mp hstep
      obtain ⟨rfl, rfl⟩ := (Traced.tell_pure_yields ..).mp hreturn
      obtain ⟨hquiet, hhandlers⟩ := deregisterMemory_yields hderegister
      rw [← List.append_assoc]
      exact iff_of_true ((h.quiet hquiet hhandlers).quiet
        (fun e he => quiet_singleton (quiet_returned _) he) fun _ => rfl) trivial
  | handleSend | handleRecv => exact iff_of_true (h.handle hstep) trivial
  | returns =>
      -- the handler is deleted when its callback is over
      obtain ⟨queue, info, dataList, hplace⟩ := hpossible
      have hreturns : (Traced.tell [Event.delete info] >>= fun _ =>
          pure { s with place := .loop queue dataList }).Yields es t := by
        change s.returns.Yields es t at hstep
        rwa [RdmaConnection.returns, hplace] at hstep
      obtain ⟨rfl, rfl⟩ := (Traced.tell_pure_yields ..).mp hreturns
      refine iff_of_true (h.quiet (fun e he => quiet_singleton (quiet_delete _) he) fun q => ?_)
        trivial
      cases q <;> rfl
  | next =>
      obtain ⟨queue, dataList, hplace⟩ := hpossible
      change s.next.Yields es t at hstep
      rw [RdmaConnection.next, hplace] at hstep
      cases dataList with
      | nil =>
          -- no completion is left, and there was nothing to be careful about
          obtain ⟨rfl, rfl⟩ := (Traced.tell_pure_yields ..).mp hstep
          refine iff_of_true
            (h.quiet (fun e he => quiet_singleton (quiet_returned _) he) fun q => ?_)
            fun q wc dataList hloop => ?_
          · cases q <;> rfl
          · rw [hplace] at hloop
            exact absurd (Place.loop.inj hloop).2.symm (List.cons_ne_nil _ _)
      | cons wc dataList =>
          -- the one step that can go wrong: the completion at the front of the list
          constructor
          · intro hcalls q wc' dataList' hloop
            rw [hplace] at hloop
            obtain ⟨rfl, hcons⟩ := Place.loop.inj hloop
            obtain ⟨rfl, rfl⟩ := List.cons.inj hcons
            by_contra hnot
            exact not_called_complete h hnot hstep hcalls
          · intro hcareful
            obtain ⟨hne, hkind⟩ := hcareful queue wc dataList hplace
            exact h.complete hne hkind hstep

end Step

end Ndsl.Proofs.RdmaConnection
