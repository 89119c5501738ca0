import Mathlib.Data.List.Nodup
import Ndsl.Lib.Slot
import Ndsl.Net.RdmaAcceptor

/-!
# `Ndsl.Proofs.RdmaAcceptor.Pairs`: one connect request for each registration

`valid` is never cleared, because a `break` stands in front of the assignment. So a registration
serves every connect request that comes, with the same `RdmaConnection`: the second one finds the
connection bound, and whether it is accepted is up to `rdma_accept` (`accepted_twice`).

`pairs_of_careful` says that requests and registrations come in pairs where every request that is
accepted finds a registration that has not been used, with a connection that has not been bound, and
that a registration that is there serves the next request that can be accepted.
-/

set_option autoImplicit false

namespace Ndsl.Proofs.RdmaAcceptor

open Ndsl.Lib
open Ndsl.Net Ndsl.Net.RdmaAcceptor

/-! ### What a log says -/

/-- What an event does to the registration. -/
def use : Event → Option (Use Request)
  | .onAccept request => some (.put request)
  | .accepted .. => some .take
  | _ => none

/-- The connection for which a request is accepted, and the request. -/
def accepted? : Event → Option (Nat × Nat)
  | .accepted rc id => some (rc, id)
  | _ => none

/-- The request for which `rdma_accept` succeeds. -/
def succeeded? : Event → Option (Option Nat)
  | .rdmaAccept id ret => if 0 ≤ ret then some id else none
  | _ => none

/-- The connection that is bound to a request. -/
def bound? : Event → Option (Nat × Nat)
  | .bind rc id => some (rc, id)
  | _ => none

/-- The callback that is called, and its parameter. -/
def callback? : Event → Option (Nat × Nat)
  | .callback aCb param => some (aCb, param)
  | _ => none

/-- The registration that has not been used. -/
def armed (s : RdmaAcceptor) : Option Request :=
  if s.info_.valid = true ∧ s.getAcceptedConnection = none then some s.info_.toRequest else none

/-- The set-up in `createPassiveConnection` succeeds. -/
structure Ready (results : Results) : Prop where
  pd : results.pd = true
  qp : 0 ≤ results.qp
  recvNotify : 0 ≤ results.recvNotify
  sendNotify : 0 ≤ results.sendNotify

/-- A connection is bound, its request is accepted, and the callback is called. -/
def served (request : Request) (id : Nat) (ret : Int) : List Event :=
  .bind request.rc id :: .rdmaAccept (some id) ret :: .accepted request.rc id ::
    (request.aCb.map (Event.callback · request.acceptorParam)).toList

/-- The event says nothing about registrations and requests. -/
def Quiet (e : Event) : Prop :=
  use e = none ∧ accepted? e = none ∧ succeeded? e = none ∧ bound? e = none ∧ callback? e = none

/-- Each request that was accepted has taken the registration that was there, and is bound to its
connection, and no connection is bound to two requests. Each registration has been taken by one
request, and then its callback has been called, or is still there. The requests that were accepted
are those for which `rdma_accept` has succeeded. The registration that is there serves the request
that comes next, where the connection is new and `rdma_accept` succeeds for it. -/
structure Pairs (log : List Event) (s : RdmaAcceptor) : Prop where
  missed : (Slot.slot use log).missed = 0
  registered : Slot.registered use log = (Slot.slot use log).consumed ++ (armed s).toList
  paired : (log.filterMap accepted?).map Prod.fst = (Slot.slot use log).consumed.map Request.rc
  bound : (log.filterMap accepted?).Sublist (log.filterMap bound?)
  nodup : ((log.filterMap bound?).map Prod.fst).Nodup
  callbacks : log.filterMap callback? = (Slot.slot use log).consumed.filterMap
    fun request => request.aCb.map (·, request.acceptorParam)
  succeeded : log.filterMap succeeded? = (log.filterMap accepted?).map fun pair => some pair.2
  serves : ∀ request id (results : Results), armed s = some request →
    (s.connections request.rc).channels = false → Ready results → 0 ≤ results.accept →
    ∃ es t, (s.step (.handleRead (some (.connectRequest id results)))).Yields
        (.request id :: (served request id results.accept ++ es)) t ∧
      (∀ e ∈ es, Quiet e) ∧ armed t = none

/-- A registration is made where none waits to be used. A request for which `rdma_accept` succeeds
finds one that has not been used, and its connection can be set up and has not been bound. -/
def Careful (s : RdmaAcceptor) : Op → Prop
  | .onAccept _ => armed s = none
  | .handleRead (some (.connectRequest _ results)) => s.info_.valid = true → 0 ≤ results.accept →
      s.getAcceptedConnection = none ∧ (s.connections s.info_.rc).channels = false ∧ Ready results
  | _ => True

/-! ### The invariant -/

/-- What every careful step keeps. -/
structure Inv (log : List Event) (s : RdmaAcceptor) : Prop where
  armed_eq : (Slot.slot use log).armed = armed s
  missed : (Slot.slot use log).missed = 0
  replaced : (Slot.slot use log).replaced = []
  paired : (log.filterMap accepted?).map Prod.fst = (Slot.slot use log).consumed.map Request.rc
  bound : (log.filterMap accepted?).Sublist (log.filterMap bound?)
  nodup : ((log.filterMap bound?).map Prod.fst).Nodup
  callbacks : log.filterMap callback? = (Slot.slot use log).consumed.filterMap
    fun request => request.aCb.map (·, request.acceptorParam)
  succeeded : log.filterMap succeeded? = (log.filterMap accepted?).map fun pair => some pair.2
  /-- A connection that has been bound keeps its channels. -/
  channels : ∀ rc ∈ (log.filterMap bound?).map Prod.fst, (s.connections rc).channels = true

section Step
variable {log es : List Event} {s t : RdmaAcceptor}

/-- Nothing that matters has happened. -/
theorem Inv.quiet (h : Inv log s) (hquiet : ∀ e ∈ es, Quiet e) (harmed : armed t = armed s)
    (hchannels : ∀ rc, (s.connections rc).channels = true → (t.connections rc).channels = true) :
    Inv (log ++ es) t := by
  have hslot : Slot.slot use (log ++ es) = Slot.slot use log :=
    Slot.slot_append_of_none fun e he => (hquiet e he).1
  have haccepted : (log ++ es).filterMap accepted? = log.filterMap accepted? :=
    Traced.filterMap_append_of_none fun e he => (hquiet e he).2.1
  have hbound : (log ++ es).filterMap bound? = log.filterMap bound? :=
    Traced.filterMap_append_of_none fun e he => (hquiet e he).2.2.2.1
  refine ⟨?_, ?_, ?_, ?_, ?_, ?_, ?_, ?_, ?_⟩
  · rw [hslot, harmed, h.armed_eq]
  · rw [hslot, h.missed]
  · rw [hslot, h.replaced]
  · rw [hslot, haccepted, h.paired]
  · rw [haccepted, hbound]
    exact h.bound
  · rw [hbound]
    exact h.nodup
  · rw [hslot, Traced.filterMap_append_of_none fun e he => (hquiet e he).2.2.2.2, h.callbacks]
  · rw [haccepted, Traced.filterMap_append_of_none fun e he => (hquiet e he).2.2.1, h.succeeded]
  · rw [hbound]
    exact fun rc hrc => hchannels rc (h.channels rc hrc)

/-- The connections that have been bound, with one more. -/
theorem Inv.nodup_append (h : Inv log s) {rc id : Nat}
    (hfree : (s.connections rc).channels = false) :
    ((log.filterMap bound? ++ [(rc, id)]).map Prod.fst).Nodup := by
  have hnot : rc ∉ (log.filterMap bound?).map Prod.fst :=
    fun hmem => Bool.false_ne_true (hfree.symm.trans (h.channels rc hmem))
  rw [List.map_append]
  exact h.nodup.append (List.nodup_singleton rc) (List.disjoint_singleton.mpr hnot)

/-- The connections that have been bound have channels, and so has one more. -/
theorem Inv.channels_append (h : Inv log s) {rc id : Nat} (ht : (t.connections rc).channels = true)
    (hchannels : ∀ r, (s.connections r).channels = true → (t.connections r).channels = true) :
    ∀ r ∈ (log.filterMap bound? ++ [(rc, id)]).map Prod.fst, (t.connections r).channels = true := by
  intro r hr
  rw [List.map_append] at hr
  rcases List.mem_append.mp hr with hr | hr
  · exact hchannels r (h.channels r hr)
  · obtain rfl := List.mem_singleton.mp hr
    exact ht

/-- A connection is bound, and its request is not accepted. -/
theorem Inv.bind (h : Inv log s) {rc id : Nat} (hfree : (s.connections rc).channels = false)
    (harmed : armed t = armed s) (ht : (t.connections rc).channels = true)
    (hchannels : ∀ r, (s.connections r).channels = true → (t.connections r).channels = true) :
    Inv (log ++ [.bind rc id]) t := by
  have hslot : Slot.slot use (log ++ [.bind rc id]) = Slot.slot use log := Slot.slot_snoc ..
  have haccepted : (log ++ [Event.bind rc id]).filterMap accepted? = log.filterMap accepted? :=
    Traced.filterMap_append_of_none fun e he => by rw [List.mem_singleton.mp he]; rfl
  have hbound : (log ++ [Event.bind rc id]).filterMap bound? = log.filterMap bound? ++ [(rc, id)] :=
    List.filterMap_append
  have hcallbacks : (log ++ [Event.bind rc id]).filterMap callback? = log.filterMap callback? :=
    Traced.filterMap_append_of_none fun e he => by rw [List.mem_singleton.mp he]; rfl
  have hsucceeded : (log ++ [Event.bind rc id]).filterMap succeeded? = log.filterMap succeeded? :=
    Traced.filterMap_append_of_none fun e he => by rw [List.mem_singleton.mp he]; rfl
  refine ⟨?_, ?_, ?_, ?_, ?_, ?_, ?_, ?_, ?_⟩
  · rw [hslot, harmed, h.armed_eq]
  · rw [hslot, h.missed]
  · rw [hslot, h.replaced]
  · rw [hslot, haccepted, h.paired]
  · rw [haccepted, hbound]
    exact h.bound.trans (List.sublist_append_left _ _)
  · rw [hbound]
    exact h.nodup_append hfree
  · rw [hslot, hcallbacks, h.callbacks]
  · rw [hsucceeded, haccepted, h.succeeded]
  · rw [hbound]
    exact h.channels_append ht hchannels

/-- A request is accepted for the registration that is there. -/
theorem Inv.serve (h : Inv log s) {request : Request} {id : Nat} {ret : Int}
    (harmed : armed s = some request) (hfree : (s.connections request.rc).channels = false)
    (hret : 0 ≤ ret) (hcleared : armed t = none)
    (ht : (t.connections request.rc).channels = true)
    (hchannels : ∀ r, (s.connections r).channels = true → (t.connections r).channels = true) :
    Inv (log ++ served request id ret) t := by
  -- of the trace only the acceptance counts as a use of the request
  have hslot : Slot.slot use (log ++ served request id ret) = { Slot.slot use log with
      armed := none, consumed := (Slot.slot use log).consumed ++ [request] } := by
    have hassoc : log ++ served request id ret =
        log ++ [.bind request.rc id, .rdmaAccept (some id) ret] ++ [.accepted request.rc id] ++
          (request.aCb.map (Event.callback · request.acceptorParam)).toList := by
      simp [served]
    have hbefore : ∀ e ∈ [Event.bind request.rc id, .rdmaAccept (some id) ret], use e = none := by
      simp [use]
    have hbehind : ∀ e ∈ (request.aCb.map (Event.callback · request.acceptorParam)).toList,
        use e = none := by
      intro e he
      obtain ⟨aCb, -, rfl⟩ := Option.map_eq_some_iff.mp (Option.mem_toList.mp he)
      rfl
    rw [hassoc, Slot.slot_append_of_none hbehind, Slot.slot_snoc, Slot.slot_append_of_none hbefore]
    exact Slot.after_take_of_some (h.armed_eq.trans harmed)
  -- in each list the pair of this acceptance is the last entry
  have haccepted : (log ++ served request id ret).filterMap accepted? =
      log.filterMap accepted? ++ [(request.rc, id)] := by
    rw [List.filterMap_append, served]
    cases request.aCb <;> rfl
  have hbound : (log ++ served request id ret).filterMap bound? =
      log.filterMap bound? ++ [(request.rc, id)] := by
    rw [List.filterMap_append, served]
    cases request.aCb <;> rfl
  have hcallbacks : (log ++ served request id ret).filterMap callback? =
      log.filterMap callback? ++ (request.aCb.map (·, request.acceptorParam)).toList := by
    rw [List.filterMap_append, served]
    cases request.aCb <;> rfl
  have hsucceeded : (log ++ served request id ret).filterMap succeeded? =
      log.filterMap succeeded? ++ [some id] := by
    have hsome : succeeded? (.rdmaAccept (some id) ret) = some (some id) := if_pos hret
    rw [List.filterMap_append, served, List.filterMap_cons_none rfl,
      List.filterMap_cons_some hsome]
    cases request.aCb <;> rfl
  refine ⟨?_, ?_, ?_, ?_, ?_, ?_, ?_, ?_, ?_⟩
  · rw [hslot, hcleared]
  · rw [hslot]
    exact h.missed
  · rw [hslot]
    exact h.replaced
  · rw [hslot, haccepted, List.map_append, List.map_append, h.paired]
    rfl
  · rw [haccepted, hbound]
    exact h.bound.append (List.Sublist.refl _)
  · rw [hbound]
    exact h.nodup_append hfree
  · rw [hslot, hcallbacks, h.callbacks, List.filterMap_append]
    cases hcb : request.aCb with
    | none => simp [hcb]
    | some aCb => simp [hcb]
  · rw [hsucceeded, haccepted, h.succeeded, List.map_append]
    rfl
  · rw [hbound]
    exact h.channels_append ht hchannels

/-! ### What `createPassiveConnection` does -/

/-- A connection that gets an id keeps its channels, and so do the others. -/
theorem channels_set {rc r : Nat} {connection : Passive}
    (hfree : (s.connections rc).channels = false)
    (hr : (s.connections r).channels = true) :
    ((s.set rc connection).connections r).channels = true := by
  have hne : r ≠ rc := by
    rintro rfl
    exact Bool.false_ne_true (hfree.symm.trans hr)
  rwa [set_of_ne hne]

/-- The connection is bound, or nothing that matters happens. -/
theorem createPassiveConnection_cases {rc id : Nat} {results : Results} {ret : Int}
    (h : (s.createPassiveConnection rc id results).Yields es (ret, t)) :
    t.info_ = s.info_ ∧
    (∀ r, (s.connections r).channels = true → (t.connections r).channels = true) ∧
    (((s.connections rc).channels = false ∧ es = [.bind rc id] ∧
        (t.connections rc).channels = true) ∨ ∀ e ∈ es, Quiet e) := by
  unfold createPassiveConnection at h
  cases hchannels : (s.connections rc).channels with
  | true =>
      -- the connection has its channels already
      rw [if_pos hchannels] at h
      obtain ⟨rfl, hpair⟩ := (Traced.pure_yields ..).mp h
      obtain ⟨-, rfl⟩ := Prod.mk.inj hpair
      exact ⟨rfl, fun _ hr => hr, .inr fun e he => absurd he List.not_mem_nil⟩
  | false =>
      rw [if_neg (by rw [hchannels]; exact Bool.false_ne_true)] at h
      -- the calls are made in turn, and the first that fails ends the function
      have hkeeps : ∀ connection r, (s.connections r).channels = true →
          ((s.set rc connection).connections r).channels = true :=
        fun connection r => channels_set hchannels
      have hfails : ∀ fs : List Event, (∀ e ∈ fs, Quiet e) →
          (Traced.tell fs >>= fun _ => pure (S_FALSE, s.set rc { id_ := some id })).Yields es
            (ret, t) →
          t.info_ = s.info_ ∧
          (∀ r, (s.connections r).channels = true → (t.connections r).channels = true) ∧
          ∀ e ∈ es, Quiet e := by
        intro fs hfs hyields
        obtain ⟨rfl, hpair⟩ := (Traced.tell_pure_yields ..).mp hyields
        obtain ⟨-, rfl⟩ := Prod.mk.inj hpair
        exact ⟨rfl, hkeeps _, hfs⟩
      have hinr : ∀ {A B C D : Prop}, A ∧ B ∧ D → A ∧ B ∧ (C ∨ D) :=
        fun h => ⟨h.1, h.2.1, .inr h.2.2⟩
      dsimp only at h
      split at h
      · refine hinr (hfails _ ?_ h)
        simp [Quiet, use, accepted?, succeeded?, bound?, callback?]
      split at h
      · refine hinr (hfails _ ?_ h)
        simp [Quiet, use, accepted?, succeeded?, bound?, callback?]
      split at h
      · refine hinr (hfails _ ?_ h)
        simp [Quiet, use, accepted?, succeeded?, bound?, callback?]
      split at h
      · refine hinr (hfails _ ?_ h)
        simp [Quiet, use, accepted?, succeeded?, bound?, callback?]
      obtain ⟨rfl, hpair⟩ := (Traced.tell_pure_yields ..).mp h
      obtain ⟨-, rfl⟩ := Prod.mk.inj hpair
      refine ⟨rfl, fun r hr => ?_, .inl ⟨rfl, rfl, ?_⟩⟩
      · exact channels_set (by rw [set_self]) (hkeeps _ r hr)
      · rw [set_self]

/-- Where no call fails, a new connection is bound. -/
theorem createPassiveConnection_ready {rc id : Nat} {results : Results}
    (hfree : (s.connections rc).channels = false) (hready : Ready results) :
    (s.createPassiveConnection rc id results).Yields [.bind rc id]
      (S_OK, (s.set rc { id_ := some id }).set rc { id_ := some id, channels := true }) := by
  unfold createPassiveConnection
  rw [if_neg (by rw [hfree]; exact Bool.false_ne_true)]
  simp only [hready.pd, Bool.not_true, Bool.false_eq_true, if_false,
    if_neg (Int.not_lt.mpr hready.qp), if_neg (Int.not_lt.mpr hready.recvNotify),
    if_neg (Int.not_lt.mpr hready.sendNotify)]
  exact (Traced.tell_pure_yields ..).mpr ⟨rfl, rfl⟩

/-- The connection `rc` is bound to the request, and nothing else that matters happens. -/
def Binds (s : RdmaAcceptor) (rc id : Nat) (es : List Event) (t : RdmaAcceptor) : Prop :=
  ∃ mid, (s.connections rc).channels = false ∧ es = .bind rc id :: mid ∧ (∀ e ∈ mid, Quiet e) ∧
    (t.connections rc).channels = true

/-- `establishConection` where no registration is valid, or `rdma_accept` fails. -/
theorem establishConection_fails {id : Nat} {results : Results} {ret : Int}
    (hfails : ¬ (s.info_.valid = true ∧ 0 ≤ results.accept))
    (h : (s.establishConection id results).Yields es (ret, t)) :
    t.info_ = s.info_ ∧
    (∀ r, (s.connections r).channels = true → (t.connections r).channels = true) ∧
    (Binds s s.info_.rc id es t ∨ ∀ e ∈ es, Quiet e) ∧ ret < 0 := by
  unfold establishConection at h
  cases hvalid : s.info_.valid with
  | false =>
      simp only [hvalid, Bool.not_false, if_true] at h
      obtain ⟨rfl, hpair⟩ := (Traced.pure_yields ..).mp h
      obtain ⟨rfl, rfl⟩ := Prod.mk.inj hpair
      exact ⟨rfl, fun _ hr => hr, .inr fun e he => absurd he List.not_mem_nil, by decide⟩
  | true =>
      have hneg : results.accept < 0 := Int.not_le.mp fun haccept => hfails ⟨hvalid, haccept⟩
      simp only [hvalid, Bool.not_true, Bool.false_eq_true, if_false, if_pos hneg] at h
      obtain ⟨fs, ⟨ret', u⟩, gs, hcreate, hbehind, rfl⟩ := Traced.bind_yields.mp h
      obtain ⟨hinfo, hmono, hcases⟩ := createPassiveConnection_cases hcreate
      -- behind the set-up only `rdma_accept` and a line of the log
      obtain ⟨ks, hrest, rfl⟩ := (Traced.tell_bind_yields ..).mp hbehind
      obtain ⟨rfl, hpair⟩ := (Traced.tell_pure_yields ..).mp hrest
      obtain ⟨rfl, rfl⟩ := Prod.mk.inj hpair
      have hquiet : ∀ x, ∀ e ∈ [Event.rdmaAccept x results.accept] ++
          [.log "accept connection error."], Quiet e := by
        simp [Quiet, use, accepted?, succeeded?, bound?, callback?, hneg]
      refine ⟨hinfo, hmono, ?_, by decide⟩
      rcases hcases with ⟨hfree, rfl, ht⟩ | hfs
      · exact .inl ⟨_, hfree, rfl, hquiet _, ht⟩
      · exact .inr fun e he => (List.mem_append.mp he).elim (hfs e) (hquiet _ e)

/-- `establishConection` where the connection is new and no call fails. -/
theorem establishConection_accepts {id : Nat} {results : Results} (hvalid : s.info_.valid = true)
    (hfree : (s.connections s.info_.rc).channels = false) (hready : Ready results)
    (haccept : 0 ≤ results.accept) :
    (s.establishConection id results).Yields
      [.bind s.info_.rc id, .rdmaAccept (some id) results.accept]
      (S_OK, (s.set s.info_.rc { id_ := some id }).set s.info_.rc
        { id_ := some id, channels := true }) := by
  unfold establishConection
  simp only [hvalid, Bool.not_true, Bool.false_eq_true, if_false,
    if_neg (Int.not_lt.mpr haccept)]
  refine Traced.bind_yields.mpr ⟨_, _, _, createPassiveConnection_ready hfree hready, ?_, rfl⟩
  have hid : (((s.set s.info_.rc { id_ := some id }).set s.info_.rc
      { id_ := some id, channels := true }).connections s.info_.rc).id_ = some id :=
    congrArg Passive.id_ (set_self ..)
  exact (Traced.tell_pure_yields ..).mpr ⟨congrArg ([Event.rdmaAccept · results.accept]) hid.symm,
    rfl⟩

/-- The end of `handleRead` changes nothing. -/
theorem ack_yields (h : s.ack.Yields es t) :
    (∀ e ∈ es, Quiet e) ∧ t.info_ = s.info_ ∧ t.connections = s.connections := by
  obtain ⟨rfl, rfl⟩ := (Traced.tell_pure_yields ..).mp h
  exact ⟨by simp [Quiet, use, accepted?, succeeded?, bound?, callback?], rfl, rfl⟩

theorem armed_congr (h : t.info_ = s.info_) : armed t = armed s := by
  unfold armed getAcceptedConnection
  rw [h]

theorem Inv.ack (h : Inv log s) (hstep : s.ack.Yields es t) : Inv (log ++ es) t := by
  obtain ⟨hquiet, hinfo, hconnections⟩ := ack_yields hstep
  exact h.quiet hquiet (armed_congr hinfo) fun rc hrc => by rw [hconnections]; exact hrc

/-- A connection is bound, and its request is not accepted. -/
theorem Inv.binds (h : Inv log s) {rc id : Nat} (hbinds : Binds s rc id es t)
    (harmed : armed t = armed s)
    (hmono : ∀ r, (s.connections r).channels = true → (t.connections r).channels = true) :
    Inv (log ++ es) t := by
  obtain ⟨mid, hfree, rfl, hmid, ht⟩ := hbinds
  rw [List.append_cons]
  exact (h.bind hfree harmed ht hmono).quiet hmid rfl fun _ hr => hr

/-- Behind a request that was accepted no registration is there. -/
theorem armed_of_accepted (h : t.info_.isAccepted = true) : armed t = none := by
  refine if_neg fun hand => ?_
  have haccepted : t.getAcceptedConnection = some t.info_.rc := if_pos ⟨hand.1, h⟩
  exact Option.some_ne_none _ (haccepted.symm.trans hand.2)

/-- The state in which a request has been accepted. -/
def accept (id : Nat) (s : RdmaAcceptor) : RdmaAcceptor :=
  { (s.set s.info_.rc { id_ := some id }).set s.info_.rc { id_ := some id, channels := true } with
    info_ := { s.info_ with isAccepted := true } }

/-- The registration that is there serves the request. -/
theorem connectRequest_serves {request : Request} {results : Results} (id : Nat)
    (harmed : armed s = some request) (hfree : (s.connections request.rc).channels = false)
    (hready : Ready results) (haccept : 0 ≤ results.accept) :
    ∃ fs u, (s.handleRead (some (.connectRequest id results))).Yields
        (.request id :: (served request id results.accept ++ fs)) u ∧
      (∀ e ∈ fs, Quiet e) ∧ armed u = none ∧ (u.connections request.rc).channels = true ∧
      ∀ r, (s.connections r).channels = true → (u.connections r).channels = true := by
  unfold armed at harmed
  split at harmed
  case isFalse => exact absurd harmed.symm (Option.some_ne_none _)
  case isTrue hthere =>
    obtain rfl := Option.some.inj harmed
    have hbound : ((accept id s).connections s.info_.rc).channels = true :=
      congrArg Passive.channels (set_self ..)
    have hmono : ∀ r, (s.connections r).channels = true →
        ((accept id s).connections r).channels = true :=
      fun r hr => channels_set (by rw [set_self]) (channels_set hfree hr)
    -- the callback is called, or the event is acknowledged
    cases hcb : s.info_.aCb with
    | some aCb =>
        refine ⟨[], { accept id s with inCallback := true }, ?_,
          fun e he => absurd he List.not_mem_nil, armed_of_accepted rfl, hbound, hmono⟩
        simp only [served, hcb, Option.map_some, Option.toList_some, List.append_nil]
        refine (Traced.tell_bind_yields ..).mpr ⟨_, Traced.bind_yields.mpr
          ⟨_, _, _, establishConection_accepts hthere.1 hfree hready haccept, ?_, rfl⟩, rfl⟩
        refine (Traced.tell_bind_yields ..).mpr ⟨_, ?_, rfl⟩
        simp only [RdmaAcceptor.set, hcb]
        exact (Traced.tell_pure_yields ..).mpr ⟨rfl, rfl⟩
    | none =>
        refine ⟨[.ack, .returned S_OK], { accept id s with inCallback := false }, ?_, ?_,
          armed_of_accepted rfl, hbound, hmono⟩
        · simp only [served, hcb, Option.map_none, Option.toList_none]
          refine (Traced.tell_bind_yields ..).mpr ⟨_, Traced.bind_yields.mpr
            ⟨_, _, _, establishConection_accepts hthere.1 hfree hready haccept, ?_, rfl⟩, rfl⟩
          refine (Traced.tell_bind_yields ..).mpr ⟨_, ?_, rfl⟩
          simp only [RdmaAcceptor.set, hcb]
          exact (Traced.tell_pure_yields ..).mpr ⟨rfl, rfl⟩
        · simp [Quiet, use, accepted?, succeeded?, bound?, callback?]

/-- A connect request. -/
theorem Inv.connectRequest (h : Inv log s) {id : Nat} {results : Results}
    (hcareful : Careful s (.handleRead (some (.connectRequest id results))))
    (hstep : (s.handleRead (some (.connectRequest id results))).Yields es t) :
    Inv (log ++ es) t := by
  -- the request itself says nothing yet
  have hbegin : Inv (log ++ [.request id]) s := by
    refine h.quiet (fun e he => ?_) rfl fun _ hr => hr
    rw [List.mem_singleton.mp he]
    exact ⟨rfl, rfl, rfl, rfl, rfl⟩
  by_cases hgood : s.info_.valid = true ∧ 0 ≤ results.accept
  · obtain ⟨hunused, hfree, hready⟩ := hcareful hgood.1 hgood.2
    have harmed : armed s = some s.info_.toRequest := if_pos ⟨hgood.1, hunused⟩
    obtain ⟨fs, u, hserves, hquiet, hcleared, hchannels, hmono⟩ :=
      connectRequest_serves id harmed hfree hready hgood.2
    obtain ⟨rfl, rfl⟩ := hstep.unique hserves
    rw [List.append_cons, ← List.append_assoc]
    exact (hbegin.serve harmed hfree hgood.2 hcleared hchannels hmono).quiet hquiet rfl
      fun _ hr => hr
  · obtain ⟨fs, hbody, rfl⟩ := (Traced.tell_bind_yields ..).mp hstep
    obtain ⟨gs, ⟨ret, u⟩, ks, hestablish, hrest, rfl⟩ := Traced.bind_yields.mp hbody
    obtain ⟨hinfo, hmono, hbinds, hneg⟩ := establishConection_fails hgood hestablish
    have harmed : armed u = armed s := armed_congr hinfo
    dsimp only at hrest
    rw [if_pos hneg] at hrest
    obtain ⟨rfl, rfl⟩ := (Traced.tell_pure_yields ..).mp hrest
    have hend : ∀ e ∈ [Event.log "eatablish a connection error.", .returned S_FALSE], Quiet e := by
      simp [Quiet, use, accepted?, succeeded?, bound?, callback?]
    rw [← List.append_assoc, ← List.append_assoc]
    rcases hbinds with hbinds | hquiet
    · exact (hbegin.binds hbinds harmed hmono).quiet hend rfl fun _ hr => hr
    · exact (hbegin.quiet hquiet harmed hmono).quiet hend rfl fun _ hr => hr

/-- Every careful step keeps the invariant. -/
theorem Inv.step {op : Op} (h : Inv log s) (hcareful : Careful s op)
    (hstep : (s.step op).Yields es t) : Inv (log ++ es) t := by
  cases op with
  | onAccept request =>
      obtain ⟨rfl, rfl⟩ := (Traced.tell_pure_yields ..).mp hstep
      -- no request was armed, so none is replaced
      have hslot : Slot.slot use (log ++ [.onAccept request]) =
          { Slot.slot use log with armed := some request } := by
        rw [Slot.slot_snoc]
        exact Slot.after_put_of_none (h.armed_eq.trans hcareful)
      have hnone : ∀ {β : Type} {f : Event → Option β}, f (.onAccept request) = none →
          (log ++ [Event.onAccept request]).filterMap f = log.filterMap f :=
        fun hf => Traced.filterMap_append_of_none fun e he => by rw [List.mem_singleton.mp he, hf]
      refine ⟨?_, ?_, ?_, ?_, ?_, ?_, ?_, ?_, ?_⟩
      · rw [hslot]
        rfl
      · rw [hslot]
        exact h.missed
      · rw [hslot]
        exact h.replaced
      · rw [hslot, hnone (f := accepted?) rfl]
        exact h.paired
      · rw [hnone (f := accepted?) rfl, hnone (f := bound?) rfl]
        exact h.bound
      · rw [hnone (f := bound?) rfl]
        exact h.nodup
      · rw [hslot, hnone (f := callback?) rfl]
        exact h.callbacks
      · rw [hnone (f := succeeded?) rfl, hnone (f := accepted?) rfl]
        exact h.succeeded
      · rw [hnone (f := bound?) rfl]
        exact h.channels
  | handleRead event =>
      cases event with
      | none =>
          obtain ⟨rfl, rfl⟩ := (Traced.tell_pure_yields ..).mp hstep
          exact h.quiet (by simp [Quiet, use, accepted?, succeeded?, bound?, callback?]) rfl
            fun _ hr => hr
      | some event =>
          cases event with
          | connectRequest id results => exact h.connectRequest hcareful hstep
          | established | other => exact h.ack hstep
          | disconnected rc =>
              -- the shutdown is in none of the lists, and the acknowledgment follows
              obtain ⟨fs, hack, rfl⟩ := (Traced.tell_bind_yields ..).mp hstep
              have hshutdown : Inv (log ++ [.shutdown rc]) s :=
                h.quiet (by simp [Quiet, use, accepted?, succeeded?, bound?, callback?]) rfl
                  fun _ hr => hr
              rw [← List.append_assoc]
              exact hshutdown.ack hack
  | returns => exact h.ack hstep

/-- What the invariant says of the requests that come. -/
theorem Inv.pairs (h : Inv log s) : Pairs log s where
  missed := h.missed
  registered := by rw [← h.armed_eq]; exact Slot.registered_eq h.replaced
  paired := h.paired
  bound := h.bound
  nodup := h.nodup
  callbacks := h.callbacks
  succeeded := h.succeeded
  serves request id results harmed hfree hready haccept := by
    obtain ⟨fs, u, hserves, hquiet, hcleared, -⟩ :=
      connectRequest_serves id harmed hfree hready haccept
    exact ⟨fs, u, hserves, hquiet, hcleared⟩

end Step

/-- In a run whose steps are all careful, each request that is accepted takes a registration that
has not been used, and is bound to its connection, which no other request is bound to. Each
registration has been taken by one request, and then its callback has run, or is still there and
serves the next request that can be accepted. -/
theorem pairs_of_careful {ops : List Op} {log : List Event} {s : RdmaAcceptor}
    (hrun : Traced.Run RdmaAcceptor.step (fun s op => Possible s op ∧ Careful s op) {} ops log s) :
    Pairs log s := by
  have hstart : Inv [] ({} : RdmaAcceptor) :=
    ⟨rfl, rfl, rfl, rfl, List.Sublist.refl _, List.nodup_nil, rfl, rfl,
      fun rc hrc => absurd hrc List.not_mem_nil⟩
  have hinv : Inv log s := hrun.invariant (P := fun _ log s => Inv log s) hstart
    fun _ _ _ _ _ _ h hok hstep => h.step hok.2 hstep
  exact hinv.pairs

/-- Two registrations, the second one in the callback of the first. -/
theorem pairs_of_careful_two : ∃ log s,
    Traced.Run RdmaAcceptor.step (fun s op => Possible s op ∧ Careful s op) {}
      [.onAccept { rc := 1, aCb := some 10 }, .handleRead (some (.connectRequest 100 {})),
        .onAccept { rc := 2 }, .returns, .handleRead (some (.connectRequest 200 {}))] log s ∧
    log.filterMap accepted? = [(1, 100), (2, 200)] ∧ Pairs log s := by
  have hrun : ∃ log s,
      Traced.Run RdmaAcceptor.step (fun s op => Possible s op ∧ Careful s op) {}
        [.onAccept { rc := 1, aCb := some 10 }, .handleRead (some (.connectRequest 100 {})),
          .onAccept { rc := 2 }, .returns, .handleRead (some (.connectRequest 200 {}))] log s ∧
      log.filterMap accepted? = [(1, 100), (2, 200)] := by
    have hready : Ready {} := by constructor <;> decide
    refine ⟨_, _, .snoc (.snoc (.snoc (.snoc (.snoc (l := []) .nil ?first ⟨rfl, rfl⟩) ?read
      ⟨rfl, rfl⟩) ?second ⟨rfl, rfl⟩) ?returns ⟨rfl, rfl⟩) ?again ⟨rfl, rfl⟩, rfl⟩
    case first => exact ⟨trivial, rfl⟩
    case read => exact ⟨rfl, fun _ _ => ⟨rfl, rfl, hready⟩⟩
    case second => exact ⟨trivial, rfl⟩
    case returns => exact ⟨rfl, trivial⟩
    case again => exact ⟨rfl, fun _ _ => ⟨rfl, rfl, hready⟩⟩
  obtain ⟨log, s, hrun, haccepted⟩ := hrun
  exact ⟨log, s, hrun, haccepted, pairs_of_careful hrun⟩

/-- One registration, and two requests. Where both are accepted, it is for the one connection, which
is bound to the first, and the callback runs twice. Where `rdma_accept` fails at first, the second
request is accepted for the connection that is bound to the first. -/
theorem accepted_twice :
    (∃ log s, Traced.Run RdmaAcceptor.step Possible {}
        [.onAccept { rc := 1, aCb := some 10 }, .handleRead (some (.connectRequest 100 {})),
          .returns, .handleRead (some (.connectRequest 200 {}))] log s ∧
      log.filterMap accepted? = [(1, 100), (1, 200)] ∧ log.filterMap bound? = [(1, 100)] ∧
      log.filterMap callback? = [(10, 0), (10, 0)] ∧ ¬ Pairs log s) ∧
    ∃ log s, Traced.Run RdmaAcceptor.step Possible {}
        [.onAccept { rc := 1 }, .handleRead (some (.connectRequest 100 { accept := -1 })),
          .handleRead (some (.connectRequest 200 {}))] log s ∧
      log.filterMap accepted? = [(1, 200)] ∧ log.filterMap bound? = [(1, 100)] ∧
      ¬ Pairs log s := by
  constructor
  · have hrun : ∃ log s, Traced.Run RdmaAcceptor.step Possible {}
          [.onAccept { rc := 1, aCb := some 10 }, .handleRead (some (.connectRequest 100 {})),
            .returns, .handleRead (some (.connectRequest 200 {}))] log s ∧
        log.filterMap accepted? = [(1, 100), (1, 200)] ∧ log.filterMap bound? = [(1, 100)] ∧
        log.filterMap callback? = [(10, 0), (10, 0)] := by
      refine ⟨_, _, .snoc (.snoc (.snoc (.snoc (l := []) .nil trivial ⟨rfl, rfl⟩) ?_ ⟨rfl, rfl⟩) ?_
        ⟨rfl, rfl⟩) ?_ ⟨rfl, rfl⟩, rfl, rfl, rfl⟩
      all_goals exact rfl
    obtain ⟨log, s, hrun, haccepted, hbound, hcallback⟩ := hrun
    refine ⟨log, s, hrun, haccepted, hbound, hcallback, fun hpairs => ?_⟩
    -- two requests are accepted and one is bound
    have hle := hpairs.bound.length_le
    rw [haccepted, hbound] at hle
    exact absurd hle (by decide)
  · have hrun : ∃ log s, Traced.Run RdmaAcceptor.step Possible {}
          [.onAccept { rc := 1 }, .handleRead (some (.connectRequest 100 { accept := -1 })),
            .handleRead (some (.connectRequest 200 {}))] log s ∧
        log.filterMap accepted? = [(1, 200)] ∧ log.filterMap bound? = [(1, 100)] := by
      refine ⟨_, _, .snoc (.snoc (.snoc (l := []) .nil trivial ⟨rfl, rfl⟩) ?_ ⟨rfl, rfl⟩) ?_
        ⟨rfl, rfl⟩, rfl, rfl⟩
      all_goals exact rfl
    obtain ⟨log, s, hrun, haccepted, hbound⟩ := hrun
    refine ⟨log, s, hrun, haccepted, hbound, fun hpairs => ?_⟩
    -- the connection is bound to another request
    have hmem := hpairs.bound.subset (haccepted ▸ List.mem_singleton_self (1, 200))
    rw [hbound] at hmem
    exact absurd hmem (by decide)

end Ndsl.Proofs.RdmaAcceptor
