import Ndsl.Proofs.RdmaClient.Owns

/-!
# `Ndsl.Proofs.RdmaClient.Lives`: the life of a client

`Life` says what a client is for, without a word about memory: it becomes ready, is connected once,
and is over. `refines` shows that the client does just that.

`lives` is about every run of the steps that a client is made for, with whatever the connection
manager reports: the client does nothing with an object that is not there, what it has not released
is known, its user hears of the connection once at most, and every step comes to its end but two.
An attempt that gets an unexpected event, and the deletion of a client that has refused an event,
wait for an acknowledgement that nobody makes.

`unmade` is about a client that was never initialised. Not even its destructor may be called.
`agreeRecvData` does not look at what `initCmChannel` returns, and goes on with `onConnect`.
-/

set_option autoImplicit false

namespace Ndsl.Proofs.RdmaClient

open Ndsl.Lib
open Ndsl.Net (S_OK S_FALSE RdmaClient)
open Ndsl.Net.RdmaClient

/-! ### The abstract life -/

/-- How far a client has come. -/
inductive Stage
  | new
  | ready
  | connected
  | ended
  deriving Repr, DecidableEq

/-- The life of a client: its stage, the callback that waits for the connection, how many events it
has refused, and the callbacks that were called. -/
structure Life where
  stage : Stage := .new
  cb : Option Nat := none
  param : Nat := 0
  refused : Nat := 0
  told : List (Nat × Nat) := []
  deriving Repr, DecidableEq

namespace Life

/-- A connection comes once, to a client that is ready for it, and goes once. -/
def hear (l : Life) : CmEvent → Life
  | .established recvNotify sendNotify =>
      if l.stage = .ready ∧ 0 ≤ recvNotify ∧ 0 ≤ sendNotify then
        { l with
          stage := .connected
          told := l.told ++ l.cb.toList.map fun cb => (cb, l.param) }
      else { l with refused := l.refused + 1 }
  | .disconnected =>
      if l.stage = .connected then { l with stage := .ended }
      else { l with refused := l.refused + 1 }
  | _ => l

/-- What a step does. The deletion of the client is none of its stages. -/
def next (l : Life) : Op → Life
  | .initCmChannel a => if l.stage = .new ∧ Succeeds a then { l with stage := .ready } else l
  | .onConnect cb param _ => { l with cb := cb, param := param }
  | .handleCmEvent (some event) => l.hear event
  | _ => l

end Life

/-- The callback that an event of the trace calls. -/
def toldOf : Event → Option (Nat × Nat)
  | .callback cb param => some (cb, param)
  | _ => none

/-- The stage of a client. -/
def stageOf (client : RdmaClient) : Stage :=
  if client.cmChannel_ = none then .new
  else if client.isConnected = true then .connected
  else if client.sendCqChannel_ = true then .ended
  else .ready

/-- What the life of a client is in a state, behind a trace. -/
def lifeOf (s : System) (log : List Event) : Life :=
  { stage := stageOf s.client
    cb := s.client.cb_
    param := s.client.cbParam_
    refused := s.unacked.length
    told := log.filterMap toldOf }

section Refinement
variable {s s' : System} {held : Finset Object} {log es : List Event}

/-- No callback is called. -/
def Silent {α : Type} (x : Traced Event α) : Prop :=
  x.Ensures (fun e => toldOf e = none) fun _ => True

namespace Silent
variable {α β : Type} {x : Traced Event α} {f : α → Traced Event β}

theorem told (h : Silent x) {a : α} (hx : x.Yields es a) : es.filterMap toldOf = [] :=
  List.filterMap_eq_nil_iff.mpr (hx.1 ▸ h.acts)

theorem pure {a : α} : Silent (pure a) := Traced.Ensures.pure trivial

theorem fault : Silent (Traced.fault : Traced Event α) := Traced.Ensures.fault

theorem bind (hx : Silent x) (hf : ∀ a, Silent (f a)) : Silent (x >>= f) :=
  Traced.Ensures.bind hx fun a _ => hf a

theorem tell {es : List Event} (h : ∀ e ∈ es, toldOf e = none) : Silent (Traced.tell es) :=
  ⟨h, fun _ _ => trivial⟩

theorem deed (d : Deed Object) : Silent (Traced.tell [.deed d]) := tell (by simp [toldOf])

theorem message (message : String) : Silent (Traced.tell [.log message]) := tell (by simp [toldOf])

end Silent

theorem destroyId_silent (n : Nat) (t : System) : Silent (destroyId n t) := by
  unfold destroyId
  split
  · exact .bind (.tell (by simp [toldOf])) fun _ => .fault
  · exact .deed _

theorem resolveFailed_silent (n : Nat) (t : System) : Silent (resolveFailed n t) :=
  (destroyId_silent n t).bind fun _ => .bind (.deed _) fun _ => .pure

theorem getCmEvent_silent (n : Nat) (t : System) : Silent (getCmEvent n t) :=
  .bind (.deed _) fun _ => .pure

theorem ackCmEvent_silent (t : System) : Silent (ackCmEvent t) := .bind (.deed _) fun _ => .pure

theorem createQp_silent (n : Nat) : Silent (createQp n) :=
  .bind (.deed _) fun _ => .bind (.deed _) fun _ => .bind (.deed _) fun _ =>
    .bind (.deed _) fun _ => .deed _

theorem initQp_silent (n : Nat) (a : Attempt) (t : System) : Silent (initQp n a t) := by
  refine .bind (.deed _) fun _ => ?_
  split
  · exact .bind (.message _) fun _ => resolveFailed_silent n t
  · refine .bind (.deed _) fun _ => ?_
    split
    · exact .bind (.message _) fun _ => .bind (.deed _) fun _ => resolveFailed_silent n t
    · exact (createQp_silent n).bind fun _ => .bind (.deed _) fun _ => .pure

theorem initRoute_silent (n : Nat) (a : Attempt) (t : System) : Silent (initRoute n a t) := by
  refine .bind (.deed _) fun _ => ?_
  split
  · exact .bind (.message _) fun _ => resolveFailed_silent n t
  · split
    · exact resolveFailed_silent n t
    · refine (getCmEvent_silent n t).bind fun u => ?_
      split
      · exact resolveFailed_silent n u
      · exact (ackCmEvent_silent u).bind fun u => initQp_silent n a u

theorem initAddr_silent (n : Nat) (a : Attempt) (t : System) : Silent (initAddr n a t) := by
  refine .bind (.deed _) fun _ => ?_
  split
  · exact .bind (.message _) fun _ => resolveFailed_silent n t
  · split
    · exact resolveFailed_silent n t
    · refine (getCmEvent_silent n t).bind fun u => ?_
      split
      · exact resolveFailed_silent n u
      · exact (ackCmEvent_silent u).bind fun u => initRoute_silent n a u

theorem initCmChannel_silent (a : Attempt) (t : System) : Silent (initCmChannel a t) := by
  refine .bind (.deed _) fun _ => ?_
  dsimp only
  split
  · exact .pure
  · refine .bind (.deed _) fun _ => ?_
    split
    · exact .bind (.message _) fun _ => .bind (.deed _) fun _ => .pure
    · exact .bind (.deed _) fun _ => initAddr_silent _ a _

theorem delete_silent (t : System) : Silent (delete t) := by
  refine .bind (.tell ?_) fun _ => .bind (.tell ?_) fun _ => .bind (.tell ?_) fun _ =>
    .bind (.deed _) fun _ => ?_
  · simp [toldOf]
  · split <;> simp [toldOf]
  · split <;> simp [toldOf]
  · split
    · exact .fault
    · exact .bind (.deed _) fun _ => .bind (.deed _) fun _ =>
        (destroyId_silent _ t).bind fun _ => .bind (.deed _) fun _ => .pure

/-- `createActiveConnection` calls nobody either, and fails when the event is refused. -/
theorem createActiveConnection_ensures (recvNotify sendNotify : Int) (t : System)
    (hchannels : t.client.recvCqChannel_ = t.client.sendCqChannel_) :
    (createActiveConnection recvNotify sendNotify t).Ensures (fun e => toldOf e = none) fun r =>
      (r.1 = S_OK ↔ ¬ Refused t.client (.established recvNotify sendNotify)) ∧
        r.2.client.cb_ = t.client.cb_ ∧ r.2.client.cbParam_ = t.client.cbParam_ := by
  have hdeed : ∀ d : Deed Object, ∀ e ∈ [Event.deed d], toldOf e = none := by simp [toldOf]
  have hmessage : ∀ m : String, ∀ e ∈ [Event.log m], toldOf e = none := by simp [toldOf]
  unfold createActiveConnection
  split
  next hthere =>
    rw [hchannels, or_self] at hthere
    exact .pure ⟨iff_of_false nofun (not_not_intro (.inl hthere)), rfl, rfl⟩
  next hthere =>
    rw [hchannels, or_self] at hthere
    refine .tell_bind (hdeed _) (.tell_bind (hdeed _) (.tell_bind (hdeed _)
      (.tell_bind (hdeed _) ?_)))
    split
    next hr =>
      refine .tell_bind (hmessage _) (.pure ⟨iff_of_false nofun (not_not_intro ?_), rfl, rfl⟩)
      exact .inr (.inl hr)
    next hr =>
      refine .tell_bind (hdeed _) ?_
      split
      next hw =>
        refine .tell_bind (hmessage _) (.pure ⟨iff_of_false nofun (not_not_intro ?_), rfl, rfl⟩)
        exact .inr (.inr hw)
      next hw =>
        refine .tell_bind (hdeed _) (.tell_bind (hdeed _) (.pure ⟨iff_of_true rfl ?_, rfl, rfl⟩))
        exact fun hrefused => hrefused.elim hthere fun hfail => hfail.elim hr hw

theorem told_callback (cb : Option Nat) (param : Nat) :
    (cb.toList.map fun cb => Event.callback cb param).filterMap toldOf =
      cb.toList.map fun cb => (cb, param) := by
  cases cb <;> rfl

/-- What is told when an event comes: that the connection is there, if it is not refused. -/
def toldBy (client : RdmaClient) : Option CmEvent → List (Nat × Nat)
  | some (.established recvNotify sendNotify) =>
      if Refused client (.established recvNotify sendNotify) then []
      else client.cb_.toList.map fun cb => (cb, client.cbParam_)
  | _ => []

theorem told_handleCmEvent (hchannels : s.client.recvCqChannel_ = s.client.sendCqChannel_)
    {e : Option CmEvent} {r : Int × System} (hx : (handleCmEvent e s).Yields es r) :
    es.filterMap toldOf = toldBy s.client e := by
  cases e with
  | none =>
      refine Silent.told ?_ hx
      exact .bind (.deed _) fun _ => .bind (.deed _) fun _ => .bind (.message _) fun _ => .pure
  | some event =>
      cases event with
      | established recvNotify sendNotify =>
          obtain ⟨es₁, h₁, rfl⟩ := (Traced.tell_bind_yields ..).mp hx
          obtain ⟨es₂, h₂, rfl⟩ := (Traced.tell_bind_yields ..).mp h₁
          obtain ⟨es₃, t, es₄, hgot, h₃, rfl⟩ := Traced.bind_yields.mp h₂
          obtain ⟨es₅, hpure, rfl⟩ := (Traced.tell_bind_yields ..).mp hgot
          obtain ⟨rfl, rfl⟩ := (Traced.pure_yields ..).mp hpure
          obtain ⟨es₆, ⟨ret, u⟩, es₇, hcreate, h₄, rfl⟩ := Traced.bind_yields.mp h₃
          have hensures := createActiveConnection_ensures recvNotify sendNotify
            (got (s.client.id_.getD 0) s) hchannels
          have hquiet := Silent.told ⟨hensures.acts, fun _ _ => trivial⟩ hcreate
          obtain ⟨hok, hcb, hparam⟩ := hensures.value _ hcreate.2
          dsimp only at h₄ hcb hparam
          split at h₄
          next hret =>
            obtain ⟨es₈, h₅, rfl⟩ := (Traced.tell_bind_yields ..).mp h₄
            obtain ⟨rfl, -⟩ := (Traced.pure_yields ..).mp h₅
            have hrefused : Refused s.client (.established recvNotify sendNotify) :=
              Decidable.not_not.mp fun hnot => hret (hok.mpr hnot)
            rw [toldBy, if_pos hrefused]
            simp only [List.filterMap_append, hquiet]
            rfl
          next hret =>
            obtain ⟨es₈, h₅, rfl⟩ := (Traced.tell_bind_yields ..).mp h₄
            obtain ⟨es₉, h₆, rfl⟩ := (Traced.tell_bind_yields ..).mp h₅
            have hrest := (Silent.bind (ackCmEvent_silent _) fun _ => .pure).told h₆
            have hrefused : ¬ Refused s.client (.established recvNotify sendNotify) :=
              hok.mp (Decidable.not_not.mp hret)
            rw [toldBy, if_neg hrefused]
            simp only [List.filterMap_append, hquiet, hrest, told_callback, List.append_nil]
            rw [hcb, hparam]
            rfl
      | disconnected =>
          refine Silent.told (.bind (.deed _) fun _ => .bind (.deed _) fun _ =>
            (getCmEvent_silent _ s).bind fun t => ?_) hx
          dsimp only
          split
          · exact .bind (.message _) fun _ => .pure
          · refine .bind (.bind (.deed _) fun _ => .bind (.tell (by simp [toldOf])) fun _ => .pure)
              fun _ => .bind (.message _) fun _ => (ackCmEvent_silent _).bind fun _ => .pure
      | _ =>
          refine Silent.told (.bind (.deed _) fun _ => .bind (.deed _) fun _ =>
            (getCmEvent_silent _ s).bind fun t => ?_) hx
          exact .bind (.message _) fun _ => (ackCmEvent_silent _).bind fun _ => .pure

/-- A call, with the event that says what it has returned. -/
theorem call_yields {x : Traced Event (Int × System)} (hx : (call x).Yields es s') :
    ∃ fs r, x.Yields fs r ∧ s' = r.2 ∧ es.filterMap toldOf = fs.filterMap toldOf := by
  obtain ⟨fs, r, gs, hcall, hrest, rfl⟩ := Traced.bind_yields.mp hx
  obtain ⟨gs, hpure, rfl⟩ := (Traced.tell_bind_yields ..).mp hrest
  obtain ⟨rfl, rfl⟩ := (Traced.pure_yields ..).mp hpure
  exact ⟨fs, r, hcall, rfl, by simp [toldOf]⟩

/-- The stage of a client that has got through `initCmChannel`. -/
theorem Inv.stage_ready (h : Inv s held) {n : Nat} (hn : s.client.cmChannel_ = some n) :
    stageOf s.client = .ready ↔ s.client.sendCqChannel_ = false := by
  have hconnected := h.connected
  unfold stageOf
  rw [if_neg (hn ▸ Option.some_ne_none n)]
  cases hup : s.client.isConnected <;> cases hsend : s.client.sendCqChannel_ <;>
    simp_all

theorem Inv.stage_connected {n : Nat} (hn : s.client.cmChannel_ = some n) :
    stageOf s.client = .connected ↔ s.client.isConnected = true := by
  unfold stageOf
  rw [if_neg (hn ▸ Option.some_ne_none n)]
  cases s.client.isConnected <;> cases s.client.sendCqChannel_ <;> simp

theorem Inv.refused_established (h : Inv s held) {n : Nat} (hn : s.client.cmChannel_ = some n)
    (recvNotify sendNotify : Int) :
    Refused s.client (.established recvNotify sendNotify) ↔
      ¬ (stageOf s.client = .ready ∧ 0 ≤ recvNotify ∧ 0 ≤ sendNotify) := by
  rw [h.stage_ready hn]
  unfold Refused
  cases s.client.sendCqChannel_
  · simp only [Bool.false_eq_true, false_or, true_and]
    omega
  · simp

theorem Inv.refused_disconnected {n : Nat} (hn : s.client.cmChannel_ = some n) :
    Refused s.client .disconnected ↔ stageOf s.client ≠ .connected := by
  rw [Ne, Inv.stage_connected hn]
  exact Bool.not_eq_true _ ▸ Iff.rfl

/-- The abstract life follows what `handleCmEvent` does. -/
theorem refines_handled (h : Inv s held) {n : Nat} (hn : s.client.cmChannel_ = some n)
    {e : Option CmEvent} {r : Int × System} {after : Finset Object}
    (hcase : Handled n s held e r after) (htold : es.filterMap toldOf = toldBy s.client e) :
    lifeOf r.2 (log ++ es) = (lifeOf s log).next (.handleCmEvent e) := by
  have hlog : (log ++ es).filterMap toldOf = log.filterMap toldOf ++ toldBy s.client e := by
    rw [List.filterMap_append, htold]
  cases hcase with
  | nothing =>
      rw [lifeOf, hlog]
      simp [toldBy, Life.next, lifeOf]
  | refused event hrefused =>
      cases event with
      | established recvNotify sendNotify =>
          have hnot := (h.refused_established hn _ _).mp hrefused
          rw [lifeOf, hlog, toldBy, if_pos hrefused, List.append_nil]
          exact (if_neg hnot).symm
      | disconnected =>
          have hnot := (Inv.refused_disconnected hn).mp hrefused
          have hnobody : toldBy s.client (some .disconnected) = [] := rfl
          rw [lifeOf, hlog, hnobody, List.append_nil]
          exact (if_neg hnot).symm
      | _ => exact hrefused.elim
  | established recvNotify sendNotify hrefused =>
      have hready := Decidable.not_not.mp (mt (h.refused_established hn _ _).mpr hrefused)
      have hstage : stageOf { s.client with
          sendCqChannel_ := true, recvCqChannel_ := true, isConnected := true } = .connected :=
        (Inv.stage_connected (s := { s with client := { s.client with
          sendCqChannel_ := true, recvCqChannel_ := true, isConnected := true } }) hn).mpr rfl
      rw [lifeOf, hlog, toldBy, if_neg hrefused]
      refine Eq.trans ?_ (if_pos hready).symm
      rw [hstage]
      rfl
  | disconnected hup =>
      have hconnected := Decidable.not_not.mp (mt (Inv.refused_disconnected hn).mpr hup)
      have hsend := h.connected ((Inv.stage_connected hn).mp hconnected)
      have hnobody : toldBy s.client (some .disconnected) = [] := rfl
      have hstage : stageOf { s.client with isConnected := false } = .ended := by
        simp [stageOf, hn, hsend]
      rw [lifeOf, hlog, hnobody, List.append_nil]
      refine Eq.trans ?_ (if_pos hconnected).symm
      rw [hstage]
      rfl
  | other event hestablished hdisconnected =>
      cases event with
      | established recvNotify sendNotify => exact absurd rfl (hestablished _ _)
      | disconnected => exact absurd rfl hdisconnected
      | _ =>
          rw [lifeOf, hlog]
          simp [toldBy, Life.next, Life.hear, lifeOf]

/-- A step that calls nobody. -/
theorem lifeOf_silent (htold : es.filterMap toldOf = []) :
    lifeOf s' (log ++ es) = lifeOf s' log := by
  rw [lifeOf, List.filterMap_append, htold, List.append_nil]
  rfl

/-- The deletion of a client ends no stage. -/
theorem lifeOf_delete (h : Inv s held) {n work : Nat} (hn : s.client.cmChannel_ = some n)
    (hgone : s.gone = false) (hstep : (delete { s with work := work }).Yields es s') :
    lifeOf s' (log ++ es) = lifeOf s log := by
  obtain ⟨after, -, rfl, -, -⟩ := (delete_keeps h hn hgone work).of_yields hstep
  exact lifeOf_silent ((delete_silent _).told hstep)

/-- The abstract life follows the client. -/
theorem refines (h : Inv s held) {op : Op} (hfine : Fine s op)
    (hstep : (step s op).Yields es s') : lifeOf s' (log ++ es) = (lifeOf s log).next op := by
  cases op with
  | initCmChannel a =>
      obtain ⟨fs, r, hcall, rfl, htold⟩ := call_yields hstep
      obtain ⟨after, -, -, hunacked, hsucceeded, hfailed⟩ :=
        (h.initCmChannel hfine a).of_yields hcall
      rw [lifeOf_silent (htold.trans ((initCmChannel_silent a s).told hcall)), lifeOf, hunacked]
      by_cases ha : Succeeds a
      · obtain ⟨-, hclient⟩ := hsucceeded ha
        obtain ⟨hsend, -, -⟩ := h.unmade hfine
        have hdown : s.client.isConnected ≠ true :=
          fun hup => Bool.noConfusion (hsend.symm.trans (h.connected hup))
        have hstage : stageOf r.2.client = .ready := by
          simp [stageOf, hclient, hdown, hsend]
        have hnew : stageOf s.client = .new := if_pos hfine
        rw [hstage, hclient]
        exact (if_pos ⟨hnew, ha⟩).symm
      · have hstill : (lifeOf s log).next (.initCmChannel a) = lifeOf s log :=
          if_neg fun hand => ha hand.2
        rw [hstill]
        obtain ⟨-, -, hclient | ⟨-, -, hclient⟩⟩ := hfailed ha
        · rw [hclient]
          rfl
        · rw [hclient]
          rfl
  | onConnect cb param ret =>
      obtain ⟨fs, r, hcall, rfl, htold⟩ := call_yields hstep
      have hsilent : Silent (onConnect cb param ret s) := .bind (.deed _) fun _ => .bind (.deed _)
        fun _ => .bind (.tell (by simp [toldOf])) fun _ => .pure
      obtain rfl : r = _ := (Option.some.inj hcall.2).symm
      exact lifeOf_silent (htold.trans (hsilent.told hcall))
  | disconnect ret =>
      obtain ⟨fs, r, hcall, rfl, htold⟩ := call_yields hstep
      have hsilent : Silent (disconnect ret s) := .bind (.deed _) fun _ => .bind (.deed _)
        fun _ => .bind (.tell (by simp [toldOf])) fun _ => .pure
      obtain rfl : r = _ := (Option.some.inj hcall.2).symm
      exact lifeOf_silent (htold.trans (hsilent.told hcall))
  | handleCmEvent e =>
      obtain ⟨fs, r, hcall, rfl, htold⟩ := call_yields hstep
      obtain ⟨hne, hgone⟩ := hfine.there
      obtain ⟨n, hn⟩ := Option.ne_none_iff_exists'.mp hne
      obtain ⟨after, -, hcase⟩ := (handleCmEvent_keeps h hn hgone e).of_yields hcall
      exact refines_handled h hn hcase (htold.trans (told_handleCmEvent h.channels hcall))
  | shutdown =>
      have hsilent : Silent (shutdown s) :=
        .bind (.deed _) fun _ => .bind (.tell (by simp [toldOf])) fun _ => .pure
      obtain rfl : s' = _ := (Option.some.inj hstep.2).symm
      exact lifeOf_silent (hsilent.told hstep)
  | destroyConnection =>
      have hqueued : s.work ≠ 0 := Nat.ne_of_gt hfine
      have hgone : s.gone = false :=
        Bool.eq_false_of_not_eq_true fun hgone => hqueued (h.finished hgone).1
      obtain ⟨n, hn⟩ := Option.ne_none_iff_exists'.mp fun hnone => hqueued (h.unmade hnone).2.1
      exact lifeOf_delete h hn hgone hstep
  | delete =>
      obtain ⟨hne, hgone, -⟩ := hfine
      obtain ⟨n, hn⟩ := Option.ne_none_iff_exists'.mp hne
      exact lifeOf_delete h hn hgone hstep

end Refinement

/-! ### What returns -/

/-- An attempt that gets another event than the one that it waits for. It goes to the clean-up
without the acknowledgement of the event, and `rdma_destroy_id` waits for it. -/
def Hangs (a : Attempt) : Prop :=
  a.createEventChannel = true ∧ 0 ≤ a.createId ∧ 0 ≤ a.resolveAddr ∧
    ((∃ e, a.addrEvent = some e ∧ e ≠ .addrResolved) ∨
      a.addrEvent = some .addrResolved ∧ 0 ≤ a.resolveRoute ∧
        ∃ e, a.routeEvent = some e ∧ e ≠ .routeResolved)

section Returning
variable {s : System} {n : Nat} {a : Attempt} {held : Finset Object}

theorem resolveFailed_value : (resolveFailed n s).value = none ↔ ∃ e ∈ s.unacked, e.1 = n := by
  unfold resolveFailed destroyId
  split
  next h => exact iff_of_true rfl h
  next h => exact iff_of_false nofun h

/-- An attempt waits for an event: it hangs when it is another one. -/
theorem await_value {event expected : CmEvent} {next : System → Traced Event (Int × System)}
    (hunacked : s.unacked = []) :
    (getCmEvent n s >>= fun s => if event ≠ expected then resolveFailed n s
      else ackCmEvent s >>= next).value =
        if event ≠ expected then none else (next { s with events := s.events + 1 }).value := by
  have hgot : (getCmEvent n s).value = some (got n s) := rfl
  have hack : (ackCmEvent (got n s)).value = some { s with events := s.events + 1 } := by
    simp [ackCmEvent, release, got, hunacked]
  rw [Traced.bind_of_some _ hgot]
  dsimp only
  split
  next hother =>
    exact resolveFailed_value.mpr ⟨(n, s.events), List.mem_cons_self, rfl⟩
  next => rw [Traced.bind_of_some _ hack]

theorem createQp_value (n : Nat) : (createQp n).value = some () := rfl

theorem initQp_value (hunacked : s.unacked = []) : (initQp n a s).value ≠ none := by
  have hfailed : (resolveFailed n s).value ≠ none := by simp [resolveFailed_value, hunacked]
  unfold initQp
  simp only [use, acquire, Traced.value_tell_bind]
  split
  · exact hfailed
  · split
    · simpa [createQpFailed, release] using hfailed
    · rw [Traced.bind_of_some _ (createQp_value n)]
      exact nofun

theorem initRoute_value (hunacked : s.unacked = []) :
    (initRoute n a s).value = none ↔
      0 ≤ a.resolveRoute ∧ ∃ e, a.routeEvent = some e ∧ e ≠ .routeResolved := by
  have hfailed : (resolveFailed n s).value ≠ none := by simp [resolveFailed_value, hunacked]
  unfold initRoute
  simp only [use, Traced.value_tell_bind]
  split
  next hroute => exact iff_of_false hfailed fun h => absurd h.1 (Int.not_le.mpr hroute)
  next hroute =>
    have hroute := Int.not_lt.mp hroute
    cases hevent : a.routeEvent with
    | none => exact iff_of_false hfailed (by simp)
    | some event =>
        dsimp only
        rw [await_value hunacked]
        split
        next hother => exact iff_of_true rfl ⟨hroute, event, rfl, hother⟩
        next hother =>
          refine iff_of_false (initQp_value hunacked) fun ⟨_, e, he, hne⟩ => ?_
          exact hother (Option.some.inj he ▸ hne)

theorem initAddr_value (hunacked : s.unacked = []) :
    (initAddr n a s).value = none ↔ 0 ≤ a.resolveAddr ∧
      ((∃ e, a.addrEvent = some e ∧ e ≠ .addrResolved) ∨
        a.addrEvent = some .addrResolved ∧ 0 ≤ a.resolveRoute ∧
          ∃ e, a.routeEvent = some e ∧ e ≠ .routeResolved) := by
  have hfailed : (resolveFailed n s).value ≠ none := by simp [resolveFailed_value, hunacked]
  unfold initAddr
  simp only [use, Traced.value_tell_bind]
  split
  next haddr => exact iff_of_false hfailed fun h => absurd h.1 (Int.not_le.mpr haddr)
  next haddr =>
    have haddr := Int.not_lt.mp haddr
    cases hevent : a.addrEvent with
    | none => exact iff_of_false hfailed (by simp)
    | some event =>
        dsimp only
        rw [await_value hunacked]
        split
        next hother => exact iff_of_true rfl ⟨haddr, .inl ⟨event, rfl, hother⟩⟩
        next hother =>
          obtain rfl : event = .addrResolved := Decidable.not_not.mp hother
          rw [initRoute_value (by exact hunacked)]
          simp [haddr]

/-- An attempt hangs on such an event, and comes to its end otherwise. -/
theorem initCmChannel_value (hunacked : s.unacked = []) :
    (initCmChannel a s).value = none ↔ Hangs a := by
  unfold initCmChannel Hangs
  simp only [use, acquire, Traced.value_tell_bind]
  split
  next hchannel => exact iff_of_false nofun fun h => nomatch hchannel.symm.trans h.1
  next hchannel =>
    rw [Traced.value_tell_bind]
    split
    next hid => exact iff_of_false nofun fun h => absurd h.2.1 (Int.not_le.mpr hid)
    next hid =>
      rw [Traced.value_tell_bind, initAddr_value (by exact hunacked)]
      simp [Bool.eq_true_of_not_eq_false hchannel, Int.not_lt.mp hid]

theorem createActiveConnection_value (recvNotify sendNotify : Int) :
    ∃ r, (createActiveConnection recvNotify sendNotify s).value = some r := by
  unfold createActiveConnection
  split
  · exact ⟨_, rfl⟩
  · simp only [use, Traced.value_tell_bind]
    split
    · exact ⟨_, rfl⟩
    · split <;> exact ⟨_, rfl⟩

/-- An event is handled, whatever it is. -/
theorem handleCmEvent_value (e : Option CmEvent) : (handleCmEvent e s).value ≠ none := by
  unfold handleCmEvent
  simp only [use, Traced.value_tell_bind]
  have hgot : ∀ n, (getCmEvent n s).value = some (got n s) := fun _ => rfl
  cases e with
  | none => exact nofun
  | some event =>
      dsimp only
      rw [Traced.bind_of_some _ (hgot _)]
      cases event with
      | established recvNotify sendNotify =>
          obtain ⟨r, hr⟩ := createActiveConnection_value (s := got (s.client.id_.getD 0) s)
            recvNotify sendNotify
          dsimp only
          rw [Traced.bind_of_some _ hr]
          dsimp only
          split <;> exact nofun
      | disconnected =>
          dsimp only
          split <;> exact nofun
      | _ => exact nofun

/-- A client that has got through `initCmChannel` cannot be deleted while an event of it has not
been acknowledged. -/
theorem delete_value (h : Inv s held) (hn : s.client.cmChannel_ = some n) (work : Nat) :
    (delete { s with work := work }).value = none ↔ s.unacked ≠ [] := by
  have hid := (h.id_eq n hn).1
  have hmem : (∃ e ∈ s.unacked, e.1 = n) ↔ s.unacked ≠ [] := by
    constructor
    · rintro ⟨e, he, -⟩
      exact List.ne_nil_of_mem he
    · intro hne
      obtain ⟨e, he⟩ := List.exists_mem_of_ne_nil _ hne
      exact ⟨e, he, Option.some.inj ((h.numbers e he).2.symm.trans hn)⟩
  unfold delete
  simp only [use, release, Traced.value_tell_bind, hid, destroyId]
  split
  next hex => exact iff_of_true rfl (hmem.mp hex)
  next hex => exact iff_of_false nofun fun hne => hex (hmem.mpr hne)

/-- The steps that do not come to their end. -/
def Waits (s : System) : Op → Prop
  | .initCmChannel a => Hangs a
  | .destroyConnection | .delete => s.unacked ≠ []
  | _ => False

theorem step_value (h : Inv s held) {op : Op} (hfine : Fine s op) :
    (step s op).value = none ↔ Waits s op := by
  have hcall : ∀ x : Traced Event (Int × System), (call x).value = none ↔ x.value = none := by
    intro x
    rw [call, Traced.value_bind]
    cases x.value with
    | none => exact iff_of_true rfl rfl
    | some r => exact iff_of_false nofun nofun
  cases op with
  | initCmChannel a => exact (hcall _).trans (initCmChannel_value (h.unacked_eq_nil hfine))
  | handleCmEvent e => exact iff_of_false (mt (hcall _).mp (handleCmEvent_value e)) id
  | destroyConnection =>
      obtain ⟨n, hn⟩ := Option.ne_none_iff_exists'.mp fun hnone =>
        Nat.ne_of_gt hfine (h.unmade hnone).2.1
      exact delete_value h hn _
  | delete =>
      obtain ⟨n, hn⟩ := Option.ne_none_iff_exists'.mp hfine.1
      exact delete_value h hn _
  | _ => exact iff_of_false nofun id

end Returning

/-! ### Whole lives -/

/-- The deeds of a trace. -/
def deeds (log : List Event) : List (Deed Object) := log.filterMap deedOf

/-- The life that these steps make. -/
def life (ops : List Op) : Life := ops.foldl Life.next {}

/-- A client hears of its connection once at most, and not before it is ready for it. -/
structure Life.Once (l : Life) : Prop where
  first : l.stage = .new ∨ l.stage = .ready → l.told = []
  once : l.told.length ≤ 1

theorem Life.Once.hear {l : Life} (h : l.Once) (event : CmEvent) : (l.hear event).Once := by
  cases event with
  | established recvNotify sendNotify =>
      rw [Life.hear]
      split
      next hready =>
        refine ⟨fun hstage => by simp at hstage, ?_⟩
        rw [h.first (.inr hready.1)]
        cases l.cb <;> simp
      next => exact ⟨h.first, h.once⟩
  | disconnected =>
      rw [Life.hear]
      split
      next => exact ⟨fun hstage => by simp at hstage, h.once⟩
      next => exact ⟨h.first, h.once⟩
  | _ => exact h

theorem Life.Once.next {l : Life} (h : l.Once) (op : Op) : (l.next op).Once := by
  cases op with
  | initCmChannel a =>
      rw [Life.next]
      split
      next hnew => exact ⟨fun _ => h.first (.inl hnew.1), h.once⟩
      next => exact h
  | onConnect cb param ret => exact ⟨h.first, h.once⟩
  | handleCmEvent e =>
      cases e with
      | none => exact h
      | some event => exact h.hear event
  | _ => exact h

theorem once_life (ops : List Op) : (life ops).Once := by
  induction ops using List.reverseRecOn with
  | nil => exact ⟨fun _ => rfl, Nat.zero_le _⟩
  | append_singleton ops op ih =>
      rw [life, List.foldl_append]
      exact ih.next op

/-- What holds of a client behind any steps that it is made for. -/
structure Lives (ops : List Op) (log : List Event) (s : System) : Prop where
  /-- No deed is done with an object that is not there, and what is there is as `Holds` says. -/
  owns : ∃ held, Deed.run {.client} (deeds log) = some held ∧ ∀ o, o ∈ held ↔ Holds s o
  /-- A client that was deleted has left behind what nobody destroys. -/
  left : s.gone = true → ∃ n, ∀ o, Holds s o ↔ o ∈ remains n
  /-- Its stage, its callbacks and the events that it has refused are those of the abstract life. -/
  life : lifeOf s log = life ops
  once : (log.filterMap toldOf).length ≤ 1
  /-- The next step comes to its end, unless it waits for an acknowledgement. -/
  waits : ∀ op, Fine s op → ((step s op).value = none ↔ Waits s op)

theorem Inv.left {s : System} {held : Finset Object} (h : Inv s held) (hgone : s.gone = true) :
    ∃ n, ∀ o, Holds s o ↔ o ∈ remains n := by
  obtain ⟨n, hn⟩ := Option.ne_none_iff_exists'.mp fun hnone =>
    Bool.noConfusion (hgone.symm.trans (h.unmade hnone).2.2)
  refine ⟨n, fun o => ?_⟩
  rw [mem_remains]
  cases o <;> simp [Holds, hn, hgone, (h.finished hgone).2]
  all_goals exact eq_comm

/-- A client, from its constructor on. -/
theorem lives {ops : List Op} {log : List Event} {s : System}
    (hrun : Traced.Run step Fine {} ops log s) : Lives ops log s := by
  suffices h : (∃ held, Deed.run {.client} (deeds log) = some held ∧ Inv s held) ∧
      lifeOf s log = life ops by
    obtain ⟨⟨held, howns, hinv⟩, hlife⟩ := h
    refine ⟨⟨held, howns, hinv.holds⟩, hinv.left, hlife, ?_, fun op hfine => step_value hinv hfine⟩
    have htold : log.filterMap toldOf = (life ops).told := hlife ▸ rfl
    rw [htold]
    exact (once_life ops).once
  refine hrun.invariant (P := fun ops log s =>
    (∃ held, Deed.run {.client} (deeds log) = some held ∧ Inv s held) ∧ lifeOf s log = life ops)
    ⟨⟨_, rfl, .new⟩, rfl⟩ ?_
  rintro ops log s op es s' ⟨⟨held, howns, hinv⟩, hlife⟩ hfine hstep
  obtain ⟨held', hrun', hinv'⟩ := (hinv.step hfine).of_yields hstep
  refine ⟨⟨held', ?_, hinv'⟩, ?_⟩
  · rw [deeds, List.filterMap_append]
    exact (Deed.run_append_of_run howns).trans hrun'
  · rw [refines hinv hfine hstep, hlife, life, life, List.foldl_append]
    rfl

/-- An attempt fails at the route, and the next one succeeds. The connection comes and goes. -/
def wholeLife : List Op :=
  [.initCmChannel { resolveRoute := -1 }, .initCmChannel {}, .onConnect (some 5) 6 0,
    .handleCmEvent (some (.established 0 0)), .handleCmEvent (some .disconnected),
    .destroyConnection]

/-- The user hears of the connection, and what nobody destroys is left of the second attempt. -/
theorem lives_whole : ∃ log s, Traced.Run step Fine {} wholeLife log s ∧ Lives wholeLife log s ∧
    s.gone = true ∧ log.filterMap toldOf = [(5, 6)] ∧
    Deed.run {.client} (deeds log) = some (remains 1).toFinset := by
  have hrun : ∃ log s, Traced.Run step Fine {} wholeLife log s ∧
      s.gone = true ∧ log.filterMap toldOf = [(5, 6)] ∧
      Deed.run {.client} (deeds log) = some (remains 1).toFinset := by
    refine ⟨_, _, .snoc (.snoc (.snoc (.snoc (.snoc (.snoc (l := []) .nil
      ?fails ⟨rfl, rfl⟩) ?succeeds ⟨rfl, rfl⟩) ?connects ⟨rfl, rfl⟩) ?comes ⟨rfl, rfl⟩)
      ?goes ⟨rfl, rfl⟩) ?destroyed ⟨rfl, rfl⟩, rfl, rfl, ?left⟩
    case fails => rfl
    case succeeds => rfl
    case connects => exact ⟨nofun, rfl⟩
    case comes => exact ⟨nofun, rfl⟩
    case goes => exact ⟨nofun, rfl, fun _ => rfl⟩
    case destroyed => exact Nat.one_pos
    case left => rfl
  obtain ⟨log, s, hrun, hgone, htold, hleft⟩ := hrun
  exact ⟨log, s, hrun, lives hrun, hgone, htold, hleft⟩

/-! ### A client that was never initialised -/

/-- An attempt that fails. -/
def Fails : Op → Prop
  | .initCmChannel a => ¬ Succeeds a
  | _ => False

/-- An id that a client has was made. -/
def IdMade (s : System) (log : List Event) : Prop :=
  ∀ n, s.client.id_ = some n → .acquire (.cmId n) ∈ deeds log

/-- An attempt that gets as far as the id has made it. -/
theorem acquire_mem_initCmChannel {a : Attempt} (hchannel : a.createEventChannel = true)
    (hid : 0 ≤ a.createId) (s : System) :
    .acquire (.cmId s.attempts) ∈ deeds (step s (.initCmChannel a)).log := by
  have hlog : .deed (.acquire (.cmId s.attempts)) ∈ (initCmChannel a s).log := by
    simp [initCmChannel, use, acquire, hchannel, Int.not_lt.mpr hid]
  exact List.mem_filterMap.mpr ⟨_, Traced.mem_log_bind _ hlog, rfl⟩

/-- Attempts that fail leave nothing behind. -/
theorem failed_attempts {ops : List Op} {log : List Event} {s : System}
    (hrun : Traced.Run step Fine {} ops log s) (hfails : ∀ op ∈ ops, Fails op) :
    Deed.run {.client} (deeds log) = some {.client} ∧ Inv s {.client} ∧
      s.client.cmChannel_ = none ∧ IdMade s log := by
  refine hrun.invariant (P := fun ops log s => (∀ op ∈ ops, Fails op) →
    Deed.run {.client} (deeds log) = some {.client} ∧ Inv s {.client} ∧
      s.client.cmChannel_ = none ∧ IdMade s log) (fun _ => ⟨rfl, .new, rfl, nofun⟩) ?_ hfails
  intro ops log s op es s' ih hfine hstep hfails
  obtain ⟨hall, hlast⟩ := List.forall_mem_append.mp hfails
  obtain ⟨hdeeds, hinv, hnone, hmade⟩ := ih hall
  have hfails := hlast op (List.mem_singleton_self op)
  cases op with
  | initCmChannel a =>
      have hattempt := hinv.initCmChannel hnone a
      have hkept : Deed.Keeps deedOf {.client} (step s (.initCmChannel a)) fun t after =>
          after = {.client} ∧ Inv t {.client} ∧ (t.client = s.client ∨
            (a.createEventChannel = true ∧ 0 ≤ a.createId ∧
              t.client = { s.client with id_ := some s.attempts })) := by
        refine hattempt.bind fun r after hr => .tell_bind rfl (.pure ?_)
        obtain ⟨-, rfl, hclient⟩ := hr.2.2.2 hfails
        exact ⟨rfl, hr.1, hclient⟩
      obtain ⟨after, hmore, rfl, hinv', hclient⟩ := hkept.of_yields hstep
      have hlog : deeds (log ++ es) = deeds log ++ deeds es := List.filterMap_append
      have hdeeds' : Deed.run {.client} (deeds (log ++ es)) = some {.client} := by
        rw [hlog]
        exact (Deed.run_append_of_run hdeeds).trans hmore
      refine ⟨hdeeds', hinv', ?_⟩
      rcases hclient with hclient | ⟨hchannel, hid, hclient⟩
      · refine ⟨hclient ▸ hnone, fun n hn => ?_⟩
        rw [hlog]
        exact List.mem_append_left _ (hmade n (hclient ▸ hn))
      · rw [IdMade, hclient]
        refine ⟨hnone, fun n hn => ?_⟩
        obtain rfl := Option.some.inj hn
        rw [hlog]
        exact List.mem_append_right _ (hstep.1 ▸ acquire_mem_initCmChannel hchannel hid s)
  | _ => exact hfails.elim

/-- Another use of a client than `initCmChannel`: a call of the user, or the deletion. -/
def Touches : Op → Prop
  | .onConnect .. | .disconnect _ | .delete => True
  | _ => False

/-- `id_` is `NULL`, or points to an id that was destroyed. -/
def Dangling (s : System) (log : List Event) : Prop :=
  idOf s = .null ∨ ∃ n, idOf s = .cmId n ∧ .release (.cmId n) ∈ deeds log

/-- The step gets as far as the use of this object. -/
def Reaches (log : List Event) (x : Traced Event System) (o : Object) : Prop :=
  ∃ before after, deeds x.log = before ++ .use o :: after ∧
    Deed.run {.client} (deeds log ++ before) = some {.client}

/-- A client none of whose attempts has succeeded must not be used or deleted, however often
`initCmChannel` was called: the step uses `*id_`, which is not there. -/
theorem unmade {ops : List Op} {log : List Event} {s : System}
    (hrun : Traced.Run step Fine {} ops log s) (hfails : ∀ op ∈ ops, Fails op) :
    Deed.run {.client} (deeds log) = some {.client} ∧ Dangling s log ∧
      ∀ op, Touches op → Reaches log (step s op) (idOf s) ∧
        Deed.run {.client} (deeds (log ++ (step s op).log)) = none := by
  obtain ⟨hdeeds, hinv, hnone, hmade⟩ := failed_attempts hrun hfails
  have hid : idOf s ∉ ({.client} : Finset Object) := by
    rw [Finset.mem_singleton, idOf]
    split <;> simp
  have hdangling : Dangling s log := by
    cases hclient : s.client.id_ with
    | none => exact .inl (by rw [idOf, hclient])
    | some n =>
        have hcmId : idOf s = .cmId n := by rw [idOf, hclient]
        exact .inr ⟨n, hcmId, Deed.release_mem_of_acquire_mem hdeeds (hmade n hclient)
          (hcmId ▸ hid)⟩
  refine ⟨hdeeds, hdangling, fun op htouches => ?_⟩
  obtain ⟨hsend, -, -⟩ := hinv.unmade hnone
  have hclient : Object.client ∈ ({.client} : Finset Object) := Finset.mem_singleton_self _
  have hreaches : Reaches log (step s op) (idOf s) := by
    cases op with
    | delete =>
        have hlog : ∃ more, (step s .delete).log = .deed (.use (idOf s)) :: more := by
          simp [step, delete, use, hnone, hsend, hinv.channels.trans hsend]
        obtain ⟨more, hmore⟩ := hlog
        refine ⟨[], deeds more, by rw [hmore]; rfl, ?_⟩
        rw [List.append_nil, hdeeds]
    | onConnect cb param ret =>
        refine ⟨[.use .client], [], rfl, (Deed.run_append_of_run hdeeds).trans ?_⟩
        exact Deed.run_use hclient
    | disconnect ret =>
        refine ⟨[.use .client], [], rfl, (Deed.run_append_of_run hdeeds).trans ?_⟩
        exact Deed.run_use hclient
    | _ => exact htouches.elim
  refine ⟨hreaches, ?_⟩
  obtain ⟨before, after, hlog, hbefore⟩ := hreaches
  have hsplit : deeds (log ++ (step s op).log) =
      (deeds log ++ before) ++ .use (idOf s) :: after := by
    rw [deeds, List.filterMap_append, List.append_assoc]
    exact congrArg (_ ++ ·) hlog
  rw [hsplit, Deed.run_append_of_run hbefore]
  exact Deed.run_use_of_notMem hid

/-- A client whose only attempt has failed at the route. -/
theorem unmade_route : ∃ log s,
    Traced.Run step Fine {} [.initCmChannel { resolveRoute := -1 }] log s ∧
      Deed.run {.client} (deeds log) = some {.client} ∧ Dangling s log ∧
      ∀ op, Touches op → Reaches log (step s op) (idOf s) ∧
        Deed.run {.client} (deeds (log ++ (step s op).log)) = none := by
  have hrun : ∃ log s, Traced.Run step Fine {} [.initCmChannel { resolveRoute := -1 }] log s :=
    ⟨_, _, .snoc (l := []) .nil rfl ⟨rfl, rfl⟩⟩
  obtain ⟨log, s, hrun⟩ := hrun
  refine ⟨log, s, hrun, unmade hrun fun op hop => ?_⟩
  obtain rfl := List.mem_singleton.mp hop
  show ¬ Succeeds { resolveRoute := -1 }
  decide

end Ndsl.Proofs.RdmaClient
