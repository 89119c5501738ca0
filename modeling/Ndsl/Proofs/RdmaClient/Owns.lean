import Ndsl.Net.RdmaClient

/-!
# `Ndsl.Proofs.RdmaClient.Owns`: what a client holds

`Holds` says which objects are there in a state of the system: an attempt to initialise the client
that fails leaves nothing behind, and the deletion of a client that was initialised leaves what
nobody destroys (`remains`). `Inv.step` proves it of every step that a client is made for
(`Fine`), by the rules of `Deed.Keeps` along the code: no deed is done with an object that is not
there.
-/

set_option autoImplicit false

namespace Ndsl.Proofs.RdmaClient

open Ndsl.Lib
open Ndsl.Net (S_OK S_FALSE RdmaClient)
open Ndsl.Net.RdmaClient

/-! ### What a client holds -/

/-- The deed that an event of the trace is. -/
def deedOf : Event → Option (Deed Object)
  | .deed deed => some deed
  | _ => none

/-- A callback is none. -/
theorem deeds_callback (cb : Option Nat) (param : Nat) :
    (cb.toList.map fun cb => Event.callback cb param).filterMap deedOf = [] := by
  cases cb <;> rfl

/-- What a client that was deleted has left behind: the event channel and the completion queues of
its id, with their channels. -/
def remains (n : Nat) : List Object :=
  [.cq n .send, .compChannel n .send, .cq n .recv, .compChannel n .recv, .eventChannel n]

/-- What is held in a state: the client until it is deleted, what `initCmChannel` and
`createActiveConnection` have made until then, and for ever the event channel, the completion queues
with their channels, and the events that were not acknowledged. -/
def Holds (s : System) : Object → Prop
  | .null => False
  | .client => s.gone = false
  | .eventChannel n | .compChannel n _ | .cq n _ => s.client.cmChannel_ = some n
  | .cmId n | .pd n | .qp n | .cmChannel n => s.client.cmChannel_ = some n ∧ s.gone = false
  | .sendCqChannel => s.client.sendCqChannel_ = true ∧ s.gone = false
  | .recvCqChannel => s.client.recvCqChannel_ = true ∧ s.gone = false
  | .event k => ∃ n, (n, k) ∈ s.unacked

/-! ### `initCmChannel` -/

/-- Everything that is reported to the attempt is as it is to be. -/
def Succeeds (a : Attempt) : Prop :=
  a.createEventChannel = true ∧ 0 ≤ a.createId ∧ 0 ≤ a.resolveAddr ∧
    a.addrEvent = some .addrResolved ∧ 0 ≤ a.resolveRoute ∧ a.routeEvent = some .routeResolved ∧
    a.allocPd = true ∧ 0 ≤ a.createQp

instance (a : Attempt) : Decidable (Succeeds a) :=
  inferInstanceAs (Decidable (_ ∧ _))

section Attempts
variable {n : Nat} {a : Attempt} {s : System} {base held : Finset Object}
  {post : Int × System → Finset Object → Prop}

/-- What the attempt with this number makes is not there yet. -/
structure Fresh (n : Nat) (s : System) (base : Finset Object) : Prop where
  eventChannel : .eventChannel n ∉ base
  cmId : .cmId n ∉ base
  pd : .pd n ∉ base
  compChannel : ∀ queue, .compChannel n queue ∉ base
  cq : ∀ queue, .cq n queue ∉ base
  qp : .qp n ∉ base
  cmChannel : .cmChannel n ∉ base
  event : ∀ k, s.events ≤ k → .event k ∉ base

/-- What is held while the address and the route are resolved. -/
def resolving (n : Nat) (base : Finset Object) : Finset Object :=
  insert (.cmId n) (insert (.eventChannel n) base)

/-- What a successful attempt has made. -/
def made (n : Nat) (base : Finset Object) : Finset Object :=
  insert (.cmChannel n) (insert (.qp n) (insert (.cq n .send) (insert (.compChannel n .send)
    (insert (.cq n .recv) (insert (.compChannel n .recv) (insert (.pd n) (resolving n base)))))))

/-- The same, object by object. -/
def Made (n : Nat) : Object → Prop
  | .eventChannel m | .compChannel m _ | .cq m _ | .cmId m | .pd m | .qp m | .cmChannel m => m = n
  | _ => False

theorem mem_made {o : Object} : o ∈ made n base ↔ Made n o ∨ o ∈ base := by
  cases o with
  | compChannel m queue | cq m queue => cases queue <;> simp [made, resolving, Made]
  | _ => simp [made, resolving, Made]

/-- The end of an attempt in a system that has got as far as its id: it has made everything, or
released everything that it has made. -/
structure Attempted (n : Nat) (a : Attempt) (base : Finset Object) (s : System)
    (r : Int × System) (held : Finset Object) : Prop where
  succeeded : Succeeds a → r.1 = S_OK ∧ held = made n base ∧
    r.2.client = { s.client with cmChannel_ := some n }
  failed : ¬ Succeeds a → r.1 = S_FALSE ∧ held = base ∧ r.2.client = s.client
  others : s.events ≤ r.2.events ∧ r.2.unacked = s.unacked ∧ r.2.attempts = s.attempts ∧
    r.2.work = s.work ∧ r.2.gone = s.gone

theorem createIdFailed_keeps (h : Fresh n s base) :
    Deed.Keeps deedOf (insert (.eventChannel n) base) (createIdFailed n s) fun r held =>
      r = (S_FALSE, s) ∧ held = base := by
  refine .release_bind rfl (Finset.mem_insert_self ..) (.pure ⟨rfl, ?_⟩)
  exact Finset.erase_insert h.eventChannel

/-- When nothing is left to acknowledge, everything is released. -/
theorem resolveFailed_keeps (h : Fresh n s base) :
    Deed.Keeps deedOf (resolving n base) (resolveFailed n s) fun r held =>
      r = (S_FALSE, s) ∧ held = base := by
  have hcmId : Object.cmId n ∉ insert (Object.eventChannel n) base := by
    simpa using h.cmId
  unfold resolveFailed destroyId
  split
  · exact .stops_bind (.tell_bind rfl .fault)
  · refine .release_bind rfl (Finset.mem_insert_self ..) ?_
    rw [resolving, Finset.erase_insert hcmId]
    exact createIdFailed_keeps h

/-- Otherwise the execution stops. -/
theorem resolveFailed_waits (h : ∃ e ∈ s.unacked, e.1 = n) :
    Deed.Keeps deedOf held (resolveFailed n s) post := by
  unfold resolveFailed destroyId
  rw [if_pos h]
  exact .stops_bind (.tell_bind rfl .fault)

/-- A stage fails: everything that the attempt has made is released. -/
theorem stageFailed_keeps (h : Fresh n s base) (ha : ¬ Succeeds a) :
    Deed.Keeps deedOf (resolving n base) (resolveFailed n s) (Attempted n a base s) := by
  refine (resolveFailed_keeps h).mono ?_
  rintro r held ⟨rfl, rfl⟩
  exact ⟨fun hs => absurd hs ha, fun _ => ⟨rfl, rfl, rfl⟩, le_rfl, rfl, rfl, rfl, rfl⟩

/-- An event is got. -/
def got (n : Nat) (s : System) : System :=
  { s with events := s.events + 1, unacked := (n, s.events) :: s.unacked }

theorem getCmEvent_keeps (h : .event s.events ∉ held) :
    Deed.Keeps deedOf held (getCmEvent n s) fun t after =>
      t = got n s ∧ after = insert (.event s.events) held :=
  .acquire_bind rfl h (.pure ⟨rfl, rfl⟩)

/-- It is acknowledged, and leaves nothing behind. -/
theorem ackCmEvent_keeps {t : System} {k : Nat} {rest : List (Nat × Nat)}
    (hevents : t.events = k + 1) (hunacked : t.unacked = (n, k) :: rest)
    (hrest : ∀ e ∈ rest, e.2 < k) (h : .event k ∈ held) :
    Deed.Keeps deedOf held (ackCmEvent t) fun t' after =>
      t' = { t with unacked := rest } ∧ after = held.erase (.event k) := by
  have hk : t.events - 1 = k := by omega
  have hfilter : t.unacked.filter (fun e => e.2 ≠ k) = rest := by
    rw [hunacked, List.filter_cons_of_neg (by simp)]
    exact List.filter_eq_self.mpr fun e he => decide_eq_true (Nat.ne_of_lt (hrest e he))
  unfold ackCmEvent
  rw [hk]
  refine .release_bind rfl h (.pure ⟨?_, rfl⟩)
  rw [hfilter]

/-- A queue pair comes with its completion queues and their channels. -/
theorem createQp_keeps (h : Fresh n s base) {f : Unit → Traced Event (Int × System)}
    (hf : Deed.Keeps deedOf (insert (.qp n) (insert (.cq n .send) (insert (.compChannel n .send)
      (insert (.cq n .recv) (insert (.compChannel n .recv) (insert (.pd n) (resolving n base)))))))
        (f ()) post) :
    Deed.Keeps deedOf (insert (.pd n) (resolving n base)) (createQp n >>= f) post := by
  have hrecv := h.compChannel .recv
  have hsend := h.compChannel .send
  have hcqRecv := h.cq .recv
  have hcqSend := h.cq .send
  have hqp := h.qp
  unfold createQp
  rw [Traced.bind_assoc]
  refine .acquire_bind rfl (by simpa [resolving] using hrecv) ?_
  rw [Traced.bind_assoc]
  refine .acquire_bind rfl (by simpa [resolving] using hcqRecv) ?_
  rw [Traced.bind_assoc]
  refine .acquire_bind rfl (by simpa [resolving] using hsend) ?_
  rw [Traced.bind_assoc]
  refine .acquire_bind rfl (by simpa [resolving] using hcqSend) ?_
  exact .acquire_bind rfl (by simpa [resolving] using hqp) hf

theorem initQp_keeps (h : Fresh n s base)
    (hbefore : a.createEventChannel = true ∧ 0 ≤ a.createId ∧ 0 ≤ a.resolveAddr ∧
      a.addrEvent = some .addrResolved ∧ 0 ≤ a.resolveRoute ∧
      a.routeEvent = some .routeResolved) :
    Deed.Keeps deedOf (resolving n base) (initQp n a s) (Attempted n a base s) := by
  obtain ⟨hchannel, hid, haddr, haddrEvent, hroute, hrouteEvent⟩ := hbefore
  refine .use_bind rfl (Finset.mem_insert_self ..) ?_
  split
  next hpd =>
    refine .tell_bind rfl (stageFailed_keeps h fun hs => ?_)
    exact absurd (hpd.symm.trans hs.2.2.2.2.2.2.1) Bool.noConfusion
  next hpd =>
    have hpdMem : Object.pd n ∉ resolving n base := by simpa [resolving] using h.pd
    refine .acquire_bind rfl hpdMem ?_
    split
    next hqp =>
      refine .tell_bind rfl (.release_bind rfl (Finset.mem_insert_self ..) ?_)
      rw [Finset.erase_insert hpdMem]
      refine stageFailed_keeps h fun hs => ?_
      exact absurd hs.2.2.2.2.2.2.2 (Int.not_le.mpr hqp)
    next hqp =>
      have hcmChannel := h.cmChannel
      refine createQp_keeps h (.acquire_bind rfl (by simpa [resolving] using hcmChannel) (.pure ?_))
      refine ⟨fun _ => ⟨rfl, rfl, rfl⟩, fun hs => absurd ?_ hs, le_rfl, rfl, rfl, rfl, rfl⟩
      exact ⟨hchannel, hid, haddr, haddrEvent, hroute, hrouteEvent,
        Bool.eq_true_of_not_eq_false hpd, Int.not_lt.mp hqp⟩

/-- A wait for an event of the attempt: the execution stops when it is another one than expected,
and goes on as if there had been no event otherwise. -/
theorem await_keeps {event expected : CmEvent} {next : System → Traced Event (Int × System)}
    (h : Fresh n s base) (hunacked : s.unacked = [])
    (hnext : event = expected → Deed.Keeps deedOf (resolving n base)
      (next { s with events := s.events + 1 }) post) :
    Deed.Keeps deedOf (resolving n base)
      (getCmEvent n s >>= fun s => if event ≠ expected then resolveFailed n s
        else ackCmEvent s >>= next) post := by
  have hevent : Object.event s.events ∉ resolving n base := by
    simpa [resolving] using h.event s.events le_rfl
  refine .bind (getCmEvent_keeps hevent) ?_
  rintro t held ⟨rfl, rfl⟩
  split
  next => exact resolveFailed_waits ⟨(n, s.events), List.mem_cons_self, rfl⟩
  next heq =>
    have hrest : ∀ e ∈ ([] : List (Nat × Nat)), e.2 < s.events := fun _ he => nomatch he
    refine .bind (ackCmEvent_keeps rfl (by rw [got, hunacked]) hrest
      (Finset.mem_insert_self ..)) ?_
    rintro t' held ⟨rfl, rfl⟩
    rw [Finset.erase_insert hevent]
    have hsame : { got n s with unacked := [] } = { s with events := s.events + 1 } := by
      rw [got, ← hunacked]
    rw [hsame]
    exact hnext (Decidable.not_not.mp heq)

/-- A later event number is still fresh. -/
theorem Fresh.later (h : Fresh n s base) : Fresh n { s with events := s.events + 1 } base :=
  ⟨h.eventChannel, h.cmId, h.pd, h.compChannel, h.cq, h.qp, h.cmChannel,
    fun k hk => h.event k (Nat.le_of_succ_le hk)⟩

theorem Attempted.later {r : Int × System}
    (h : Attempted n a base { s with events := s.events + 1 } r held) :
    Attempted n a base s r held :=
  ⟨h.succeeded, h.failed, Nat.le_of_succ_le h.others.1, h.others.2⟩

theorem initRoute_keeps (h : Fresh n s base) (hunacked : s.unacked = [])
    (hbefore : a.createEventChannel = true ∧ 0 ≤ a.createId ∧ 0 ≤ a.resolveAddr ∧
      a.addrEvent = some .addrResolved) :
    Deed.Keeps deedOf (resolving n base) (initRoute n a s) (Attempted n a base s) := by
  obtain ⟨hchannel, hid, haddr, haddrEvent⟩ := hbefore
  refine .use_bind rfl (Finset.mem_insert_self ..) ?_
  split
  next hroute =>
    refine .tell_bind rfl (stageFailed_keeps h fun hs => ?_)
    exact absurd hs.2.2.2.2.1 (Int.not_le.mpr hroute)
  next hroute =>
    cases hevent : a.routeEvent with
    | none =>
        refine stageFailed_keeps h fun hs => ?_
        exact absurd (hevent.symm.trans hs.2.2.2.2.2.1) (Option.some_ne_none _).symm
    | some event =>
        refine await_keeps h hunacked fun hexpected => ?_
        subst hexpected
        exact (initQp_keeps h.later ⟨hchannel, hid, haddr, haddrEvent, Int.not_lt.mp hroute,
          hevent⟩).mono fun r held hr => hr.later

theorem initAddr_keeps (h : Fresh n s base) (hunacked : s.unacked = [])
    (hbefore : a.createEventChannel = true ∧ 0 ≤ a.createId) :
    Deed.Keeps deedOf (resolving n base) (initAddr n a s) (Attempted n a base s) := by
  obtain ⟨hchannel, hid⟩ := hbefore
  refine .use_bind rfl (Finset.mem_insert_self ..) ?_
  split
  next haddr =>
    refine .tell_bind rfl (stageFailed_keeps h fun hs => ?_)
    exact absurd hs.2.2.1 (Int.not_le.mpr haddr)
  next haddr =>
    cases hevent : a.addrEvent with
    | none =>
        refine stageFailed_keeps h fun hs => ?_
        exact absurd (hevent.symm.trans hs.2.2.2.1) (Option.some_ne_none _).symm
    | some event =>
        refine await_keeps h hunacked fun hexpected => ?_
        subst hexpected
        exact (initRoute_keeps h.later hunacked ⟨hchannel, hid, Int.not_lt.mp haddr,
          hevent⟩).mono fun r held hr => hr.later

end Attempts

/-! ### The invariant -/

/-- What holds between two steps.

- `holds`: the program holds what `Holds` says;
- `id_eq`: a client that has got through `initCmChannel` has the id that was made there;
- `numbers`: the events that were not acknowledged are events of this id;
- `channels`, `connected`: the two channels come together, and before the connection;
- `unmade`: nothing of the kind has happened to another client;
- `work`: at most one `destroyConnection` is queued;
- `finished`: nothing is left to do for a client that was deleted. -/
structure Inv (s : System) (held : Finset Object) : Prop where
  holds : ∀ o, o ∈ held ↔ Holds s o
  id_eq : ∀ n, s.client.cmChannel_ = some n → s.client.id_ = some n ∧ n < s.attempts
  numbers : ∀ e ∈ s.unacked, e.2 < s.events ∧ s.client.cmChannel_ = some e.1
  channels : s.client.recvCqChannel_ = s.client.sendCqChannel_
  connected : s.client.isConnected = true → s.client.sendCqChannel_ = true
  unmade : s.client.cmChannel_ = none →
    s.client.sendCqChannel_ = false ∧ s.work = 0 ∧ s.gone = false
  work : s.work ≤ 1
  finished : s.gone = true → s.work = 0 ∧ s.unacked = []

section Steps
variable {s : System} {held : Finset Object}

/-- A new client. -/
theorem Inv.new : Inv {} {.client} := by
  refine ⟨fun o => ?_, ?_, ?_, rfl, ?_, fun _ => ⟨rfl, rfl, rfl⟩, Nat.zero_le _, ?_⟩
  · cases o <;> simp [Holds]
  all_goals simp

/-- The id of a client that has got through `initCmChannel` is there until the client is deleted. -/
theorem Inv.idOf_mem (h : Inv s held) {n : Nat} (hn : s.client.cmChannel_ = some n)
    (hgone : s.gone = false) : idOf s ∈ held := by
  have hcmId : idOf s = .cmId n := by rw [idOf, (h.id_eq n hn).1]
  rw [hcmId]
  exact (h.holds _).mpr ⟨hn, hgone⟩

/-- So are its completion queues and their channels, also behind the deletion. -/
theorem Inv.completions_mem (h : Inv s held) {n : Nat} (hn : s.client.cmChannel_ = some n)
    (queue : Queue) :
    ofId s (.compChannel · queue) ∈ held ∧ ofId s (.cq · queue) ∈ held := by
  have hofId : ∀ object : Nat → Object, ofId s object = object n := fun object => by
    rw [ofId, (h.id_eq n hn).1]
  rw [hofId, hofId]
  exact ⟨(h.holds _).mpr hn, (h.holds _).mpr hn⟩

/-- What is held does not change when nothing does that it depends on. -/
theorem Inv.holds_of_same (h : Inv s held) {t : System}
    (hchannel : t.client.cmChannel_ = s.client.cmChannel_)
    (hsend : t.client.sendCqChannel_ = s.client.sendCqChannel_)
    (hrecv : t.client.recvCqChannel_ = s.client.recvCqChannel_)
    (hunacked : t.unacked = s.unacked) (hgone : t.gone = s.gone) (o : Object) :
    o ∈ held ↔ Holds t o := by
  rw [h.holds]
  cases o <;> simp only [Holds, hchannel, hsend, hrecv, hunacked, hgone]

theorem Inv.unacked_eq_nil (h : Inv s held) (hnone : s.client.cmChannel_ = none) :
    s.unacked = [] := by
  refine List.eq_nil_iff_forall_not_mem.mpr fun e he => ?_
  exact Option.some_ne_none e.1 ((h.numbers e he).2.symm.trans hnone)

theorem Inv.fresh (h : Inv s held) (hnone : s.client.cmChannel_ = none) (t : System) (n : Nat) :
    Fresh n t held := by
  have hnot : ∀ o, ¬ Holds s o → o ∉ held := fun o ho hmem => ho ((h.holds o).mp hmem)
  refine ⟨hnot _ ?_, hnot _ ?_, hnot _ ?_, fun _ => hnot _ ?_, fun _ => hnot _ ?_, hnot _ ?_,
    hnot _ ?_, fun k _ => hnot _ ?_⟩
  all_goals simp [Holds, hnone, h.unacked_eq_nil hnone]

/-- An attempt that fails changes nothing that matters. -/
theorem Inv.failed (h : Inv s held) (hnone : s.client.cmChannel_ = none) {t : System}
    {id : Option Nat} (hclient : t.client = { s.client with id_ := id })
    (hunacked : t.unacked = s.unacked) (hwork : t.work = s.work) (hgone : t.gone = s.gone) :
    Inv t held := by
  have hnil := h.unacked_eq_nil hnone
  obtain ⟨client, attempts, events, unacked, work, gone⟩ := t
  obtain rfl : client = _ := hclient
  obtain rfl : unacked = _ := hunacked
  obtain rfl : work = _ := hwork
  obtain rfl : gone = _ := hgone
  refine ⟨h.holds_of_same rfl rfl rfl rfl rfl, ?_, ?_, h.channels, h.connected, h.unmade, h.work,
    h.finished⟩
  · simp [hnone]
  · simp [hnil]

/-- An attempt that succeeds has made what a client needs. -/
theorem Inv.succeeded (h : Inv s held) (hnone : s.client.cmChannel_ = none) {t : System}
    {n : Nat} (hclient : t.client = { s.client with id_ := some n, cmChannel_ := some n })
    (hn : n < t.attempts) (hunacked : t.unacked = s.unacked) (hwork : t.work = s.work)
    (hgone : t.gone = s.gone) : Inv t (made n held) := by
  have hnil := h.unacked_eq_nil hnone
  obtain ⟨hchannels, hidle, hthere⟩ := h.unmade hnone
  obtain ⟨client, attempts, events, unacked, work, gone⟩ := t
  obtain rfl : client = _ := hclient
  obtain rfl : unacked = _ := hunacked
  obtain rfl : work = _ := hwork
  obtain rfl : gone = _ := hgone
  refine ⟨fun o => ?_, ?_, ?_, h.channels, h.connected, ?_, h.work, h.finished⟩
  · rw [mem_made, h.holds]
    cases o <;> simp [Made, Holds, hnone, hthere]
    all_goals exact eq_comm
  · rintro m hm
    obtain rfl := Option.some.inj hm
    exact ⟨rfl, hn⟩
  · simp [hnil]
  · simp

/-- What an attempt leaves behind. -/
theorem Inv.initCmChannel (h : Inv s held) (hnone : s.client.cmChannel_ = none) (a : Attempt) :
    Deed.Keeps deedOf held (initCmChannel a s) fun r after =>
      Inv r.2 after ∧ r.2.unacked = s.unacked ∧
        (Succeeds a → r.1 = S_OK ∧ r.2.client =
          { s.client with id_ := some s.attempts, cmChannel_ := some s.attempts }) ∧
        (¬ Succeeds a → r.1 = S_FALSE ∧ after = held ∧
          (r.2.client = s.client ∨ (a.createEventChannel = true ∧ 0 ≤ a.createId ∧
            r.2.client = { s.client with id_ := some s.attempts }))) := by
  have hunacked := h.unacked_eq_nil hnone
  obtain ⟨-, -, hgone⟩ := h.unmade hnone
  have hclient : Object.client ∈ held := (h.holds .client).mpr hgone
  refine .use_bind rfl hclient ?_
  dsimp only
  split
  next hchannel =>
    have hnot : ¬ Succeeds a := fun hs => absurd (hchannel.symm.trans hs.1) Bool.noConfusion
    exact .pure ⟨h.failed hnone rfl rfl rfl rfl, rfl, fun hs => absurd hs hnot,
      fun _ => ⟨rfl, rfl, .inl rfl⟩⟩
  next hchannel =>
    refine .acquire_bind rfl (h.fresh hnone s _).eventChannel ?_
    split
    next hid =>
      have hnot : ¬ Succeeds a := fun hs => absurd hs.2.1 (Int.not_le.mpr hid)
      refine .tell_bind rfl ((createIdFailed_keeps (h.fresh hnone _ _)).mono ?_)
      rintro r after ⟨rfl, rfl⟩
      exact ⟨h.failed hnone rfl rfl rfl rfl, rfl, fun hs => absurd hs hnot,
        fun _ => ⟨rfl, rfl, .inl rfl⟩⟩
    next hid =>
      have hcmId : Object.cmId s.attempts ∉ insert (Object.eventChannel s.attempts) held := by
        simpa using (h.fresh hnone s _).cmId
      refine .acquire_bind rfl hcmId ((initAddr_keeps (h.fresh hnone _ _)
        (by exact hunacked) ⟨Bool.eq_true_of_not_eq_false hchannel, Int.not_lt.mp hid⟩).mono
          fun r after hr => ?_)
      obtain ⟨-, hunacked', hattempts, hwork, hgone'⟩ := hr.others
      by_cases ha : Succeeds a
      · obtain ⟨hret, rfl, hclient'⟩ := hr.succeeded ha
        refine ⟨h.succeeded hnone hclient' ?_ hunacked' hwork hgone', hunacked',
          fun _ => ⟨hret, hclient'⟩, fun hnot => absurd ha hnot⟩
        rw [hattempts]
        exact Nat.lt_succ_self _
      · obtain ⟨hret, rfl, hclient'⟩ := hr.failed ha
        exact ⟨h.failed hnone hclient' hunacked' hwork hgone', hunacked', fun hs => absurd hs ha,
          fun _ => ⟨hret, rfl, .inr ⟨Bool.eq_true_of_not_eq_false hchannel, Int.not_lt.mp hid,
            hclient'⟩⟩⟩

/-- An event that is not acknowledged: that a connection is there which is there already or cannot
be set up, or that one is gone which is not there. -/
def Refused (client : RdmaClient) : CmEvent → Prop
  | .established recvNotify sendNotify =>
      client.sendCqChannel_ = true ∨ recvNotify < 0 ∨ sendNotify < 0
  | .disconnected => client.isConnected = false
  | _ => False

instance : ∀ (client : RdmaClient) (event : CmEvent), Decidable (Refused client event)
  | _, .established .. => inferInstanceAs (Decidable (_ ∨ _))
  | _, .disconnected => inferInstanceAs (Decidable (_ = _))
  | _, .addrResolved | _, .routeResolved | _, .other => inferInstanceAs (Decidable False)

/-- What `handleCmEvent` can do. -/
inductive Handled (n : Nat) (s : System) (held : Finset Object) :
    Option CmEvent → Int × System → Finset Object → Prop
  | nothing : Handled n s held none (S_FALSE, s) held
  | refused (event : CmEvent) (h : Refused s.client event) :
      Handled n s held (some event) (S_FALSE, got n s) (insert (.event s.events) held)
  | established (recvNotify sendNotify : Int)
      (h : ¬ Refused s.client (.established recvNotify sendNotify)) :
      Handled n s held (some (.established recvNotify sendNotify))
        (S_OK, { s with
          events := s.events + 1
          client := { s.client with
            sendCqChannel_ := true, recvCqChannel_ := true, isConnected := true } })
        (insert .recvCqChannel (insert .sendCqChannel held))
  | disconnected (h : ¬ Refused s.client .disconnected) :
      Handled n s held (some .disconnected)
        (S_OK, { s with
          events := s.events + 1
          work := s.work + 1
          client := { s.client with isConnected := false } }) held
  | other (event : CmEvent) (hestablished : ∀ r w, event ≠ .established r w)
      (hdisconnected : event ≠ .disconnected) :
      Handled n s held (some event) (S_OK, { s with events := s.events + 1 }) held

/-- The two channels are made, unless the event is refused. -/
theorem createActiveConnection_keeps {t : System} {recvNotify sendNotify : Int}
    (hcmId : idOf t ∈ held) (hcompChannel : ∀ queue, ofId t (.compChannel · queue) ∈ held)
    (hcq : ∀ queue, ofId t (.cq · queue) ∈ held)
    (hchannels : t.client.recvCqChannel_ = t.client.sendCqChannel_)
    (hnot : t.client.sendCqChannel_ = false →
      Object.sendCqChannel ∉ held ∧ Object.recvCqChannel ∉ held) :
    Deed.Keeps deedOf held (createActiveConnection recvNotify sendNotify t) fun r after =>
      (Refused t.client (.established recvNotify sendNotify) ∧ r = (S_FALSE, t) ∧ after = held) ∨
        (¬ Refused t.client (.established recvNotify sendNotify) ∧
          r = (S_OK, { t with client := { t.client with
            sendCqChannel_ := true, recvCqChannel_ := true } }) ∧
          after = insert .recvCqChannel (insert .sendCqChannel held)) := by
  unfold createActiveConnection
  split
  next hthere =>
    rw [hchannels, or_self] at hthere
    exact .pure (.inl ⟨.inl hthere, rfl, rfl⟩)
  next hthere =>
    rw [hchannels, or_self] at hthere
    obtain ⟨hsend, hrecv⟩ := hnot (Bool.eq_false_of_not_eq_true hthere)
    refine .use_bind rfl hcmId (.use_bind rfl (hcompChannel .recv) (.use_bind rfl
      (hcompChannel .send) (.use_bind rfl (hcq .recv) ?_)))
    split
    next hr => exact .tell_bind rfl (.pure (.inl ⟨.inr (.inl hr), rfl, rfl⟩))
    next hr =>
      refine .use_bind rfl (hcq .send) ?_
      split
      next hw => exact .tell_bind rfl (.pure (.inl ⟨.inr (.inr hw), rfl, rfl⟩))
      next hw =>
        refine .acquire_bind rfl hsend (.acquire_bind rfl (by simpa using hrecv) (.pure ?_))
        exact .inr ⟨fun hrefused => hrefused.elim hthere fun hfail => hfail.elim hr hw, rfl, rfl⟩

theorem handleCmEvent_keeps (h : Inv s held) {n : Nat} (hn : s.client.cmChannel_ = some n)
    (hgone : s.gone = false) (e : Option CmEvent) :
    Deed.Keeps deedOf held (handleCmEvent e s) (Handled n s held e) := by
  have hclient : Object.client ∈ held := (h.holds .client).mpr hgone
  have hid := (h.id_eq n hn).1
  have hcmId : idOf s ∈ held := h.idOf_mem hn hgone
  have hevent : Object.event s.events ∉ held := by
    intro hmem
    obtain ⟨m, hm⟩ := (h.holds _).mp hmem
    exact Nat.lt_irrefl _ (h.numbers _ hm).1
  refine .use_bind rfl hclient (.use_bind rfl hcmId ?_)
  cases e with
  | none => exact .tell_bind rfl (.pure .nothing)
  | some event =>
      rw [hid]
      refine .bind (getCmEvent_keeps hevent) ?_
      rintro t _ ⟨rfl, rfl⟩
      have hrest : ∀ e ∈ s.unacked, e.2 < s.events := fun e he => (h.numbers e he).1
      have hown : Object.event s.events ∈ insert (Object.event s.events) held :=
        Finset.mem_insert_self ..
      cases event with
      | established recvNotify sendNotify =>
          have hnot : s.client.sendCqChannel_ = false →
              Object.sendCqChannel ∉ insert (Object.event s.events) held ∧
                Object.recvCqChannel ∉ insert (Object.event s.events) held := by
            intro hnone
            simp [h.holds, Holds, h.channels, hnone]
          have hcompletions := h.completions_mem hn
          refine .bind (createActiveConnection_keeps (t := got n s)
            (Finset.mem_insert_of_mem hcmId)
            (fun queue => Finset.mem_insert_of_mem (hcompletions queue).1)
            (fun queue => Finset.mem_insert_of_mem (hcompletions queue).2) h.channels hnot) ?_
          rintro ⟨ret, t⟩ _ (⟨hrefused, heq, rfl⟩ | ⟨hrefused, heq, rfl⟩)
          · obtain ⟨rfl, rfl⟩ := Prod.mk.inj heq
            exact .tell_bind rfl (.pure (.refused _ hrefused))
          · obtain ⟨rfl, rfl⟩ := Prod.mk.inj heq
            refine .tell_bind rfl (.tell_bind (deeds_callback _ _) (.bind
              (ackCmEvent_keeps rfl rfl hrest
                (Finset.mem_insert_of_mem (Finset.mem_insert_of_mem hown))) ?_))
            rintro t' _ ⟨rfl, rfl⟩
            have hrecv : Object.recvCqChannel ≠ .event s.events := nofun
            have hsend : Object.sendCqChannel ≠ .event s.events := nofun
            rw [Finset.erase_insert_of_ne hrecv, Finset.erase_insert_of_ne hsend,
              Finset.erase_insert hevent]
            exact .pure (.established _ _ hrefused)
      | disconnected =>
          dsimp only
          split
          next hdown => exact .tell_bind rfl (.pure (.refused _ hdown))
          next hup =>
            refine .bind (.use_bind rfl (Finset.mem_insert_of_mem hclient)
              (.tell_bind rfl .returns)) ?_
            rintro t _ ⟨rfl, rfl⟩
            refine .tell_bind rfl (.bind (ackCmEvent_keeps rfl rfl hrest hown) ?_)
            rintro t' _ ⟨rfl, rfl⟩
            rw [Finset.erase_insert hevent]
            exact .pure (.disconnected hup)
      | _ =>
          refine .tell_bind rfl (.bind (ackCmEvent_keeps rfl rfl hrest hown) ?_)
          rintro t' _ ⟨rfl, rfl⟩
          rw [Finset.erase_insert hevent]
          exact .pure (.other _ (fun _ _ => nofun) nofun)

/-- Nothing happens to a client but the calls that it is made for: everything behind
`initCmChannel`, and one end. -/
def Fine (s : System) : Op → Prop
  | .initCmChannel _ => s.client.cmChannel_ = none
  | .handleCmEvent (some .disconnected) =>
      s.client.cmChannel_ ≠ none ∧ s.gone = false ∧ (s.client.isConnected = true → s.work = 0)
  | .shutdown | .delete => s.client.cmChannel_ ≠ none ∧ s.gone = false ∧ s.work = 0
  | .destroyConnection => 0 < s.work
  | _ => s.client.cmChannel_ ≠ none ∧ s.gone = false

theorem Fine.there {e : Option CmEvent} (h : Fine s (.handleCmEvent e)) :
    s.client.cmChannel_ ≠ none ∧ s.gone = false := by
  rcases e with _ | (_ | _ | _ | _ | _)
  case some.disconnected => exact ⟨h.1, h.2.1⟩
  all_goals exact h

/-- An event keeps the invariant. -/
theorem Inv.handled (h : Inv s held) {n : Nat} (hn : s.client.cmChannel_ = some n)
    (hgone : s.gone = false) {e : Option CmEvent} (hfine : Fine s (.handleCmEvent e))
    {r : Int × System} {after : Finset Object} (hcase : Handled n s held e r after) :
    Inv r.2 after := by
  have hsome : ∀ {P : Prop}, s.client.cmChannel_ = none → P :=
    fun hnone => absurd (hn.symm.trans hnone) (Option.some_ne_none n)
  have hnumbers : ∀ e ∈ s.unacked, e.2 < s.events + 1 ∧ s.client.cmChannel_ = some e.1 :=
    fun e he => ⟨Nat.lt_succ_of_lt (h.numbers e he).1, (h.numbers e he).2⟩
  cases hcase with
  | nothing => exact h
  | refused event hrefused =>
      refine ⟨fun o => ?_, h.id_eq, ?_, h.channels, h.connected, h.unmade, h.work,
        fun hover => nomatch hgone.symm.trans hover⟩
      · rw [Finset.mem_insert, h.holds]
        cases o with
        | event k =>
            rw [Object.event.injEq]
            constructor
            · rintro (rfl | ⟨m, hm⟩)
              · exact ⟨n, List.mem_cons_self⟩
              · exact ⟨m, List.mem_cons_of_mem _ hm⟩
            · rintro ⟨m, hm⟩
              rcases List.mem_cons.mp hm with heq | hm
              · exact .inl (Prod.mk.inj heq).2
              · exact .inr ⟨m, hm⟩
        | _ => simp [Holds, got]
      · exact List.forall_mem_cons.mpr ⟨⟨Nat.lt_succ_self _, hn⟩, hnumbers⟩
  | established recvNotify sendNotify hrefused =>
      refine ⟨fun o => ?_, h.id_eq, hnumbers, rfl, fun _ => rfl, hsome, h.work, h.finished⟩
      rw [Finset.mem_insert, Finset.mem_insert, h.holds]
      cases o <;> simp [Holds, hgone]
  | disconnected hup =>
      have hwork := hfine.2.2 (Bool.eq_true_of_not_eq_false hup)
      refine ⟨h.holds_of_same rfl rfl rfl rfl rfl, h.id_eq, hnumbers, h.channels,
        (fun hdown => nomatch hdown), hsome, ?_, ?_⟩
      · rw [hwork]
      · exact fun hover => nomatch hgone.symm.trans hover
  | other event _ _ =>
      exact ⟨h.holds_of_same rfl rfl rfl rfl rfl, h.id_eq, hnumbers, h.channels, h.connected,
        h.unmade, h.work, h.finished⟩

/-- The channels of the completion queues are released when they are there. -/
theorem releaseChannels_keeps {f : Unit → Traced Event System} {flag : Bool} {o : Object}
    {post : System → Finset Object → Prop} (ho : flag = true → o ∈ held)
    (hf : ∀ after, (∀ o', o' ∈ after ↔ o' ∈ held ∧ ¬ (flag = true ∧ o' = o)) →
      Deed.Keeps deedOf after (f ()) post) :
    Deed.Keeps deedOf held
      (Traced.tell (if flag then [.deed (.release o)] else []) >>= f) post := by
  cases flag with
  | false => exact .tell_bind rfl (hf held fun o' => by simp)
  | true =>
      refine .release_bind rfl (ho rfl) (hf _ fun o' => ?_)
      rw [Finset.mem_erase]
      simp [and_comm]

theorem mem_remains {n : Nat} {o : Object} : o ∈ remains n ↔
    match o with
    | .eventChannel m | .compChannel m _ | .cq m _ => m = n
    | _ => False := by
  cases o with
  | compChannel m queue | cq m queue => cases queue <;> simp [remains]
  | _ => simp [remains]

/-- The deletion of a client that has got through `initCmChannel` releases everything but what
nobody destroys. It stops when an event was not acknowledged. -/
theorem delete_keeps (h : Inv s held) {n : Nat} (hn : s.client.cmChannel_ = some n)
    (hgone : s.gone = false) (work : Nat) :
    Deed.Keeps deedOf held (delete { s with work := work }) fun t after =>
      t = { s with work := work, gone := true } ∧ s.unacked = [] ∧
        ∀ o, o ∈ after ↔ o ∈ remains n := by
  have hid := (h.id_eq n hn).1
  have hown : ∀ o, Holds s o → o ∈ held := fun o => (h.holds o).mpr
  unfold delete
  dsimp only
  rw [hn, hid]
  refine .release_bind rfl (hown _ ⟨hn, hgone⟩) ?_
  refine releaseChannels_keeps (fun hsend => ?_) fun after hafter => ?_
  · rw [Finset.mem_erase]
    exact ⟨nofun, hown _ ⟨hsend, hgone⟩⟩
  refine releaseChannels_keeps (fun hrecv => ?_) fun after' hafter' => ?_
  · rw [hafter, Finset.mem_erase]
    exact ⟨⟨nofun, hown _ ⟨hrecv, hgone⟩⟩, fun heq => nomatch heq.2⟩
  have hidOf : idOf { s with work := work } = .cmId n := by rw [idOf, hid]
  have hrest : ∀ o, Holds s o → o ≠ .cmChannel n → o ≠ .sendCqChannel → o ≠ .recvCqChannel →
      o ∈ after' := by
    intro o ho hcm hsend hrecv
    rw [hafter', hafter, Finset.mem_erase]
    exact ⟨⟨⟨hcm, hown o ho⟩, fun heq => hsend heq.2⟩, fun heq => hrecv heq.2⟩
  rw [hidOf]
  refine .use_bind rfl (hrest _ ⟨hn, hgone⟩ nofun nofun nofun) ?_
  refine .release_bind rfl (hrest _ ⟨hn, hgone⟩ nofun nofun nofun) ?_
  refine .release_bind rfl ?_ ?_
  · rw [Finset.mem_erase]
    exact ⟨nofun, hrest _ ⟨hn, hgone⟩ nofun nofun nofun⟩
  unfold destroyId
  split
  next => exact .stops_bind (.tell_bind rfl .fault)
  next hacked =>
    have hnil : s.unacked = [] := by
      refine List.eq_nil_iff_forall_not_mem.mpr fun e he => hacked ⟨e, he, ?_⟩
      exact Option.some.inj ((h.numbers e he).2.symm.trans hn)
    refine .release_bind rfl ?_ (.release_bind rfl ?_ (.pure ⟨rfl, hnil, fun o => ?_⟩))
    · rw [Finset.mem_erase, Finset.mem_erase]
      exact ⟨nofun, nofun, hrest _ ⟨hn, hgone⟩ nofun nofun nofun⟩
    · rw [Finset.mem_erase, Finset.mem_erase, Finset.mem_erase]
      exact ⟨nofun, nofun, nofun, hrest _ hgone nofun nofun nofun⟩
    · simp only [Finset.mem_erase, hafter', hafter, h.holds, mem_remains]
      cases o <;> simp [Holds, hn, hnil, hgone, h.channels]
      all_goals omega

/-- A client that was deleted. -/
theorem Inv.deleted (h : Inv s held) {n work : Nat} (hn : s.client.cmChannel_ = some n)
    (hnil : s.unacked = []) {after : Finset Object}
    (hafter : ∀ o, o ∈ after ↔ o ∈ remains n) (hwork : work = 0) :
    Inv { s with work := work, gone := true } after := by
  refine ⟨fun o => ?_, h.id_eq, h.numbers, h.channels, h.connected,
    fun hnone => absurd (hn.symm.trans hnone) (Option.some_ne_none n), ?_, fun _ => ⟨hwork, hnil⟩⟩
  · rw [hafter, mem_remains]
    cases o <;> simp [Holds, hn, hnil]
    all_goals exact eq_comm
  · rw [hwork]
    exact Nat.zero_le 1

/-- Every step keeps the invariant. -/
theorem Inv.step (h : Inv s held) {op : Op} (hfine : Fine s op) :
    Deed.Keeps deedOf held (step s op) fun t after => Inv t after := by
  have hmade : s.client.cmChannel_ ≠ none → ∃ n, s.client.cmChannel_ = some n :=
    Option.ne_none_iff_exists'.mp
  have hreturned : ∀ {x : Traced Event (Int × System)},
      Deed.Keeps deedOf held x (fun r after => Inv r.2 after) →
        Deed.Keeps deedOf held (call x) fun t after => Inv t after :=
    fun hx => hx.bind fun r after hr => .tell_bind rfl (.pure hr)
  cases op with
  | initCmChannel a =>
      exact hreturned ((h.initCmChannel hfine a).mono fun r after hr => hr.1)
  | onConnect cb param ret =>
      obtain ⟨hne, hgone⟩ := hfine
      obtain ⟨n, hn⟩ := hmade hne
      refine hreturned (.use_bind rfl ((h.holds _).mpr hgone) (.use_bind rfl (h.idOf_mem hn hgone)
        (.tell_bind rfl (.pure ?_))))
      exact ⟨h.holds_of_same rfl rfl rfl rfl rfl, h.id_eq, h.numbers, h.channels, h.connected,
        h.unmade, h.work, h.finished⟩
  | disconnect ret =>
      obtain ⟨hne, hgone⟩ := hfine
      obtain ⟨n, hn⟩ := hmade hne
      exact hreturned (.use_bind rfl ((h.holds _).mpr hgone) (.use_bind rfl (h.idOf_mem hn hgone)
        (.tell_bind rfl (.pure h))))
  | handleCmEvent e =>
      obtain ⟨hne, hgone⟩ := hfine.there
      obtain ⟨n, hn⟩ := hmade hne
      refine hreturned ((handleCmEvent_keeps h hn hgone e).mono fun r after hr => ?_)
      exact h.handled hn hgone hfine hr
  | shutdown =>
      obtain ⟨hne, hgone, hwork⟩ := hfine
      obtain ⟨n, hn⟩ := hmade hne
      refine .use_bind rfl ((h.holds _).mpr hgone) (.tell_bind rfl (.pure ?_))
      exact ⟨h.holds_of_same rfl rfl rfl rfl rfl, h.id_eq, h.numbers, h.channels, h.connected,
        fun hnone => absurd hnone hne, by rw [hwork],
        fun hover => nomatch hgone.symm.trans hover⟩
  | destroyConnection =>
      have hqueued : s.work ≠ 0 := Nat.ne_of_gt hfine
      have hgone : s.gone = false :=
        Bool.eq_false_of_not_eq_true fun hgone => hqueued ((h.finished hgone).1)
      obtain ⟨n, hn⟩ := hmade fun hnone => hqueued (h.unmade hnone).2.1
      refine (delete_keeps h hn hgone _).mono ?_
      rintro t after ⟨rfl, hnil, hafter⟩
      have hwork : s.work - 1 = 0 := by have := h.work; omega
      exact h.deleted hn hnil hafter hwork
  | delete =>
      obtain ⟨hne, hgone, hwork⟩ := hfine
      obtain ⟨n, hn⟩ := hmade hne
      refine (delete_keeps h hn hgone _).mono ?_
      rintro t after ⟨rfl, hnil, hafter⟩
      exact h.deleted hn hnil hafter hwork

end Steps

end Ndsl.Proofs.RdmaClient
