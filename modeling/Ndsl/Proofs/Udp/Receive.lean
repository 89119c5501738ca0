import Ndsl.Lib.Registrations
import Ndsl.Net.UdpEndpoint

/-!
# `Ndsl.Proofs.Udp.Receive`: an endpoint's two ways to receive

`System` puts an endpoint beside the datagrams that wait in its socket, and beside the variables
that the callers keep their `*len` in. It numbers the calls of `onRecv`, and notes which of them is
armed: it has found no datagram, and none has been delivered for it since. `ReceiveLaw` asks the
same of `onRecv`, which finds its datagram at once, and of `handleRead`, which delivers it later:
the law of `Ndsl.Lib.Registrations`, with a datagram that is cut to the capacity of the request. And
a call that is not completed must be armed.

`handleRead` receives up to `MAXLINE` bytes, whatever the capacity is. It keeps the result of
`recvfrom` in a `size_t`, and so takes an empty socket for a datagram. And it leaves the request in
use. `onRecv` overwrites a request that is armed. `agrees_iff` says which steps keep the law.
-/

set_option autoImplicit false

namespace Ndsl.Proofs.Udp.Receive

open Ndsl.Lib Ndsl.Lib.Registrations
open Ndsl.Net (S_OK S_FALSE MAXLINE)
open Ndsl.Net.Tcp (EAGAIN MSG_NOSIGNAL RecvResult)
open Ndsl.Net.Udp

/-! ### An endpoint and its socket -/

/-- The datagrams that a call has taken from the socket. -/
def taken (acts : List Act) : List (List UInt8) :=
  acts.filterMap fun
    | .recvfrom _ _ _ (.data datagram) => some datagram
    | _ => none

/-- The bytes that a call has put into buffers, with the addresses of these. -/
def placed (acts : List Act) : List (Nat × List UInt8) :=
  acts.filterMap fun
    | .recvfrom buf n _ (.data datagram) => some (buf, stored n datagram)
    | _ => none

/-- What a call has written to the variables for `*len`. -/
def reports (acts : List Act) : List (Nat × Nat) :=
  acts.filterMap fun
    | .setLen len value => some (len, value)
    | _ => none

/-- The callbacks that a call has called. -/
def called (acts : List Act) : List (Nat × Nat) :=
  acts.filterMap fun
    | .callback cb p => some (cb, p)
    | _ => none

/-- The variables for `*len` behind a call. -/
def setLens (acts : List Act) (lens : Nat → Nat) : Nat → Nat :=
  (reports acts).foldl (fun lens report => Function.update lens report.1 report.2) lens

/-- What the endpoint has done in a call, and the variables for `*len` behind it. -/
structure Done where
  acts : List Act
  lens : Nat → Nat

/-- An endpoint, what is in the variables for `*len`, the datagrams that wait in the socket, the
requests of the `onRecv` calls, and the number of the call whose registration is armed. -/
structure System where
  point : UdpEndpoint
  lens : Nat → Nat
  waiting : List (List UInt8) := []
  requests : List Request := []
  armed : Option Nat := none

/-- A step: of the network, or of the endpoint. -/
inductive Action
  | arrive (datagram : List UInt8)
  | onRecv (r : Request)
  | handleRead
  deriving Repr, DecidableEq

namespace System

/-- What `recvfrom` finds: the first of the datagrams, or that it would block. -/
def result (s : System) : RecvResult :=
  match s.waiting with
  | [] => .fail EAGAIN
  | datagram :: _ => .data datagram

/-- What is done by acts from here on. -/
def done (s : System) (acts : List Act) : Done := ⟨acts, setLens acts s.lens⟩

/-- The system behind a call that has done `acts`. -/
def behind (s : System) (point : UdpEndpoint) (acts : List Act) : System :=
  { s with
    point := point
    lens := setLens acts s.lens
    waiting := s.waiting.drop (taken acts).length }

/-- What a `handleRead` does by acts. -/
def read (s : System) (acts : List Act) : Happening Done :=
  match s.armed with
  | none => .unarmed (s.done acts)
  | some call => .served call (s.done acts)

/-- The caller's `*len` is the capacity. -/
def offer (s : System) (r : Request) : System :=
  { s with lens := Function.update s.lens r.len r.capacity }

/-- One step. An `onRecv` that finds nothing is armed in the place of the one before it. -/
def step (s : System) : Action → Traced (Happening Done) System
  | .arrive datagram => pure { s with waiting := s.waiting ++ [datagram] }
  | .onRecv r =>
    (onRecv r s.result s.point).record
      (fun acts => .served s.requests.length ((s.offer r).done acts))
      fun x acts => { (s.offer r).behind x.2 acts with
        requests := s.requests ++ [r]
        armed := if s.waiting = [] then some s.requests.length else s.armed }
  | .handleRead =>
    (handleRead s.result s.point).record s.read fun x acts =>
      { s.behind x.2 acts with armed := if reports acts = [] then s.armed else none }

/-- The steps that keep the law. An `onRecv` finds a datagram, or no registration is armed. A
`handleRead` comes before the first request that has found nothing; or it finds a registration that
is armed and a datagram, of which the capacity leaves as much as `MAXLINE`. -/
def InTime (s : System) : Action → Prop
  | .arrive _ => True
  | .onRecv _ => s.waiting = [] → s.armed = none
  | .handleRead => s.point.RecvInfo_.inUse_ = false ∨ ∃ call r datagram waiting,
      s.armed = some call ∧ s.requests[call]? = some r ∧ s.waiting = datagram :: waiting ∧
      stored MAXLINE datagram = stored r.capacity datagram

end System

/-- An endpoint with a new socket. -/
def idle (fd : Nat) (lens : Nat → Nat) : System :=
  { point := { fd := fd }, lens := lens }

/-! ### The law -/

/-- How often a call has completed a request. -/
def times (d : Done) : Nat := (reports d.acts).length

/-- Nothing is received, and nobody is told. -/
structure Quiet (d : Done) : Prop where
  taken : taken d.acts = []
  placed : placed d.acts = []
  reports : reports d.acts = []
  called : called d.acts = []

/-- A request is completed: with one datagram, whose first bytes are in the buffer, as many as the
capacity leaves, and their number in `*len`. Its own callback is called, unless it is `NULL`. -/
structure Completes (r : Request) (d : Done) : Prop where
  datagram : ∃ datagram, taken d.acts = [datagram] ∧
    placed d.acts = [(r.buf, stored r.capacity datagram)] ∧
    d.lens r.len = (stored r.capacity datagram).length
  called : called d.acts = r.cb.toList.map fun cb => (cb, r.p)

/-- What may be done for a request. -/
def ServedAs (r : Request) (d : Done) : Prop := Quiet d ∨ Completes r d

/-- The law of the registrations: each is completed, or armed. -/
structure ReceiveLaw (s : System) (log : List (Happening Done)) : Prop where
  lawful : Lawful times ServedAs Quiet s.requests log
  each : ∀ call < s.requests.length, call ∈ completed times log ∨ s.armed = some call

/-! ### What the two calls do -/

/-- The request that `onRecv` leaves in `RecvInfo_`. -/
def infoOf (r : Request) : RecvInfo :=
  { recvBuf_ := r.buf, flags_ := r.flags ||| MSG_NOSIGNAL, len_ := r.len, cb_ := r.cb, p_ := r.p,
    inUse_ := true }

/-- A receive of at most `n` bytes that says how many it has got, and tells the caller. -/
def delivery (buf n flags len : Nat) (cb : Option Nat) (p : Nat) (result : RecvResult)
    (value : Nat) : List Act :=
  [.recvfrom buf n flags result, .setLen len value] ++ cb.toList.map (.callback · p)

section Calls
variable {r : Request} {point : UdpEndpoint} {buf n flags len p value : Nat} {cb : Option Nat}
  {datagram : List UInt8} {result : RecvResult} {lens : Nat → Nat}

theorem callback_yields (cb : Option Nat) (p : Nat) :
    (callback cb p).Yields (cb.toList.map (.callback · p)) () := by
  cases cb with
  | none => exact ⟨rfl, rfl⟩
  | some cb => exact ⟨rfl, rfl⟩

theorem onRecv_empty (r : Request) (point : UdpEndpoint) :
    (onRecv r (.fail EAGAIN) point).Yields [.recvfrom r.buf r.capacity r.flags (.fail EAGAIN)]
      (S_OK, { point with RecvInfo_ := infoOf r }) := ⟨rfl, rfl⟩

theorem onRecv_datagram (r : Request) (datagram : List UInt8) (point : UdpEndpoint) :
    (onRecv r (.data datagram) point).Yields
      (delivery r.buf r.capacity r.flags r.len r.cb r.p (.data datagram)
        (stored r.capacity datagram).length) (S_OK, point) := by
  refine (Traced.tell_bind_yields ..).mpr ⟨_, (Traced.tell_bind_yields ..).mpr ⟨_,
    Traced.bind_yields.mpr ⟨_, (), [], callback_yields r.cb r.p,
      (Traced.pure_yields ..).mpr ⟨rfl, rfl⟩, rfl⟩, rfl⟩, ?_⟩
  rw [List.append_nil]
  rfl

theorem handleRead_unused (h : point.RecvInfo_.inUse_ = false) :
    (handleRead result point).Yields [] (S_FALSE, point) := by
  unfold handleRead
  rw [h]
  exact ⟨rfl, rfl⟩

/-- A request in use is served from whatever is in the socket, also when nothing is. -/
theorem handleRead_inUse (h : point.RecvInfo_.inUse_ = true) (hfd : 0 ≤ point.fd) :
    (handleRead result point).Yields
      (delivery point.RecvInfo_.recvBuf_ MAXLINE point.RecvInfo_.flags_ point.RecvInfo_.len_
        point.RecvInfo_.cb_ point.RecvInfo_.p_ result (handleRead.received result))
      (S_OK, point) := by
  unfold handleRead
  rw [if_pos h, if_neg (Int.not_lt.mpr hfd)]
  refine (Traced.tell_bind_yields ..).mpr ⟨_, (Traced.tell_bind_yields ..).mpr ⟨_,
    Traced.bind_yields.mpr ⟨_, (), [], callback_yields _ _,
      (Traced.pure_yields ..).mpr ⟨rfl, rfl⟩, rfl⟩, rfl⟩, ?_⟩
  rw [List.append_nil]
  rfl

/-- What a delivery does: it reports once, and calls its callback. -/
theorem of_delivery (lens : Nat → Nat) :
    reports (delivery buf n flags len cb p result value) = [(len, value)] ∧
    called (delivery buf n flags len cb p result value) = cb.toList.map (fun cb => (cb, p)) ∧
    setLens (delivery buf n flags len cb p result value) lens len = value := by
  cases cb <;> exact ⟨rfl, rfl, Function.update_self ..⟩

/-- A delivery of a datagram takes it and puts it into the buffer. -/
theorem of_delivery_data :
    taken (delivery buf n flags len cb p (.data datagram) value) = [datagram] ∧
    placed (delivery buf n flags len cb p (.data datagram) value) =
      [(buf, stored n datagram)] := by
  cases cb <;> exact ⟨rfl, rfl⟩

/-- A delivery of nothing takes nothing. -/
theorem of_delivery_fail {errno : Int} :
    taken (delivery buf n flags len cb p (.fail errno) value) = [] := by
  cases cb <;> rfl

/-- A datagram that is received for a request completes it exactly when the capacity leaves as much
of it as `n` does. -/
theorem completes_iff_same {acts : List Act}
    (hacts : acts = delivery r.buf n flags r.len r.cb r.p (.data datagram)
      (stored n datagram).length) :
    Completes r ⟨acts, setLens acts lens⟩ ↔ stored n datagram = stored r.capacity datagram := by
  have hcalled : called acts = r.cb.toList.map fun cb => (cb, r.p) := by
    rw [hacts]
    exact (of_delivery lens).2.1
  have hlens : setLens acts lens r.len = (stored n datagram).length := by
    rw [hacts]
    exact (of_delivery lens).2.2
  have htaken : taken acts = [datagram] := by
    rw [hacts]
    exact of_delivery_data.1
  have hplaced : placed acts = [(r.buf, stored n datagram)] := by
    rw [hacts]
    exact of_delivery_data.2
  constructor
  · rintro ⟨⟨datagram', htaken', hplaced', -⟩, -⟩
    obtain rfl := List.singleton_inj.mp (htaken.symm.trans htaken')
    exact (Prod.mk.inj (List.singleton_inj.mp (hplaced.symm.trans hplaced'))).2
  · intro hsame
    rw [hsame] at hlens hplaced
    exact ⟨⟨datagram, htaken, hplaced, hlens⟩, hcalled⟩

end Calls

/-! ### The invariant -/

/-- The invariant: the law, and when a registration is armed, its request is the one in `RecvInfo_`
and has not been completed. -/
structure Inv (fd : Nat) (log : List (Happening Done)) (s : System) : Prop where
  fd_eq : s.point.fd = fd
  law : ReceiveLaw s log
  armed : ∀ call, s.armed = some call → ∃ r, Waits times s.requests log call r ∧
    s.point.RecvInfo_ = infoOf r

section Steps
variable {fd : Nat} {log es : List (Happening Done)} {s t : System} {r : Request}

/-- What an `onRecv` does. -/
theorem onRecv_cases {acts : List Act} {ret : Int} {point : UdpEndpoint}
    (h : (onRecv r s.result s.point).Yields acts (ret, point)) :
    (s.waiting = [] ∧ point = { s.point with RecvInfo_ := infoOf r } ∧
      acts = [.recvfrom r.buf r.capacity r.flags (.fail EAGAIN)]) ∨
    ∃ datagram waiting, s.waiting = datagram :: waiting ∧ point = s.point ∧
      acts = delivery r.buf r.capacity r.flags r.len r.cb r.p (.data datagram)
        (stored r.capacity datagram).length := by
  unfold System.result at h
  cases hwaiting : s.waiting with
  | nil =>
      rw [hwaiting] at h
      obtain ⟨rfl, hpair⟩ := h.unique (onRecv_empty r s.point)
      exact .inl ⟨rfl, (Prod.mk.inj hpair).2, rfl⟩
  | cons datagram waiting =>
      rw [hwaiting] at h
      obtain ⟨rfl, hpair⟩ := h.unique (onRecv_datagram r datagram s.point)
      exact .inr ⟨datagram, waiting, rfl, (Prod.mk.inj hpair).2, rfl⟩

/-- What a `handleRead` does. -/
theorem handleRead_cases {acts : List Act} {ret : Int} {point : UdpEndpoint}
    (hfd : s.point.fd = fd) (h : (handleRead s.result s.point).Yields acts (ret, point)) :
    point = s.point ∧ (s.point.RecvInfo_.inUse_ = false ∧ acts = [] ∨
      s.point.RecvInfo_.inUse_ = true ∧
        acts = delivery s.point.RecvInfo_.recvBuf_ MAXLINE s.point.RecvInfo_.flags_
          s.point.RecvInfo_.len_ s.point.RecvInfo_.cb_ s.point.RecvInfo_.p_ s.result
          (handleRead.received s.result)) := by
  cases huse : s.point.RecvInfo_.inUse_ with
  | false =>
      obtain ⟨rfl, hpair⟩ := h.unique (handleRead_unused huse)
      exact ⟨(Prod.mk.inj hpair).2, .inl ⟨rfl, rfl⟩⟩
  | true =>
      have hopen : 0 ≤ s.point.fd := hfd ▸ Int.natCast_nonneg fd
      obtain ⟨rfl, hpair⟩ := h.unique (handleRead_inUse huse hopen)
      exact ⟨(Prod.mk.inj hpair).2, .inr ⟨rfl, rfl⟩⟩

/-- Every step is taken. -/
theorem step_returns (hfd : s.point.fd = fd) (action : Action) :
    ∃ es t, (s.step action).Yields es t := by
  cases action with
  | arrive datagram => exact ⟨_, _, (Traced.pure_yields ..).mpr ⟨rfl, rfl⟩⟩
  | onRecv r =>
      cases hwaiting : s.waiting with
      | nil =>
          have hcall := onRecv_empty r s.point
          rw [show RecvResult.fail EAGAIN = s.result by rw [System.result, hwaiting]] at hcall
          exact ⟨_, _, Traced.record_yields.mpr ⟨_, _, hcall, rfl, rfl⟩⟩
      | cons datagram waiting =>
          have hcall := onRecv_datagram r datagram s.point
          rw [show RecvResult.data datagram = s.result by rw [System.result, hwaiting]] at hcall
          exact ⟨_, _, Traced.record_yields.mpr ⟨_, _, hcall, rfl, rfl⟩⟩
  | handleRead =>
      cases huse : s.point.RecvInfo_.inUse_ with
      | false => exact ⟨_, _, Traced.record_yields.mpr ⟨_, _, handleRead_unused huse, rfl, rfl⟩⟩
      | true =>
          have hopen : 0 ≤ s.point.fd := hfd ▸ Int.natCast_nonneg fd
          exact ⟨_, _, Traced.record_yields.mpr ⟨_, _, handleRead_inUse huse hopen, rfl, rfl⟩⟩

/-- A call that is not armed has been completed. -/
theorem Inv.completed_of_unarmed (h : Inv fd log s) (hnone : s.armed = none) :
    ∀ call < s.requests.length, call ∈ completed times log := fun call hlt =>
  (h.law.each call hlt).resolve_right fun hcall =>
    absurd (hnone.symm.trans hcall) (Option.some_ne_none call).symm

/-! ### One step -/

/-- An `onRecv` that finds nothing loses the registration that is armed. -/
theorem Inv.inTime_of_onRecv (h : Inv fd log s) (hstep : (s.step (.onRecv r)).Yields es t)
    (hlaw : ReceiveLaw t (log ++ es)) : s.InTime (.onRecv r) := by
  intro hwaiting
  obtain ⟨acts, ⟨ret, point⟩, hcall, rfl, rfl⟩ := Traced.record_yields.mp hstep
  rcases onRecv_cases hcall with ⟨-, rfl, rfl⟩ | ⟨datagram, waiting, hcons, -, -⟩
  · refine Option.eq_none_iff_forall_ne_some.mpr fun call harmed => ?_
    obtain ⟨r', hwaits, -⟩ := h.armed call harmed
    -- it is neither completed nor armed any more
    have hstill := (hwaits.other (Nat.ne_of_lt hwaits.lt) r
      ((s.offer r).done [.recvfrom r.buf r.capacity r.flags (.fail EAGAIN)])).notYet
    rcases hlaw.each call (Nat.lt_of_lt_of_le hwaits.lt (by simp)) with hmem | hlast
    · exact hstill hmem
    · rw [if_pos hwaiting] at hlast
      exact Nat.ne_of_lt hwaits.lt (Option.some.inj hlast).symm
  · exact absurd (hwaiting.symm.trans hcons) (List.cons_ne_nil datagram waiting).symm

/-- A `handleRead` that keeps the law is in time. -/
theorem Inv.inTime_of_handleRead (h : Inv fd log s) (hstep : (s.step .handleRead).Yields es t)
    (hlaw : ReceiveLaw t (log ++ es)) : s.InTime .handleRead := by
  obtain ⟨acts, ⟨ret, point⟩, hcall, rfl, rfl⟩ := Traced.record_yields.mp hstep
  obtain ⟨rfl, ⟨hunused, -⟩ | ⟨-, hacts⟩⟩ := handleRead_cases h.fd_eq hcall
  · exact .inl hunused
  right
  have hreports : reports acts ≠ [] := by
    rw [hacts, (of_delivery s.lens).1]
    exact List.cons_ne_nil _ _
  cases harmed : s.armed with
  | none =>
      have hread : s.read acts = .unarmed (s.done acts) := by rw [System.read, harmed]
      have hlawful := hlaw.lawful
      rw [hread] at hlawful
      exact absurd hlawful.last_unarmed.reports hreports
  | some call =>
      have hread : s.read acts = .served call (s.done acts) := by rw [System.read, harmed]
      obtain ⟨r, hwaits, hinfo⟩ := h.armed call harmed
      have hlawful := hlaw.lawful
      rw [hread] at hlawful
      rcases hlawful.last_served hwaits.request with hquiet | hcompletes
      · exact absurd hquiet.reports hreports
      rw [hinfo] at hacts
      unfold System.result at hacts
      cases hwaiting : s.waiting with
      | nil =>
          -- the socket is empty, and there is no datagram
          rw [hwaiting] at hacts
          obtain ⟨datagram, htaken, -⟩ := hcompletes.datagram
          change taken acts = _ at htaken
          rw [hacts, of_delivery_fail] at htaken
          exact absurd htaken (List.cons_ne_nil datagram []).symm
      | cons datagram waiting =>
          rw [hwaiting] at hacts
          exact ⟨call, r, datagram, waiting, rfl, hwaits.request, rfl,
            (completes_iff_same hacts).mp hcompletes⟩

/-- An `onRecv` in time keeps the invariant. -/
theorem Inv.onRecv (h : Inv fd log s) (hok : s.InTime (.onRecv r))
    (hstep : (s.step (.onRecv r)).Yields es t) : Inv fd (log ++ es) t := by
  obtain ⟨acts, ⟨ret, point⟩, hcall, rfl, rfl⟩ := Traced.record_yields.mp hstep
  have hwaits : Waits times (s.requests ++ [r]) log s.requests.length r := h.law.lawful.waits r
  have hlawful : Lawful times ServedAs Quiet (s.requests ++ [r]) log := h.law.lawful.more r
  have hlast : ∀ call < (s.requests ++ [r]).length, call < s.requests.length ∨
      call = s.requests.length := by
    intro call hcall
    rw [List.length_append, List.length_singleton] at hcall
    omega
  rcases onRecv_cases hcall with ⟨hwaiting, rfl, rfl⟩ | ⟨datagram, waiting, hwaiting, rfl, rfl⟩
  · -- nothing is there yet: the new call is armed, and no other one was
    have hquiet : Quiet ((s.offer r).done [.recvfrom r.buf r.capacity r.flags (.fail EAGAIN)]) :=
      ⟨rfl, rfl, rfl, rfl⟩
    refine ⟨h.fd_eq, ⟨hlawful.served hwaits (.inl hquiet) (Nat.zero_le 1), fun call hcall => ?_⟩,
      fun call hcall => ?_⟩
    · rcases hlast call hcall with hearlier | rfl
      · left
        rw [completed_append]
        exact List.mem_append_left _ (h.completed_of_unarmed (hok hwaiting) call hearlier)
      · exact .inr (if_pos hwaiting)
    · rw [if_pos hwaiting] at hcall
      obtain rfl := Option.some.inj hcall
      exact ⟨r, hwaits.untouched rfl, rfl⟩
  · -- a datagram is there, and the call is completed at once
    have hsome : s.waiting ≠ [] := hwaiting ▸ List.cons_ne_nil datagram waiting
    have honce : times ((s.offer r).done (delivery r.buf r.capacity r.flags r.len r.cb r.p
        (.data datagram) (stored r.capacity datagram).length)) = 1 :=
      congrArg List.length (of_delivery s.lens).1
    refine ⟨h.fd_eq, ⟨hlawful.served hwaits (.inr ((completes_iff_same rfl).mpr rfl))
      (Nat.le_of_eq honce), fun call hcall => ?_⟩, fun call hcall => ?_⟩
    · rcases hlast call hcall with hearlier | rfl
      · rw [completed_append]
        exact (h.law.each call hearlier).imp (List.mem_append_left _)
          fun harmed => (if_neg hsome).trans harmed
      · exact .inl (completed_of_served (by rw [honce]; exact Nat.one_ne_zero))
    · rw [if_neg hsome] at hcall
      obtain ⟨r', hwaits', hinfo⟩ := h.armed call hcall
      exact ⟨r', hwaits'.other (Nat.ne_of_lt hwaits'.lt) r _, hinfo⟩

/-- A `handleRead` in time keeps the invariant. -/
theorem Inv.handleRead (h : Inv fd log s) (hok : s.InTime .handleRead)
    (hstep : (s.step .handleRead).Yields es t) : Inv fd (log ++ es) t := by
  obtain ⟨acts, ⟨ret, point⟩, hcall, rfl, rfl⟩ := Traced.record_yields.mp hstep
  obtain ⟨rfl, ⟨hunused, rfl⟩ | ⟨huse, hacts⟩⟩ := handleRead_cases h.fd_eq hcall
  · -- no request has found nothing so far, so none is armed
    have hnone : s.armed = none := by
      refine Option.eq_none_iff_forall_ne_some.mpr fun call harmed => ?_
      obtain ⟨r, -, hinfo⟩ := h.armed call harmed
      rw [hinfo] at hunused
      exact Bool.true_eq_false.mp hunused
    have hread : s.read [] = .unarmed (s.done []) := by rw [System.read, hnone]
    rw [hread]
    refine ⟨h.fd_eq, ⟨h.law.lawful.idle ⟨rfl, rfl, rfl, rfl⟩, fun call hcall => ?_⟩,
      fun call hcall => absurd (hnone.symm.trans hcall) (Option.some_ne_none call).symm⟩
    rw [completed_append]
    exact .inl (List.mem_append_left _ (h.completed_of_unarmed hnone call hcall))
  · rcases hok with hunused | ⟨call, r, datagram, waiting, harmed, hr, hwaiting, hsame⟩
    · exact absurd (huse.symm.trans hunused) Bool.true_eq_false.mp
    obtain ⟨r', hwaits, hinfo⟩ := h.armed call harmed
    obtain rfl := Option.some.inj (hr.symm.trans hwaits.request)
    have hresult : s.result = .data datagram := by rw [System.result, hwaiting]
    rw [hinfo, hresult] at hacts
    have hread : s.read acts = .served call (s.done acts) := by rw [System.read, harmed]
    have hreports : (reports acts).length = 1 := by
      rw [hacts]
      exact congrArg List.length (of_delivery s.lens).1
    have hsome : reports acts ≠ [] := List.ne_nil_of_length_eq_add_one hreports
    have hserved : Completes r (s.done acts) := (completes_iff_same hacts).mpr hsame
    rw [hread]
    refine ⟨h.fd_eq, ⟨h.law.lawful.served hwaits (.inr hserved) (Nat.le_of_eq hreports),
      fun call' hcall => ?_⟩, fun call' hcall => ?_⟩
    · rcases h.law.each call' hcall with hmem | hsame
      · rw [completed_append]
        exact .inl (List.mem_append_left _ hmem)
      · obtain rfl := Option.some.inj (harmed.symm.trans hsame)
        have honce : times (s.done acts) ≠ 0 := by
          rw [times, System.done, hreports]
          exact Nat.one_ne_zero
        exact .inl (completed_of_served honce)
    · rw [if_neg hsome] at hcall
      exact absurd hcall (Option.some_ne_none call').symm

/-- A step in time keeps the invariant. -/
theorem Inv.step (h : Inv fd log s) {action : Action} (hok : s.InTime action)
    (hstep : (s.step action).Yields es t) : Inv fd (log ++ es) t := by
  cases action with
  | arrive datagram =>
      obtain ⟨rfl, rfl⟩ := (Traced.pure_yields ..).mp hstep
      rw [List.append_nil]
      exact ⟨h.fd_eq, ⟨h.law.lawful, h.law.each⟩, h.armed⟩
  | onRecv r => exact h.onRecv hok hstep
  | handleRead => exact h.handleRead hok hstep

end Steps

/-! ### Whole runs -/

/-- Runs whose steps are in time keep the law, and another step keeps it exactly when it is in
time. -/
theorem agrees_iff {fd : Nat} {lens : Nat → Nat} {actions : List Action}
    {log : List (Happening Done)} {s : System}
    (hrun : Traced.Run System.step System.InTime (idle fd lens) actions log s) :
    ReceiveLaw s log ∧ ∀ action,
      (∃ es t, (s.step action).Yields es t ∧ ReceiveLaw t (log ++ es)) ↔ s.InTime action := by
  have hempty : Inv fd [] (idle fd lens) :=
    ⟨rfl, ⟨.nil, fun call hcall => absurd hcall (Nat.not_lt_zero call)⟩,
      fun call hcall => absurd hcall (Option.some_ne_none call).symm⟩
  have hinv : Inv fd log s := hrun.invariant (P := fun _ log s => Inv fd log s) hempty
    fun _ _ _ _ _ _ h hok hstep => h.step hok hstep
  refine ⟨hinv.law, fun action => ⟨?_, fun hok => ?_⟩⟩
  · rintro ⟨es, t, hstep, hlaw⟩
    cases action with
    | arrive datagram => trivial
    | onRecv r => exact hinv.inTime_of_onRecv hstep hlaw
    | handleRead => exact hinv.inTime_of_handleRead hstep hlaw
  · obtain ⟨es, t, hstep⟩ := step_returns hinv.fd_eq action
    exact ⟨es, t, hstep, (hinv.step hok hstep).law⟩

/-- A request with a callback. -/
def requestOf (buf capacity cb : Nat) : Request :=
  { buf := buf, len := 8, capacity := capacity, flags := 0, cb := some cb, p := 7 }

/-- A request that waits for its datagram. -/
theorem agrees_iff_deferred : ∃ log s,
    Traced.Run System.step System.InTime (idle 4 fun _ => 0)
      [.onRecv (requestOf 100 4 5), .arrive [1, 2], .handleRead] log s ∧
    s.lens 8 = 2 ∧ completed times log = [0] ∧ ReceiveLaw s log ∧ ∀ action,
      (∃ es t, (s.step action).Yields es t ∧ ReceiveLaw t (log ++ es)) ↔ s.InTime action := by
  have hrun : ∃ log s, Traced.Run System.step System.InTime (idle 4 fun _ => 0)
      [.onRecv (requestOf 100 4 5), .arrive [1, 2], .handleRead] log s ∧
      s.lens 8 = 2 ∧ completed times log = [0] := by
    refine ⟨_, _, .snoc (.snoc (.snoc (l := []) .nil ?_ ⟨rfl, rfl⟩) ?_ ⟨rfl, rfl⟩) ?_ ⟨rfl, rfl⟩,
      rfl, rfl⟩
    · exact fun _ => rfl
    · exact trivial
    · exact .inr ⟨0, requestOf 100 4 5, [1, 2], [], rfl, rfl, rfl, rfl⟩
  obtain ⟨log, s, hrun, hlens, hcompleted⟩ := hrun
  exact ⟨log, s, hrun, hlens, hcompleted, agrees_iff hrun⟩

/-- Four runs. A datagram that comes later is not cut to the capacity. The next one completes the
same request again. A `handleRead` that finds the socket empty, because `onRecv` has taken the
datagram, completes the next request with none. And a second `onRecv` loses the request of the
first. -/
theorem ways_differ :
    (∃ log s, Traced.Run System.step (fun _ _ => True) (idle 4 fun _ => 0)
      [.onRecv (requestOf 100 1 5), .arrive [1, 2], .handleRead] log s ∧ ¬ ReceiveLaw s log) ∧
    (∃ log s, Traced.Run System.step (fun _ _ => True) (idle 4 fun _ => 0)
      [.onRecv (requestOf 100 4 5), .arrive [1], .handleRead, .arrive [2], .handleRead] log s ∧
      ¬ ReceiveLaw s log) ∧
    (∃ log s, Traced.Run System.step (fun _ _ => True) (idle 4 fun _ => 0)
      [.arrive [1], .onRecv (requestOf 100 4 5), .onRecv (requestOf 200 4 6), .handleRead] log s ∧
      s.lens 8 = 2 ^ 64 - 1 ∧ ¬ ReceiveLaw s log) ∧
    ∃ log s, Traced.Run System.step (fun _ _ => True) (idle 4 fun _ => 0)
      [.onRecv (requestOf 100 4 5), .onRecv (requestOf 200 4 6)] log s ∧ ¬ ReceiveLaw s log := by
  refine ⟨⟨_, _, .snoc (.snoc (.snoc (l := []) .nil trivial ⟨rfl, rfl⟩) trivial ⟨rfl, rfl⟩) trivial
      ⟨rfl, rfl⟩, fun h => ?_⟩,
    ⟨_, _, .snoc (.snoc (.snoc (.snoc (.snoc (l := []) .nil trivial ⟨rfl, rfl⟩) trivial ⟨rfl, rfl⟩)
      trivial ⟨rfl, rfl⟩) trivial ⟨rfl, rfl⟩) trivial ⟨rfl, rfl⟩, fun h => ?_⟩,
    ⟨_, _, .snoc (.snoc (.snoc (.snoc (l := []) .nil trivial ⟨rfl, rfl⟩) trivial ⟨rfl, rfl⟩) trivial
      ⟨rfl, rfl⟩) trivial ⟨rfl, rfl⟩, rfl, fun h => ?_⟩,
    ⟨_, _, .snoc (.snoc (l := []) .nil trivial ⟨rfl, rfl⟩) trivial ⟨rfl, rfl⟩, fun h => ?_⟩⟩
  · -- two bytes in a buffer of one
    obtain ⟨r, hr, hserved⟩ := h.lawful.own _ _ (List.mem_cons_of_mem _ List.mem_cons_self)
    obtain rfl := Option.some.inj hr
    rcases hserved with hquiet | hcompletes
    · exact List.cons_ne_nil _ _ hquiet.reports
    · obtain ⟨datagram, htaken, hplaced, -⟩ := hcompletes.datagram
      obtain rfl := List.singleton_inj.mp htaken
      exact absurd hplaced (by decide)
  · have hquiet := h.lawful.unarmed _ (List.mem_cons_of_mem _ (List.mem_cons_of_mem _
      List.mem_cons_self))
    exact List.cons_ne_nil _ _ hquiet.reports
  · obtain ⟨r, hr, hserved⟩ := h.lawful.own _ _ (List.mem_cons_of_mem _ (List.mem_cons_of_mem _
      List.mem_cons_self))
    rcases hserved with hquiet | hcompletes
    · exact List.cons_ne_nil _ _ hquiet.reports
    · obtain ⟨datagram, htaken, -⟩ := hcompletes.datagram
      exact List.cons_ne_nil datagram [] htaken.symm
  · rcases h.each 0 (by decide) with hmem | harmed
    · exact absurd hmem List.not_mem_nil
    · exact absurd harmed (by decide)

end Ndsl.Proofs.Udp.Receive
