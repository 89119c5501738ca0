import Mathlib.Data.List.TakeDrop
import Ndsl.Proofs.Dns.Completes
import Ndsl.Proofs.Dns.Inside

/-!
# `Ndsl.Proofs.Dns.Drains`: whether the socket is empty behind a call

The socket is enrolled edge-triggered, so a datagram that a call leaves behind waits until another
one comes in. `handle_read` goes back to `recv` behind a datagram that is not a response, and behind
an address in the last answer of a response. Behind any other response it returns 0, whatever waits,
and at a pending error of the socket it returns like at the end of the queue.

`drains_iff` says for which sockets a call goes on to the end of the queue. The condition is about
the datagrams, what was in the buffer, and how many requests were pending with each id.
-/

set_option autoImplicit false

namespace Ndsl.Proofs.Dns

open Ndsl.Lib
open Ndsl.Net Ndsl.Net.Dns

/-! ### Statements -/

/-- What the calls of `recv` have given. -/
def received (log : List Event) : List (Option (List UInt8)) :=
  log.filterMap fun
    | .recv datagram => some datagram
    | _ => none

/-- A call takes all datagrams that wait, in turn, and returns behind a `recv` that has reported
`-1`. -/
def Drains (socket : Socket) (s : Dns) : Prop :=
  ∃ es t, (s.handleRead socket.given).Yields es (-1, t) ∧
    received es = socket.datagrams.map some ++ [none]

/-- Read from a position on, the last of so many answers is an address, and of so many pending
requests one is left for it. Each address before it takes one. It gives the buffer as the walk
leaves it, and how many requests are left. -/
def lastFinds : Nat → Nat → Buffer → Int → Option (Buffer × Nat)
  | 0, _, _, _ => none
  | answers + 1, pending, buf, start =>
    if start < 0 then none
    else (skip (buf.bytes.drop start.toNat)).bind fun n =>
      let p := start.toNat + n
      let next := ((p + 10 : Nat) : Int) + shortAt buf (p + 8)
      if BUFFER_SIZE < p + 10 then none
      else if shortAt buf p = DEFAULT_QUERY_TYPE ∧ 0 < pending then
        if BUFFER_SIZE < p + 14 then none
        else if answers = 0 then some (passed buf start.toNat, pending - 1)
        else lastFinds answers (pending - 1) (passed buf start.toNat) next
      else lastFinds answers pending (passed buf start.toNat) next

/-- What is in the buffer, and how many requests are pending with each id. -/
abbrev Requests := Buffer × (UInt16 → Nat)

/-- What they are behind a datagram that leads on to the next `recv`: it is not a response, or its
last answer is an address for a request that is still pending. -/
def leads (x : Requests) (datagram : List UInt8) : Option Requests :=
  let buf := x.1.recv datagram
  if headAt buf 2 &&& QUERY_RESPONSE_FLAGS = 0 then some (buf, x.2)
  else (behindQuestions (headAt buf 4) buf 12).bind fun behind =>
    (lastFinds (headAt buf 6) (x.2 (idOf buf)) behind.1 behind.2).map fun last =>
      (last.1, Function.update x.2 (idOf buf) last.2)

/-- Each datagram leads on, as the ones before it leave the buffer and the requests. -/
def AllLead (datagrams : List (List UInt8)) (x : Requests) : Prop :=
  (datagrams.foldlM leads x).isSome

/-- What `leads` is about, in a state. -/
def requestsOf (s : Dns) : Requests := (s.buffer_, fun id => pendings id s)

/-! ### The walk over the answers -/

/-- A walk that goes to `retry` leaves these requests, and one without them does not go there. -/
def Retries (next : Option Requests) (value : Option (Bool × Dns)) : Prop :=
  match next with
  | none => ∀ t, value ≠ some (true, t)
  | some x => ∃ t, value = some (true, t) ∧ requestsOf t = x

/-- `lastFinds` for the requests of a state. -/
def findsIn (id : UInt16) (answers : Nat) (p : Int) (x : Requests) : Option Requests :=
  (lastFinds answers (x.2 id) x.1 p).map fun last => (last.1, Function.update x.2 id last.2)

section Answers
variable {s t : Dns} {id : UInt16} {answers : Nat}

/-- A walk that ensures nothing goes nowhere. -/
theorem leads_of_ensures {ok : Event → Prop} {x : Traced Event (Bool × Dns)}
    (h : x.Ensures ok fun _ => False) : Retries none x.value :=
  fun _ ht => h.value _ ht

/-- The requests behind an address that was taken. -/
theorem requests_of_less {dtask : Nat} {addr : List UInt8} (hbuffer : t.buffer_ = s.buffer_)
    (hless : ∀ i, pendings i (t.pushBack dtask addr) =
      pendings i s - if i = id then 1 else 0) :
    requestsOf (t.pushBack dtask addr) =
      (s.buffer_, Function.update (fun i => pendings i s) id (pendings id s - 1)) := by
  refine Prod.ext hbuffer (funext fun i => (hless i).trans ?_)
  dsimp only
  by_cases hi : i = id
  · rw [if_pos hi, hi, Function.update_self]
  · rw [if_neg hi, Function.update_of_ne hi, Nat.sub_zero]

/-- An answer whose fields are in the buffer. -/
theorem findsIn_of_skip {start n : Nat} (hskip : skip (s.buffer_.bytes.drop start) = some n)
    (hin : start + n + 10 ≤ BUFFER_SIZE) :
    findsIn id (answers + 1) start (requestsOf s) =
      let next := ((start + n + 10 : Nat) : Int) + shortAt s.buffer_ (start + n + 8)
      let buf := passed s.buffer_ start
      if shortAt s.buffer_ (start + n) = DEFAULT_QUERY_TYPE ∧ 0 < pendings id s then
        if BUFFER_SIZE < start + n + 10 + 4 then none
        else
          let left := Function.update (fun i => pendings i s) id (pendings id s - 1)
          if answers = 0 then some (buf, left)
          else findsIn id answers next (buf, left)
      else findsIn id answers next (buf, fun i => pendings i s) := by
  have hpos : ¬ (start : Int) < 0 := by omega
  dsimp only [findsIn, requestsOf]
  rw [lastFinds, if_neg hpos, Int.toNat_natCast, hskip, Option.bind_some]
  dsimp only
  rw [if_neg (Nat.not_lt.mpr hin), Function.update_self]
  split
  · split
    · rfl
    · split
      · rfl
      · -- both requests are taken from the same id
        simp only [Function.update_idem]
  · rfl

/-- The walk behind the fields of an answer. -/
theorem withFields_leads (hwalk : ∀ (s : Dns) (p : Int),
      Retries (findsIn id answers p (requestsOf s)) (s.walkAnswers id answers p).value)
    (s : Dns) (type dlen : Int) (data : Nat) :
    Retries (if type = DEFAULT_QUERY_TYPE ∧ 0 < pendings id s then
        if BUFFER_SIZE < data + 4 then none
        else
          let left := Function.update (fun i => pendings i s) id (pendings id s - 1)
          if answers = 0 then some (s.buffer_, left)
          else findsIn id answers (data + dlen) (s.buffer_, left)
      else findsIn id answers (data + dlen) (requestsOf s))
      (withFields id answers type dlen data s).value := by
  by_cases htaken : type = DEFAULT_QUERY_TYPE ∧ 0 < pendings id s
  · rw [if_pos htaken]
    obtain ⟨rfl, hpending⟩ := htaken
    obtain ⟨dtask, u, hfound, hbuffer, hless⟩ := findQuery_of_pendings_pos hpending
    by_cases hout : BUFFER_SIZE < data + 4
    · rw [if_pos hout, withFields_of_outside hfound (read_of_lt hout)]
      exact fun t ht => Option.some_ne_none _ ht.symm
    · have hread : u.buffer_.read data 4 = some ((u.buffer_.bytes.drop data).take 4) :=
        read_of_le (Nat.le_of_not_lt hout)
      generalize List.take 4 _ = addr at hread
      have hleft := requests_of_less hbuffer (hless addr)
      rw [if_neg hout]
      cases answers with
      | zero =>
          -- the last answer: the call goes to `retry`
          rw [withFields_last hfound hread, Traced.value_tell_bind]
          exact ⟨_, rfl, hleft⟩
      | succ answers =>
          -- the request is not pending any more when the next answer is read
          rw [withFields_succ hfound hread, Traced.value_tell_bind]
          dsimp only
          rw [if_neg (Nat.succ_ne_zero answers), ← hleft]
          exact hwalk (u.pushBack dtask addr) _
  · have hnone : type = DEFAULT_QUERY_TYPE → s.findQuery id = (none, s) :=
      fun htype => findQuery_of_pendings_eq_zero fun hpos => htaken ⟨htype, hpos⟩
    rw [if_neg htaken, withFields_of_none hnone, Traced.value_tell_bind]
    exact hwalk s _

/-- The walk goes to `retry` exactly when the last answer finds a request. -/
theorem walkAnswers_leads (id : UInt16) (answers : Nat) : ∀ (s : Dns) (p : Int),
    Retries (findsIn id answers p (requestsOf s)) (s.walkAnswers id answers p).value := by
  induction answers with
  | zero => exact fun s p t ht => absurd (Prod.mk.inj (Option.some.inj ht)).1 Bool.false_ne_true
  | succ answers ih =>
      intro s p
      rcases Int.lt_or_le p 0 with hneg | hpos
      · rw [findsIn, lastFinds, if_pos hneg]
        exact leads_of_ensures (walkAnswers_of_neg id answers hneg)
      obtain ⟨start, rfl⟩ := Int.eq_ofNat_of_zero_le hpos
      by_cases hin : ∃ n, skip (s.buffer_.bytes.drop start) = some n ∧
          start + n + 10 ≤ BUFFER_SIZE
      · obtain ⟨n, hskip, hle⟩ := hin
        rw [findsIn_of_skip hskip hle, walkAnswers_of_skip hskip hle, Traced.value_tell_bind]
        exact withFields_leads ih { s with buffer_ := passed s.buffer_ start } _ _ _
      · have hout : ∀ n, skip (s.buffer_.bytes.drop start) = some n →
            BUFFER_SIZE < start + n + 10 :=
          fun n hskip => Nat.lt_of_not_le fun hle => hin ⟨n, hskip, hle⟩
        have hnone : findsIn id (answers + 1) start (requestsOf s) = none := by
          dsimp only [findsIn, requestsOf]
          rw [lastFinds, if_neg (by omega), Int.toNat_natCast]
          cases hskip : skip (s.buffer_.bytes.drop start) with
          | none => rfl
          | some n =>
              rw [Option.bind_some]
              exact congrArg _ (if_pos (hout n hskip))
        rw [hnone]
        exact leads_of_ensures (walkAnswers_of_outside id answers hout)

end Answers

/-! ### A datagram -/

/-- The call goes to `retry` behind a datagram exactly when the datagram leads on. -/
theorem response_leads (datagram : List UInt8) (s : Dns) :
    Retries (leads (requestsOf s) datagram)
      (response { s with buffer_ := s.buffer_.recv datagram }).value := by
  generalize hu : ({ s with buffer_ := s.buffer_.recv datagram } : Dns) = u
  have hrecv : (requestsOf s).1.recv datagram = u.buffer_ := by rw [← hu]; rfl
  have hpendings : (requestsOf s).2 = fun id => pendings id u := by rw [← hu]; rfl
  dsimp only [leads]
  rw [hrecv, hpendings]
  by_cases hflags : headAt u.buffer_ 2 &&& QUERY_RESPONSE_FLAGS = 0
  · rw [if_pos hflags, response_of_query hflags, Traced.value_tell_bind]
    exact ⟨u, rfl, rfl⟩
  · have hquestions := value_skipQuestions (headAt u.buffer_ 4) u 12
    rw [if_neg hflags, response_eq hflags, Traced.value_tell_bind, Traced.value_bind,
      show (12 : Int) = ((12 : Nat) : Int) from rfl, hquestions]
    cases hbehind : behindQuestions (headAt u.buffer_ 4) u.buffer_ 12 with
    | none => exact fun t ht => Option.some_ne_none _ ht.symm
    | some x =>
        exact walkAnswers_leads (idOf u.buffer_) (headAt u.buffer_ 6)
          { u with buffer_ := x.1 } x.2

/-- Nothing is received while a datagram is read. -/
theorem received_response (s : Dns) : received s.response.log = [] := by
  refine List.filterMap_eq_nil_iff.mpr fun e he => ?_
  have hquiet := response_quiet s e he
  cases e with
  | recv datagram => exact absurd trivial hquiet
  | _ => rfl

/-! ### A call -/

section Call
variable {s u : Dns} {datagram : List UInt8} {datagrams : List (List UInt8)}

@[simp] theorem given_of_none (datagrams : List (List UInt8)) :
    Socket.given { datagrams := datagrams } = datagrams := rfl

/-- What a call receives behind its first datagram. -/
theorem received_cons {es fs : List Event} (hes : received es = []) :
    received ([.recv (some datagram)] ++ es ++ fs) = some datagram :: received fs := by
  rw [received, List.filterMap_append, List.filterMap_append,
    show List.filterMap _ es = [] from hes]
  rfl

/-- A call does not receive more than it is given. -/
theorem length_received_le (datagrams : List (List UInt8)) : ∀ s : Dns,
    (received (s.handleRead datagrams).log).length ≤ datagrams.length + 1 := by
  induction datagrams with
  | nil => exact fun s => Nat.le_refl 1
  | cons datagram datagrams ih =>
      intro s
      rw [handleRead, Traced.log_tell_bind, Traced.log_bind, ← List.append_assoc,
        received_cons (received_response _), List.length_cons, List.length_cons]
      refine Nat.succ_le_succ ?_
      cases (response { s with buffer_ := s.buffer_.recv datagram }).value with
      | none => exact Nat.zero_le _
      | some x =>
          obtain ⟨retry, u⟩ := x
          cases retry with
          | true => exact ih u
          | false => exact Nat.zero_le _

/-- A datagram that leads on is followed by the others. -/
theorem drains_cons_iff
    (h : (response { s with buffer_ := s.buffer_.recv datagram }).value = some (true, u)) :
    Drains { datagrams := datagram :: datagrams } s ↔ Drains { datagrams := datagrams } u := by
  obtain ⟨es, hyields⟩ : ∃ es, (response { s with buffer_ := s.buffer_.recv datagram }).Yields es
      (true, u) := ⟨_, rfl, h⟩
  have hlog : received es = [] := by
    rw [← hyields.1]
    exact received_response _
  have hcall : s.handleRead (datagram :: datagrams) =
      .tell ([.recv (some datagram)] ++ es) >>= fun _ => u.handleRead datagrams := by
    rw [handleRead, hyields.eq_tell_bind, Traced.bind_assoc, Traced.tell_bind_tell_bind]
    rfl
  constructor
  · rintro ⟨fs, t, hdone, hfs⟩
    rw [given_of_none, hcall, Traced.tell_bind_yields] at hdone
    obtain ⟨gs, hrest, rfl⟩ := hdone
    rw [received_cons hlog] at hfs
    exact ⟨gs, t, hrest, (List.cons.inj hfs).2⟩
  · rintro ⟨gs, t, hrest, hgs⟩
    refine ⟨_, t, ?_, (received_cons hlog).trans (congrArg _ hgs)⟩
    rw [given_of_none, hcall, Traced.tell_bind_yields]
    exact ⟨gs, hrest, rfl⟩

/-- A call that drains the socket goes on behind its first datagram. -/
theorem retry_of_drains (h : Drains { datagrams := datagram :: datagrams } s) :
    ∃ u, (response { s with buffer_ := s.buffer_.recv datagram }).value = some (true, u) := by
  obtain ⟨es, t, hyields, -⟩ := h
  rw [given_of_none, handleRead, Traced.tell_bind_yields] at hyields
  obtain ⟨fs, hcall, -⟩ := hyields
  obtain ⟨gs, ⟨retry, u⟩, hs, hresponse, hend, -⟩ := Traced.bind_yields.mp hcall
  cases retry with
  | true => exact ⟨u, hresponse.2⟩
  | false =>
      -- the call returns 0
      obtain ⟨-, hpair⟩ := (Traced.pure_yields ..).mp hend
      exact absurd (Prod.mk.inj hpair).1 (by decide)

/-- Without an error, a call drains the socket exactly when each datagram leads on. -/
theorem drains_iff_allLead (datagrams : List (List UInt8)) : ∀ s : Dns,
    Drains { datagrams := datagrams } s ↔ AllLead datagrams (requestsOf s) := by
  induction datagrams with
  | nil => exact fun s => iff_of_true ⟨_, s, ⟨rfl, rfl⟩, rfl⟩ rfl
  | cons datagram datagrams ih =>
      intro s
      have hleads := response_leads datagram s
      rw [AllLead, List.foldlM_cons]
      cases hnext : leads (requestsOf s) datagram with
      | none =>
          rw [hnext] at hleads
          refine iff_of_false (fun hdrains => ?_) Bool.false_ne_true
          obtain ⟨u, hu⟩ := retry_of_drains hdrains
          exact hleads u hu
      | some x =>
          rw [hnext] at hleads
          obtain ⟨u, hu, rfl⟩ := hleads
          exact (drains_cons_iff hu).trans (ih u)

/-- A call that drains the socket has been given all datagrams. -/
theorem given_of_drains {socket : Socket} (h : Drains socket s) :
    socket.given = socket.datagrams := by
  obtain ⟨es, t, hyields, hall⟩ := h
  have hle := length_received_le socket.given s
  rw [hyields.1, hall, List.length_append, List.length_map, List.length_singleton] at hle
  unfold Socket.given at hle ⊢
  split
  · rfl
  · next taken heq =>
    rw [heq] at hle
    refine List.take_of_length_le ?_
    rw [List.length_take] at hle
    omega

/-- `recv` reports no error while a datagram waits. -/
theorem given_eq_iff (socket : Socket) : socket.given = socket.datagrams ↔
    ∀ taken ∈ socket.error, socket.datagrams.length ≤ taken := by
  unfold Socket.given
  cases socket.error with
  | none => exact iff_of_true rfl fun _ h => absurd h (Option.not_mem_none _)
  | some taken =>
      refine (List.take_eq_self_iff _).trans ⟨fun hle other hother => ?_, fun h => h taken rfl⟩
      rwa [← Option.mem_some_iff.mp hother]

/-- A call drains the socket exactly when no error is reported in front of a datagram, and each
datagram is not a response, or has an address for a pending request in its last answer. -/
theorem drains_iff (socket : Socket) (s : Dns) : Drains socket s ↔
    (∀ taken ∈ socket.error, socket.datagrams.length ≤ taken) ∧
      AllLead socket.datagrams (requestsOf s) := by
  rw [← given_eq_iff, ← drains_iff_allLead]
  have hsame : socket.given = socket.datagrams →
      (Drains socket s ↔ Drains { datagrams := socket.datagrams } s) := by
    intro hgiven
    unfold Drains
    rw [hgiven]
    rfl
  constructor
  · intro hdrains
    have hgiven := given_of_drains hdrains
    exact ⟨hgiven, (hsame hgiven).mp hdrains⟩
  · rintro ⟨hgiven, hdrains⟩
    exact (hsame hgiven).mpr hdrains

end Call

/-- The response of a name server that does not know the name `a`. It has the query in it, and no
answer. -/
def unknownName : List UInt8 :=
  [9, 0, 0x81, 0x83, 0, 1, 0, 0, 0, 0, 0, 0, 1, 0x61, 0, 0, 1, 0, 1]

/-- The call returns behind such a response, and the address for the pending request is not taken.
-/
theorem left_behind : ¬ Drains { datagrams := [unknownName, answered] } waiting ∧
    ∃ es t, (waiting.handleRead [unknownName, answered]).Yields es (0, t) ∧
      received es = [some unknownName] ∧ pendings 1 t = 1 := by
  refine ⟨fun h => ?_, ⟨_, _, ⟨rfl, rfl⟩, rfl, by decide⟩⟩
  obtain ⟨u, hu⟩ := retry_of_drains h
  exact absurd (Prod.mk.inj (Option.some.inj hu)).1 (by decide)

end Ndsl.Proofs.Dns
