import Ndsl.Net.TcpConnection

/-!
# `Ndsl.Proofs.TcpConnection.Receive`: the law of the receive registration

`System` puts a connection beside the receive side of its socket: the bytes that have arrived and
wait there, and whether the peer has closed. It counts the calls of `onRecv` and notes whose
registration `RecvInfo_` is. A completion callback is the last thing that `onRecv` and
`handleRead` do, so an `onRecv` that it makes is the next step.

`ReceiveLaw` is the law of the registration: what is reported is a prefix of what was received,
every `onRecv` is completed at most once, with `*len` as the number of the bytes in its buffer,
and a registration that is armed ends by data, by the end of the stream or by an error.

`law_of_unblocked` proves it of the runs in which no `recv` would block while a registration is
armed. `registration_lost` shows the two ways in which such a `recv` ends a registration: in
`handleRead`, which takes it for an error, and in an `onRecv`, which puts its own request in the
place of the one that is waiting.
-/

set_option autoImplicit false

namespace Ndsl.Proofs.Tcp.Receive

open Ndsl.Lib
open Ndsl.Net (S_OK S_FALSE MAXLINE toSize)
open Ndsl.Net.Tcp

/-! ### A connection and its socket -/

/-- A `recv` that would have blocked. -/
def blocked : RecvResult → Bool
  | .fail errno => errno = EAGAIN ∨ errno = EWOULDBLOCK
  | .data _ => false

/-- The bytes that the acts of a call took from the socket. -/
def taken (acts : List Act) : List UInt8 :=
  acts.flatMap fun
    | .recv _ _ _ (.data bytes) => bytes
    | _ => []

/-- What happens to a call of `onRecv`. -/
inductive Happening
  /-- Bytes were received for it, in a call of the connection that did `acts`. -/
  | report (call : Option Nat) (acts : List Act)
  /-- Its registration is not armed any more, after a `recv` with this result. -/
  | ended (call : Nat) (result : RecvResult)
  deriving Repr, DecidableEq

/-- A connection, what has arrived for it and waits in the socket, all that has ever arrived, the
requests of its `onRecv` calls, and the number of the call whose registration is armed. What a
`recv` returns leaves the socket: the flags have neither `MSG_PEEK` nor `MSG_TRUNC`. -/
structure System where
  conn : TcpConnection
  pending : List UInt8 := []
  eof : Bool := false
  received : List UInt8 := []
  requests : List Request := []
  owner : Option Nat := none

/-- A step: of the peer, or of the connection, with the result of the `recv` it makes. -/
inductive Action
  | arrive (bytes : List UInt8)
  | close
  | onRecv (r : Request) (result : RecvResult)
  | handleRead (result : RecvResult)
  deriving Repr, DecidableEq

namespace System

/-- The system after a call of the connection: `call` is the `onRecv` that it worked for, and
`registered` says that it left the request of that `onRecv` in `RecvInfo_`. -/
def settle (s : System) (call : Option Nat) (registered : Bool) (result : RecvResult)
    (x : Traced Act (Int × TcpConnection)) : Traced Happening System :=
  match x.value with
  | none => .fault
  | some (_, conn) => do
    let owner := if conn.RecvInfo_.recvInUse_ then (if registered then call else s.owner) else none
    .tell (if taken x.log = [] then [] else [.report call x.log])
    .tell (s.owner.toList.filterMap fun k =>
      if owner = some k then none else some (.ended k result))
    return { s with conn := conn, pending := s.pending.drop (taken x.log).length, owner := owner }

/-- One step. An `onRecv` that finds nothing to receive takes the registration over. -/
def step (s : System) : Action → Traced Happening System
  | .arrive bytes =>
    pure { s with pending := s.pending ++ bytes, received := s.received ++ bytes }
  | .close => pure { s with eof := true }
  | .onRecv r result =>
    settle { s with requests := s.requests ++ [r] } (some s.requests.length) (blocked result)
      result (onRecv r result s.conn)
  | .handleRead result => s.settle s.owner false result (handleRead result s.conn)

/-- What `recv` gives: waiting bytes in their order, the end of the stream behind the last one,
or an error, which says that it would block only when there is nothing. -/
def Gives (s : System) : RecvResult → Prop
  | .data [] => s.pending = [] ∧ s.eof = true
  | .data (b :: bytes) => b :: bytes <+: s.pending ∧ (b :: bytes).length ≤ MAXLINE
  | .fail errno => blocked (.fail errno) = true → s.pending = [] ∧ s.eof = false

/-- The steps that can be taken. -/
def Possible (s : System) : Action → Prop
  | .arrive _ => s.eof = false
  | .close => True
  | .onRecv _ result => s.Gives result
  | .handleRead result => s.Gives result

/-- No `recv` would block while a registration is armed. -/
def Unblocked (s : System) : Action → Prop
  | .onRecv _ result => s.conn.RecvInfo_.recvInUse_ = true → blocked result = false
  | .handleRead result => s.conn.RecvInfo_.recvInUse_ = true → blocked result = false
  | _ => True

end System

/-- A connection on a channel, before anything has arrived. -/
def idle (channel : TcpChannel) : System := { conn := { pTcpChannel_ := some channel } }

/-! ### The law -/

/-- The bytes that were reported, in the order of the reports. -/
def reported (log : List Happening) : List UInt8 :=
  log.flatMap fun
    | .report _ acts => taken acts
    | .ended _ _ => []

/-- The calls that were completed. -/
def completed (log : List Happening) : List (Option Nat) :=
  log.filterMap fun
    | .report call _ => some call
    | .ended _ _ => none

/-- The acts that complete a request with `bytes`: they go into its buffer, their number goes
into its `*len`, and its callback is called, unless it is `NULL`. -/
def completion (r : Request) (bytes : List UInt8) : List Act :=
  [.recv r.buf MAXLINE (r.flags ||| MSG_NOSIGNAL) (.data bytes), .setLen r.len bytes.length] ++
    r.cb.toList.map fun cb => .callback cb r.param

/-- The ways in which a registration may end. -/
def Ends : RecvResult → Prop
  | .data _ => True
  | .fail errno => errno ≠ EAGAIN ∧ errno ≠ EWOULDBLOCK

/-- The law of the registration. -/
structure ReceiveLaw (s : System) (log : List Happening) : Prop where
  stream : reported log <+: s.received
  once : (completed log).Nodup
  reports : ∀ call acts, .report call acts ∈ log →
    ∃ k r, call = some k ∧ s.requests[k]? = some r ∧ acts = completion r (taken acts)
  kept : ∀ call result, .ended call result ∈ log → Ends result

@[simp] theorem reported_append (log es : List Happening) :
    reported (log ++ es) = reported log ++ reported es := List.flatMap_append

@[simp] theorem completed_append (log es : List Happening) :
    completed (log ++ es) = completed log ++ completed es := List.filterMap_append

/-- What a completion takes from the socket. -/
@[simp] theorem taken_completion (r : Request) (bytes : List UInt8) :
    taken (completion r bytes) = bytes := by
  unfold taken completion
  cases r.cb <;> simp

/-- A result that would not block ends a registration rightly. -/
theorem ends_of_not_blocked {result : RecvResult} (h : blocked result = false) : Ends result := by
  cases result with
  | data bytes => trivial
  | fail errno =>
      have hnot : ¬ (errno = EAGAIN ∨ errno = EWOULDBLOCK) := of_decide_eq_false h
      exact not_or.mp hnot

/-! ### What the two calls can do -/

/-- A callback is in the trace, unless it is `NULL`. -/
theorem callback_toList (cb : Option Nat) (param : Nat) :
    (callback cb param).Yields (cb.toList.map fun cb => .callback cb param) () := by
  cases cb with
  | none => exact ⟨rfl, rfl⟩
  | some cb => exact ⟨rfl, rfl⟩

/-- The handler of an error takes nothing from the socket. -/
theorem onErrno_taken (channel : TcpChannel) (errno : Int) :
    ∃ es, (channel.onErrno errno).Yields es () ∧ taken es = [] := by
  unfold TcpChannel.onErrno
  cases channel.errorHandle_ with
  | none => exact ⟨_, ⟨rfl, rfl⟩, rfl⟩
  | some handler => exact ⟨_, ⟨rfl, rfl⟩, rfl⟩

/-- The trace of a completion. -/
theorem completion_yields {α : Type} (r : Request) (bytes : List UInt8) (a : α) :
    (Traced.tell [Act.recv r.buf MAXLINE (r.flags ||| MSG_NOSIGNAL) (.data bytes)] >>= fun _ =>
      Traced.tell [Act.setLen r.len bytes.length] >>= fun _ =>
      callback r.cb r.param >>= fun _ => pure a).Yields (completion r bytes) a := by
  refine (Traced.tell_bind_yields ..).mpr ⟨_, (Traced.tell_bind_yields ..).mpr ⟨_, ?_, rfl⟩, rfl⟩
  exact Traced.bind_yields.mpr ⟨_, (), [], callback_toList r.cb r.param, ⟨rfl, rfl⟩,
    (List.append_nil _).symm⟩

/-- The trace of an error takes nothing from the socket. -/
theorem error_yields {α : Type} (channel : TcpChannel) (buf flags len : Nat) (errno : Int)
    (a : α) :
    ∃ acts, (Traced.tell [Act.recv buf MAXLINE flags (.fail errno)] >>= fun _ =>
      Traced.tell [Act.setLen len (toSize (-1))] >>= fun _ =>
      channel.onErrno errno >>= fun _ => pure a).Yields acts a ∧ taken acts = [] := by
  obtain ⟨es, hes, htaken⟩ := onErrno_taken channel errno
  refine ⟨_, (Traced.tell_bind_yields ..).mpr ⟨_, (Traced.tell_bind_yields ..).mpr ⟨es, ?_, rfl⟩,
    rfl⟩, ?_⟩
  · exact Traced.bind_yields.mpr ⟨es, (), [], hes, ⟨rfl, rfl⟩, (List.append_nil _).symm⟩
  · exact htaken

/-- What `onRecv` can do. It leaves the request, or fails, or finds the stream at its end, or
takes the request to its end at once; only the first and the third touch the registration. -/
inductive OnRecv (r : Request) (conn : TcpConnection) :
    RecvResult → List Act → TcpConnection → Prop
  | block (result : RecvResult) (acts : List Act) (hblocked : blocked result = true)
      (htaken : taken acts = []) : OnRecv r conn result acts (onRecv.register r conn)
  | fail (errno : Int) (acts : List Act) (hblocked : blocked (.fail errno) = false)
      (htaken : taken acts = []) : OnRecv r conn (.fail errno) acts conn
  | eof (acts : List Act) (htaken : taken acts = []) :
      OnRecv r conn (.data []) acts (handleRead.used conn)
  | data (b : UInt8) (bytes : List UInt8) :
      OnRecv r conn (.data (b :: bytes)) (completion r (b :: bytes)) conn

theorem onRecv_cases (r : Request) (result : RecvResult) {conn : TcpConnection}
    {channel : TcpChannel} (hchannel : conn.pTcpChannel_ = some channel) :
    ∃ acts ret conn', (onRecv r result conn).Yields acts (ret, conn') ∧
      OnRecv r conn result acts conn' := by
  obtain ⟨_, queue, info, files⟩ := conn
  obtain rfl : _ = some channel := hchannel
  cases result with
  | fail errno =>
      by_cases hblocked : errno = EAGAIN ∨ errno = EWOULDBLOCK
      · simp only [onRecv, if_pos hblocked]
        exact ⟨_, _, _, ⟨rfl, rfl⟩, .block _ _ (decide_eq_true hblocked) rfl⟩
      · obtain ⟨acts, hacts, htaken⟩ := error_yields channel r.buf (r.flags ||| MSG_NOSIGNAL) r.len
          errno (S_FALSE, TcpConnection.mk (some channel) queue info files)
        refine ⟨acts, S_FALSE, _, ?_, .fail errno acts (decide_eq_false hblocked) htaken⟩
        simp only [onRecv, if_neg hblocked]
        exact hacts
  | data bytes =>
      cases bytes with
      | nil => exact ⟨_, _, _, ⟨rfl, rfl⟩, .eof _ rfl⟩
      | cons b bytes => exact ⟨_, _, _, completion_yields r (b :: bytes) _, .data b bytes⟩

/-- What `handleRead` can do with a registration. On a channel that is closed, nothing; otherwise
the registration ends, whatever `recv` says. -/
inductive HandleRead (r : Request) (conn : TcpConnection) :
    RecvResult → List Act → TcpConnection → Prop
  | closed (result : RecvResult) : HandleRead r conn result [] conn
  | fail (errno : Int) (acts : List Act) (htaken : taken acts = []) :
      HandleRead r conn (.fail errno) acts (handleRead.used conn)
  | eof (acts : List Act) (htaken : taken acts = []) :
      HandleRead r conn (.data []) acts (handleRead.used conn)
  | data (b : UInt8) (bytes : List UInt8) :
      HandleRead r conn (.data (b :: bytes)) (completion r (b :: bytes)) (handleRead.used conn)

theorem handleRead_cases {r : Request} (result : RecvResult) {conn : TcpConnection}
    {channel : TcpChannel} (hchannel : conn.pTcpChannel_ = some channel)
    (hinfo : conn.RecvInfo_ = (onRecv.register r conn).RecvInfo_) :
    ∃ acts ret conn', (handleRead result conn).Yields acts (ret, conn') ∧
      HandleRead r conn result acts conn' := by
  have hused : conn.RecvInfo_.recvInUse_ = true := by rw [hinfo]; rfl
  have hbuf : conn.RecvInfo_.readBuf_ = some r.buf := by rw [hinfo]; rfl
  by_cases hfd : channel.fd < 0
  · refine ⟨[], S_FALSE, conn, ?_, .closed result⟩
    simp only [handleRead, hused, if_true, hchannel, if_pos hfd]
    exact ⟨rfl, rfl⟩
  · simp only [handleRead, hused, if_true, hchannel, if_neg hfd, hbuf]
    cases result with
    | fail errno =>
        obtain ⟨acts, hacts, htaken⟩ := error_yields channel r.buf conn.RecvInfo_.flags_
          conn.RecvInfo_.len_ errno (S_FALSE, handleRead.used conn)
        exact ⟨acts, _, _, hacts, .fail errno acts htaken⟩
    | data bytes =>
        cases bytes with
        | nil => exact ⟨_, _, _, ⟨rfl, rfl⟩, .eof _ rfl⟩
        | cons b bytes =>
            refine ⟨_, S_OK, _, ?_, .data b bytes⟩
            rw [hinfo]
            exact completion_yields r (b :: bytes) _

/-- Without a registration `handleRead` does nothing. -/
theorem handleRead_unarmed (result : RecvResult) {conn : TcpConnection}
    (hused : conn.RecvInfo_.recvInUse_ = false) :
    (handleRead result conn).Yields [] (S_OK, conn) := by
  simp only [handleRead, hused, Bool.false_eq_true, if_false]
  exact ⟨rfl, rfl⟩

/-! ### The invariant -/

/-- The invariant of a run.

- `stream`: what has arrived was reported, or waits;
- `idle`, `armed`: the owner is the `onRecv` whose request is in `RecvInfo_`, and it has not been
  completed;
- `made`: only calls that were made are completed;
- the rest is the law itself. -/
structure Inv (channel : TcpChannel) (log : List Happening) (s : System) : Prop where
  channel_eq : s.conn.pTcpChannel_ = some channel
  stream : s.received = reported log ++ s.pending
  idle : s.owner = none → s.conn.RecvInfo_.recvInUse_ = false
  armed : ∀ k, s.owner = some k → ∃ r, s.requests[k]? = some r ∧
    s.conn.RecvInfo_ = (onRecv.register r s.conn).RecvInfo_ ∧ some k ∉ completed log
  made : ∀ call ∈ completed log, ∃ k < s.requests.length, call = some k
  once : (completed log).Nodup
  reports : ∀ call acts, .report call acts ∈ log →
    ∃ k r, call = some k ∧ s.requests[k]? = some r ∧ acts = completion r (taken acts)
  kept : ∀ call result, .ended call result ∈ log → Ends result

theorem Inv.law {channel : TcpChannel} {log : List Happening} {s : System}
    (h : Inv channel log s) : ReceiveLaw s log :=
  ⟨h.stream ▸ List.prefix_append _ _, h.once, h.reports, h.kept⟩

section Steps
variable {channel : TcpChannel} {log es : List Happening} {s s' : System}

/-- The owner's registration is armed. -/
theorem Inv.used_of_owner (h : Inv channel log s) {k : Nat} (howner : s.owner = some k) :
    s.conn.RecvInfo_.recvInUse_ = true := by
  obtain ⟨r, -, hinfo, -⟩ := h.armed k howner
  rw [hinfo]
  rfl

/-- A call of the connection, when it returns. -/
theorem settle_yields {call : Option Nat} {registered : Bool} {result : RecvResult}
    {x : Traced Act (Int × TcpConnection)} {acts : List Act} {ret : Int} {conn : TcpConnection}
    (hx : x.Yields acts (ret, conn))
    (h : (s.settle call registered result x).Yields es s') :
    es = (if taken acts = [] then [] else [.report call acts]) ++
        s.owner.toList.filterMap (fun k =>
          if s'.owner = some k then none else some (.ended k result)) ∧
      s' = { s with
        conn := conn
        pending := s.pending.drop (taken acts).length
        owner := if conn.RecvInfo_.recvInUse_ then (if registered then call else s.owner)
          else none } := by
  unfold System.settle at h
  rw [hx.2] at h
  simp only [hx.1, Traced.tell_bind_yields, Traced.pure_yields] at h
  obtain ⟨_, ⟨_, ⟨rfl, rfl⟩, rfl⟩, rfl⟩ := h
  rw [List.append_nil]
  exact ⟨rfl, rfl⟩

/-- Another request changes nothing. -/
theorem Inv.request (h : Inv channel log s) (r : Request) :
    Inv channel log { s with requests := s.requests ++ [r] } := by
  have hget : ∀ {k : Nat} {r' : Request}, s.requests[k]? = some r' →
      (s.requests ++ [r])[k]? = some r' := by
    intro k r' hk
    rw [List.getElem?_append_left (List.getElem?_eq_some_iff.mp hk).1]
    exact hk
  refine ⟨h.channel_eq, h.stream, h.idle, ?_, ?_, h.once, ?_, h.kept⟩
  · intro k howner
    obtain ⟨r', hk, hinfo, hnot⟩ := h.armed k howner
    exact ⟨r', hget hk, hinfo, hnot⟩
  · intro call hcall
    obtain ⟨k, hk, rfl⟩ := h.made call hcall
    exact ⟨k, by rw [List.length_append]; omega, rfl⟩
  · intro call acts hmem
    obtain ⟨k, r', rfl, hk, hacts⟩ := h.reports call acts hmem
    exact ⟨k, r', rfl, hget hk, hacts⟩

/-- A call that places no bytes and leaves the owner as he is. -/
theorem Inv.same (h : Inv channel log s) {call : Option Nat} {registered : Bool}
    {result : RecvResult} {x : Traced Act (Int × TcpConnection)} {acts : List Act} {ret : Int}
    (hx : x.Yields acts (ret, s.conn)) (htaken : taken acts = []) (hregistered : registered = false)
    (hstep : (s.settle call registered result x).Yields es s') : Inv channel (log ++ es) s' := by
  obtain ⟨rfl, heq⟩ := settle_yields hx hstep
  have howner : (if s.conn.RecvInfo_.recvInUse_ then (if registered then call else s.owner)
      else none) = s.owner := by
    rw [hregistered]
    cases hs : s.owner with
    | none =>
        rw [h.idle hs]
        rfl
    | some k =>
        rw [h.used_of_owner hs]
        rfl
  rw [howner, htaken] at heq
  obtain rfl : s' = s := heq
  have hnone : s'.owner.toList.filterMap (fun k =>
      if s'.owner = some k then none else some (Happening.ended k result)) = [] := by
    cases s'.owner with
    | none => rfl
    | some k => simp
  rw [hnone, if_pos htaken, List.append_nil, List.append_nil]
  exact h

/-- A call that places no bytes and ends the registration. -/
theorem Inv.over (h : Inv channel log s) {call : Option Nat} {registered : Bool}
    {result : RecvResult} {x : Traced Act (Int × TcpConnection)} {acts : List Act} {ret : Int}
    (hx : x.Yields acts (ret, handleRead.used s.conn)) (htaken : taken acts = [])
    (hends : s.conn.RecvInfo_.recvInUse_ = true → Ends result)
    (hstep : (s.settle call registered result x).Yields es s') : Inv channel (log ++ es) s' := by
  obtain ⟨hes, rfl⟩ := settle_yields hx hstep
  rw [htaken, if_pos rfl, List.nil_append] at hes
  -- the only new entry is the end of the call that owns the record
  have hended : ∀ e ∈ es, ∃ k, s.owner = some k ∧ e = .ended k result := by
    intro e he
    rw [hes] at he
    obtain ⟨k, hk, hk'⟩ := List.mem_filterMap.mp he
    refine ⟨k, Option.mem_toList.mp hk, ?_⟩
    have hsome : some (Happening.ended k result) = some e := hk'
    exact (Option.some.inj hsome).symm
  have hreported : reported es = [] ∧ completed es = [] := by
    rw [hes]
    cases s.owner <;> exact ⟨rfl, rfl⟩
  have hpending : s.pending.drop (taken acts).length = s.pending := by rw [htaken]; rfl
  refine ⟨h.channel_eq, ?_, fun _ => rfl,
    fun k hk => absurd hk.symm (Option.some_ne_none k), ?_, ?_,
    ?_, ?_⟩
  · rw [reported_append, hreported.1, List.append_nil]
    show s.received = reported log ++ s.pending.drop (taken acts).length
    rw [hpending]
    exact h.stream
  · rw [completed_append, hreported.2, List.append_nil]
    exact h.made
  · rw [completed_append, hreported.2, List.append_nil]
    exact h.once
  · intro c acts' hmem
    rcases List.mem_append.mp hmem with hmem | hmem
    · exact h.reports c acts' hmem
    · obtain ⟨k, -, heq⟩ := hended _ hmem
      exact Happening.noConfusion heq
  · intro c res hmem
    rcases List.mem_append.mp hmem with hmem | hmem
    · exact h.kept c res hmem
    · obtain ⟨k, hk, heq⟩ := hended _ hmem
      obtain ⟨-, rfl⟩ := Happening.ended.inj heq
      exact hends (h.used_of_owner hk)

/-- The trace of a call that completes a request: the report comes first, and behind it at most the
end of the owner's registration. -/
theorem data_trace {k : Nat} {r : Request} {bytes : List UInt8} {owner : Option Nat}
    {calls : List Nat}
    (hes : es = .report (some k) (completion r bytes) :: calls.filterMap fun call =>
      if owner = some call then none else some (.ended call (.data bytes))) :
    reported es = bytes ∧ completed es = [some k] ∧
      ∀ e ∈ es, e = .report (some k) (completion r bytes) ∨
        ∃ call, e = .ended call (.data bytes) := by
  have hrest : ∀ l : List Nat, reported (l.filterMap fun call =>
        if owner = some call then none else some (.ended call (.data bytes))) = [] ∧
      completed (l.filterMap fun call =>
        if owner = some call then none else some (.ended call (.data bytes))) = [] := by
    intro l
    induction l with
    | nil => exact ⟨rfl, rfl⟩
    | cons call l ih =>
        rw [List.filterMap_cons]
        split
        · exact ih
        · rename_i e hcall
          split at hcall
          · exact absurd hcall.symm (Option.some_ne_none e)
          · rw [← Option.some.inj hcall]
            exact ih
  rw [← List.singleton_append] at hes
  refine ⟨?_, ?_, fun e he => ?_⟩
  · rw [hes, reported_append, (hrest _).1, List.append_nil]
    show taken (completion r bytes) ++ [] = bytes
    rw [taken_completion, List.append_nil]
  · rw [hes, completed_append, (hrest _).2, List.append_nil]
    rfl
  · rw [hes] at he
    rcases List.mem_append.mp he with he | he
    · exact .inl (List.mem_singleton.mp he)
    · obtain ⟨call, -, hcall⟩ := List.mem_filterMap.mp he
      refine .inr ⟨call, ?_⟩
      split at hcall
      · exact absurd hcall.symm (Option.some_ne_none e)
      · exact (Option.some.inj hcall).symm

/-- A call that completes a request. -/
theorem Inv.data (h : Inv channel log s) {k : Nat} {r : Request} {bytes : List UInt8}
    {x : Traced Act (Int × TcpConnection)} {ret : Int} {conn : TcpConnection}
    (hx : x.Yields (completion r bytes) (ret, conn)) (hne : bytes ≠ [])
    (hwaiting : bytes <+: s.pending) (hk : s.requests[k]? = some r)
    (hnot : some k ∉ completed log)
    (hconn : (conn = s.conn ∧ s.owner ≠ some k) ∨ conn = handleRead.used s.conn)
    (hstep : (s.settle (some k) false (.data bytes) x).Yields es s') :
    Inv channel (log ++ es) s' := by
  obtain ⟨hes, heq⟩ := settle_yields hx hstep
  rw [taken_completion] at heq hes
  rw [if_neg hne] at hes
  obtain ⟨hreported, hcompleted, hended⟩ := data_trace hes
  have hpending : s'.pending = s.pending.drop bytes.length := by rw [heq]
  have hrequests : s'.requests = s.requests := by rw [heq]
  -- a call that still owns the record afterwards is another one, and nothing was done to it
  have howner : ∀ call, s'.owner = some call → s.owner = some call ∧ s'.conn = s.conn ∧
      call ≠ k := by
    intro call hcall
    rcases hconn with ⟨rfl, hother⟩ | rfl
    · have hsame : s.owner = some call := by
        rw [heq] at hcall
        cases hused : s.conn.RecvInfo_.recvInUse_ with
        | false => simp [hused] at hcall
        | true => simpa [hused] using hcall
      refine ⟨hsame, by rw [heq], ?_⟩
      rintro rfl
      exact hother hsame
    · rw [heq] at hcall
      exact absurd hcall.symm (Option.some_ne_none call)
  refine ⟨?_, ?_, ?_, ?_, ?_, ?_, ?_, ?_⟩
  · rw [heq]
    rcases hconn with ⟨rfl, -⟩ | rfl
    · exact h.channel_eq
    · exact h.channel_eq
  · -- the bytes that were handed out are the first of those that were pending
    rw [show s'.received = s.received by rw [heq], h.stream, reported_append, hreported, hpending,
      List.append_assoc]
    congr 1
    obtain ⟨rest, hrest⟩ := hwaiting
    rw [← hrest, List.drop_left]
  · -- without an owner the record is free: it was free before, or `handleRead` freed it
    intro hnone
    rw [heq] at hnone ⊢
    rcases hconn with ⟨rfl, -⟩ | rfl
    · cases hused : s.conn.RecvInfo_.recvInUse_ with
      | false => rfl
      | true =>
          simp only [hused, if_true, Bool.false_eq_true, if_false] at hnone
          exact absurd (h.idle hnone) (by rw [hused]; exact Bool.noConfusion)
    · rfl
  · intro call hcall
    -- an owner is not complete, since it is not the call that completes now
    obtain ⟨hsame, hsconn, hne⟩ := howner call hcall
    obtain ⟨r', hr', hinfo, hfree⟩ := h.armed call hsame
    refine ⟨r', by rw [hrequests]; exact hr', by rw [hsconn]; exact hinfo, ?_⟩
    rw [completed_append, hcompleted, List.mem_append, List.mem_singleton, not_or]
    exact ⟨hfree, fun heq => hne (Option.some.inj heq)⟩
  · intro call hcall
    -- the calls that are complete were made, and this one was
    rw [completed_append, hcompleted] at hcall
    rw [hrequests]
    rcases List.mem_append.mp hcall with hcall | hcall
    · exact h.made call hcall
    · exact ⟨k, (List.getElem?_eq_some_iff.mp hk).1, List.mem_singleton.mp hcall⟩
  · rw [completed_append, hcompleted, List.nodup_append]
    refine ⟨h.once, by simp, ?_⟩
    -- this call was not complete before
    intro call hcall call' hcall'
    obtain rfl := List.mem_singleton.mp hcall'
    rintro rfl
    exact hnot hcall
  · intro call acts hmem
    rw [hrequests]
    rcases List.mem_append.mp hmem with hmem | hmem
    · exact h.reports call acts hmem
    · rcases hended _ hmem with heq' | ⟨_, heq'⟩
      · obtain ⟨rfl, rfl⟩ := Happening.report.inj heq'
        exact ⟨k, r, rfl, hk, by rw [taken_completion]⟩
      · exact Happening.noConfusion heq'
  · intro call res hmem
    rcases List.mem_append.mp hmem with hmem | hmem
    · exact h.kept call res hmem
    · rcases hended _ hmem with heq' | ⟨_, heq'⟩
      · exact Happening.noConfusion heq'
      · obtain ⟨-, rfl⟩ := Happening.ended.inj heq'
        trivial

/-- An `onRecv` keeps the invariant when it does not block behind an armed registration. -/
theorem Inv.onRecv (h : Inv channel log s) {r : Request} {result : RecvResult}
    (hgives : s.Gives result)
    (hunblocked : s.conn.RecvInfo_.recvInUse_ = true → blocked result = false)
    (hstep : (s.step (.onRecv r result)).Yields es s') : Inv channel (log ++ es) s' := by
  have hreq := h.request r
  have hnew : (s.requests ++ [r])[s.requests.length]? = some r := by simp
  have hnot : some s.requests.length ∉ completed log := by
    intro hmem
    obtain ⟨k, hk, heq⟩ := h.made _ hmem
    exact absurd (Option.some.inj heq) (Nat.ne_of_gt hk)
  obtain ⟨acts, ret, conn, hx, hcase⟩ := onRecv_cases r result h.channel_eq
  cases hcase with
  | fail errno _ hblocked htaken => exact hreq.same hx htaken hblocked hstep
  | eof _ htaken => exact hreq.over hx htaken (fun _ => show Ends (.data []) from trivial) hstep
  | data b bytes =>
      refine hreq.data hx (List.cons_ne_nil _ _) hgives.1 hnew hnot (.inl ⟨rfl, ?_⟩) hstep
      intro howner
      obtain ⟨r', hr', -⟩ := h.armed _ howner
      simp at hr'
  | block _ _ hblocked htaken =>
      -- nothing was armed, and now this request is
      have hidle : s.owner = none := by
        cases howner : s.owner with
        | none => rfl
        | some k =>
            have := hunblocked (h.used_of_owner howner)
            rw [hblocked] at this
            exact Bool.noConfusion this
      obtain ⟨hes, heq⟩ := settle_yields hx hstep
      have hnil : es = [] := by
        rw [hes, if_pos htaken, List.nil_append]
        show (Option.toList s.owner).filterMap _ = []
        rw [hidle]
        rfl
      rw [hblocked, htaken] at heq
      rw [hnil, List.append_nil]
      obtain rfl : s' = { s with
          conn := onRecv.register r s.conn
          requests := s.requests ++ [r]
          owner := some s.requests.length } := heq
      refine ⟨h.channel_eq, ?_, fun hnone => absurd hnone (Option.some_ne_none _),
        ?_, ?_, ?_, ?_, ?_⟩
      · exact h.stream
      · intro k hk
        obtain rfl := Option.some.inj hk
        exact ⟨r, hnew, rfl, hnot⟩
      · exact hreq.made
      · exact h.once
      · exact hreq.reports
      · exact h.kept

/-- A `handleRead` keeps the invariant when it does not block. -/
theorem Inv.handleRead (h : Inv channel log s) {result : RecvResult} (hgives : s.Gives result)
    (hunblocked : s.conn.RecvInfo_.recvInUse_ = true → blocked result = false)
    (hstep : (s.step (.handleRead result)).Yields es s') : Inv channel (log ++ es) s' := by
  cases howner : s.owner with
  | none => exact h.same (handleRead_unarmed result (h.idle howner)) rfl rfl hstep
  | some k =>
      obtain ⟨r, hr, hinfo, hnot⟩ := h.armed k howner
      obtain ⟨acts, ret, conn, hx, hcase⟩ := handleRead_cases result h.channel_eq hinfo
      cases hcase with
      | closed => exact h.same hx rfl rfl hstep
      | fail errno _ htaken =>
          exact h.over hx htaken (fun hused => ends_of_not_blocked (hunblocked hused)) hstep
      | eof _ htaken => exact h.over hx htaken (fun _ => show Ends (.data []) from trivial) hstep
      | data b bytes =>
          have hstep' : (s.settle (some k) false (.data (b :: bytes))
              (Net.Tcp.handleRead (.data (b :: bytes)) s.conn)).Yields es s' := by
            rw [← howner]
            exact hstep
          exact h.data hx (List.cons_ne_nil _ _) hgives.1 hr hnot (.inr rfl) hstep'

end Steps

/-! ### Whole runs -/

/-- The law of the registration holds in every state that a run reaches in which no `recv` would
block while a registration is armed. -/
theorem law_of_unblocked {channel : TcpChannel} {as : List Action} {log : List Happening}
    {s : System}
    (hrun : Traced.Run System.step (fun s a => s.Possible a ∧ s.Unblocked a) (idle channel) as log
      s) : ReceiveLaw s log := by
  have hinit : Inv channel [] (idle channel) := by
    refine ⟨rfl, rfl, fun _ => rfl, fun k hk => absurd hk.symm (Option.some_ne_none k), ?_,
      List.nodup_nil, ?_, ?_⟩
    all_goals simp [completed]
  suffices h : Inv channel log s from h.law
  refine hrun.invariant (P := fun _ log s => Inv channel log s) hinit ?_
  rintro l log s (bytes | _ | ⟨r, result⟩ | result) es s' h ⟨hpossible, hunblocked⟩ hstep
  · obtain ⟨rfl, rfl⟩ := (Traced.pure_yields ..).mp hstep
    rw [List.append_nil]
    exact ⟨h.channel_eq, by rw [← List.append_assoc, ← h.stream], h.idle, h.armed, h.made, h.once,
      h.reports, h.kept⟩
  · obtain ⟨rfl, rfl⟩ := (Traced.pure_yields ..).mp hstep
    rw [List.append_nil]
    exact ⟨h.channel_eq, h.stream, h.idle, h.armed, h.made, h.once, h.reports, h.kept⟩
  · exact h.onRecv hpossible hunblocked hstep
  · exact h.handleRead hpossible hunblocked hstep

/-- A request into the buffer at `buf`. -/
def requestAt (buf : Nat) : Request :=
  { buf := buf, len := 8, flags := 0, cb := some 3, param := 4 }

/-- A channel of a registered descriptor. -/
def open4 : TcpChannel := { fd := 4 }

/-- A request waits, two bytes come for it, and its callback asks for more. -/
theorem law_of_unblocked_two :
    ∃ log s, Traced.Run System.step (fun s a => s.Possible a ∧ s.Unblocked a) (idle open4)
      [.onRecv (requestAt 16) (.fail EAGAIN), .arrive [1, 2], .handleRead (.data [1, 2]),
        .onRecv (requestAt 32) (.fail EAGAIN)] log s ∧
      ReceiveLaw s log ∧ reported log = [1, 2] := by
  have hrun : ∃ log s, Traced.Run System.step (fun s a => s.Possible a ∧ s.Unblocked a)
      (idle open4) [.onRecv (requestAt 16) (.fail EAGAIN), .arrive [1, 2],
        .handleRead (.data [1, 2]), .onRecv (requestAt 32) (.fail EAGAIN)] log s ∧
      reported log = [1, 2] := by
    refine ⟨_, _, .snoc (.snoc (.snoc (.snoc (l := []) .nil ?first ⟨rfl, rfl⟩) ?bytes ⟨rfl, rfl⟩)
      ?read ⟨rfl, rfl⟩) ?again ⟨rfl, rfl⟩, ?reported⟩
    case first => exact ⟨fun _ => ⟨rfl, rfl⟩, fun h => Bool.noConfusion h⟩
    case bytes => exact ⟨rfl, trivial⟩
    case read => exact ⟨⟨List.prefix_refl _, by decide⟩, fun _ => rfl⟩
    case again => exact ⟨fun _ => ⟨rfl, rfl⟩, fun h => Bool.noConfusion h⟩
    case reported => rfl
  obtain ⟨log, s, hrun, hreported⟩ := hrun
  exact ⟨log, s, hrun, law_of_unblocked hrun, hreported⟩

/-- Two ways of losing a registration. A `handleRead` for an `EPOLLIN` whose bytes an earlier
handler has taken ends it as after an error. Or a second `onRecv` takes its place. -/
theorem registration_lost :
    (∃ log s, Traced.Run System.step System.Possible (idle open4)
      [.onRecv (requestAt 16) (.fail EAGAIN), .handleRead (.fail EAGAIN)] log s ∧
      ¬ ReceiveLaw s log) ∧
    (∃ log s, Traced.Run System.step System.Possible (idle open4)
      [.onRecv (requestAt 16) (.fail EAGAIN), .onRecv (requestAt 32) (.fail EAGAIN)] log s ∧
      ¬ ReceiveLaw s log) := by
  have hlost : ¬ Ends (.fail EAGAIN) := fun h => h.1 rfl
  refine ⟨⟨_, _, .snoc (.snoc (l := []) .nil ?_ ⟨rfl, rfl⟩) ?_ ⟨rfl, rfl⟩, ?_⟩,
    ⟨_, _, .snoc (.snoc (l := []) .nil ?_ ⟨rfl, rfl⟩) ?_ ⟨rfl, rfl⟩, ?_⟩⟩
  · exact fun _ => ⟨rfl, rfl⟩
  · exact fun _ => ⟨rfl, rfl⟩
  · exact fun h => hlost (h.kept 0 _ (List.mem_singleton.mpr rfl))
  · exact fun _ => ⟨rfl, rfl⟩
  · exact fun _ => ⟨rfl, rfl⟩
  · exact fun h => hlost (h.kept 0 _ (List.mem_singleton.mpr rfl))

end Ndsl.Proofs.Tcp.Receive
