import Ndsl.Lib.Registrations
import Ndsl.Proofs.TcpConnection.Receive
import Ndsl.Proofs.UnixConnection.SendStream

/-!
# `Ndsl.Proofs.UnixConnection.Receive`: the receive registrations of a connection

`System` puts a connection beside its socket and beside the variables that the callers keep their
`*len` in. It numbers the calls of `onRecv`, and notes which of them is armed: it has found nothing
to receive, and nothing has been received for it since. The law of these registrations is that of
`Ndsl.Lib.Registrations`.

`RecvInfo_` does not say whether a registration is armed. So `handleRead` serves a request a second
time, and reads a pointer that nobody has set before the first request. And `onRecv` leaves `*len`
as it is when it finds bytes. `lawful_iff` says which steps keep the law.
-/

set_option autoImplicit false

namespace Ndsl.Proofs.Unix.Receive

open Ndsl.Lib Ndsl.Lib.Registrations
open Ndsl.Net (S_OK S_FALSE MAXLINE toSize)
open Ndsl.Net.Tcp (EAGAIN EWOULDBLOCK RecvResult Request)
open Ndsl.Net.Unix
open Ndsl.Proofs.Tcp.Receive (blocked)

/-! ### A connection and its socket -/

/-- The bytes that a call has put into buffers, with the addresses of these. -/
def placed (acts : List Act) : List (Nat × List UInt8) :=
  acts.filterMap fun
    | .io (.recv buf _ _ (.data bytes)) => some (buf, bytes)
    | _ => none

/-- The callbacks that a call has called. -/
def called (acts : List Act) : List (Nat × Nat) :=
  acts.filterMap fun
    | .io (.callback cb param) => some (cb, param)
    | _ => none

/-- The variables for `*len` behind a call. -/
def setLens (acts : List Act) (lens : Nat → Nat) : Nat → Nat :=
  acts.foldl (fun lens act =>
    match act with
    | .io (.setLen len value) => Function.update lens len value
    | _ => lens) lens

/-- What the connection has done in a call, and the variables for `*len` behind it. -/
structure Done where
  acts : List Act
  lens : Nat → Nat

/-- A connection, what is in the variables for `*len`, what waits in the socket, the requests of the
`onRecv` calls, and the number of the call whose registration is armed. -/
structure System where
  conn : UnixConnection
  lens : Nat → Nat
  pending : List UInt8 := []
  eof : Bool := false
  requests : List Request := []
  armed : Option Nat := none

/-- A step: of the peer, or of the connection, with the result of the `recv` it makes. -/
inductive Action
  | arrive (bytes : List UInt8)
  | close
  | onRecv (r : Request) (result : RecvResult)
  | handleRead (result : RecvResult)
  deriving Repr, DecidableEq

namespace System

/-- The system behind a call that has done `acts`. -/
def behind (s : System) (conn : UnixConnection) (acts : List Act) : System :=
  { s with
    conn := conn
    lens := setLens acts s.lens
    pending := s.pending.drop ((placed acts).flatMap (·.2)).length }

/-- What is done by acts from here on. -/
def done (s : System) (acts : List Act) : Done := ⟨acts, setLens acts s.lens⟩

/-- What a `handleRead` does by acts. -/
def read (s : System) (acts : List Act) : Happening Done :=
  match s.armed with
  | none => .unarmed (s.done acts)
  | some call => .served call (s.done acts)

/-- One step. An `onRecv` that finds nothing is armed in the place of the one before it. -/
def step (s : System) : Action → Traced (Happening Done) System
  | .arrive bytes => pure { s with pending := s.pending ++ bytes }
  | .close => pure { s with eof := true }
  | .onRecv r result =>
    (onRecv r result s.conn).record (fun acts => .served s.requests.length (s.done acts))
      fun x acts => { s.behind x.2 acts with
        requests := s.requests ++ [r]
        armed := if blocked result then some s.requests.length else s.armed }
  | .handleRead result =>
    (handleRead result s.conn).record s.read fun x acts =>
      { s.behind x.2 acts with armed := if placed acts = [] then s.armed else none }

/-- What `recv` gives: waiting bytes in their order, the end of the stream behind the last one, or
an error, which says that it would block only when there is nothing. -/
def Gives (s : System) : RecvResult → Prop
  | .data [] => s.pending = [] ∧ s.eof = true
  | .data (b :: bytes) => b :: bytes <+: s.pending ∧ (b :: bytes).length ≤ MAXLINE
  | .fail errno => blocked (.fail errno) = true → s.pending = [] ∧ s.eof = false

/-- The steps that can be taken. -/
def Possible (s : System) : Action → Prop
  | .arrive _ => s.eof = false
  | .close => True
  | .onRecv _ result => s.Gives result
  | .handleRead result => s.Gives result

instance (s : System) (result : RecvResult) : Decidable (s.Gives result) := by
  unfold Gives
  split <;> infer_instance

instance (s : System) (action : Action) : Decidable (s.Possible action) := by
  unfold Possible
  cases action <;> infer_instance

/-- The channel has no socket. -/
def Closed (s : System) : Prop := ∃ fd, s.conn.pUnixChannel_ = some fd ∧ fd < 0

/-- The steps that keep the law. An `onRecv` finds nothing, or as many bytes as `*len` says already.
A `handleRead` finds a registration that is armed; or it finds no bytes, and there is a request from
before, whose callback it does not call. And whoever meets an error has an error handler. -/
def InTime (s : System) : Action → Prop
  | .onRecv r (.data bytes) => s.lens r.len = bytes.length
  | .onRecv _ (.fail errno) => blocked (.fail errno) = true ∨ s.conn.errorHandle_ ≠ none
  | .handleRead (.data bytes) => s.Closed ∨ s.armed ≠ none ∨
      bytes = [] ∧ ∃ info, s.conn.RecvInfo_ = some info ∧ info.cb_ = none
  | .handleRead (.fail _) => s.Closed ∨
      s.conn.RecvInfo_ ≠ none ∧ s.conn.errorHandle_ ≠ none
  | _ => True

end System

/-- A connection on a new channel, with or without an error handler. -/
def idle (fd : Int) (handler : Option Nat) (lens : Nat → Nat) : System :=
  { conn := { pUnixChannel_ := some fd, errorHandle_ := handler }, lens := lens }

/-! ### The law -/

/-- How often a call has called a callback. -/
def times (d : Done) : Nat := (called d.acts).length

/-- What is done for a request: bytes go into its buffer and their number into its `*len`, and the
callback is its own. -/
structure ServedAs (r : Request) (d : Done) : Prop where
  length : ∀ x ∈ placed d.acts, x.1 = r.buf ∧ d.lens r.len = x.2.length
  callback : ∀ c ∈ called d.acts, r.cb = some c.1 ∧ r.param = c.2

/-- What may be done without a registration: nothing is placed, and nobody is called. -/
structure Quiet (d : Done) : Prop where
  placed : ∀ x ∈ placed d.acts, x.2 = []
  called : called d.acts = []

/-- The law of the registrations. -/
def ReceiveLaw (requests : List Request) (log : List (Happening Done)) : Prop :=
  Lawful times ServedAs Quiet requests log

/-! ### What the two calls do -/

section Calls
variable {r : Request} {result : RecvResult} {conn conn' : UnixConnection} {fd ret : Int}
  {acts : List Act} {errno : Int}

theorem callback_yields (cb : Option Nat) (param : Nat) :
    (callback cb param).Yields (cb.toList.map fun cb => .io (.callback cb param)) () := by
  cases cb with
  | none => exact ⟨rfl, rfl⟩
  | some cb => exact ⟨rfl, rfl⟩

/-- The acts of a callback. -/
theorem of_callbackActs (cb : Option Nat) (param : Nat) (lens : Nat → Nat) :
    placed (cb.toList.map fun cb => .io (.callback cb param)) = [] ∧
    called (cb.toList.map fun cb => .io (.callback cb param)) =
      cb.toList.map (fun cb => (cb, param)) ∧
    setLens (cb.toList.map fun cb => .io (.callback cb param)) lens = lens := by
  cases cb with
  | none => exact ⟨rfl, rfl, rfl⟩
  | some cb => exact ⟨rfl, rfl, rfl⟩

/-- The error handler places nothing, and it is not a callback. -/
theorem of_errorHandle {handler : Option Nat} {u : Unit}
    (h : (errorHandle handler errno fd).Yields acts u) :
    handler ≠ none ∧ placed acts = [] ∧ called acts = [] := by
  cases handler with
  | none => exact absurd h (Traced.fault_yields _ _)
  | some handler =>
      obtain rfl := (Traced.tell_yields ..).mp h
      exact ⟨Option.some_ne_none handler, rfl, rfl⟩

/-- What an `onRecv` does that returns. -/
theorem onRecv_cases (hchannel : conn.pUnixChannel_ = some fd)
    (h : (onRecv r result conn).Yields acts (ret, conn')) :
    (blocked result = true ∧ conn' = onRecv.register r conn ∧ placed acts = [] ∧
      called acts = []) ∨
    ((∃ errno, result = .fail errno) ∧ blocked result = false ∧ conn' = conn ∧
      conn.errorHandle_ ≠ none ∧ placed acts = [] ∧ called acts = []) ∨
    ∃ bytes, result = .data bytes ∧ conn' = conn ∧ placed acts = [(r.buf, bytes)] ∧
      called acts = r.cb.toList.map (fun cb => (cb, r.param)) ∧
      ∀ lens, setLens acts lens = lens := by
  unfold onRecv at h
  rw [hchannel] at h
  obtain ⟨gs, hrest, rfl⟩ := (Traced.tell_bind_yields ..).mp h
  cases result with
  | fail errno =>
      dsimp only at hrest
      split at hrest
      · next hagain =>
        obtain ⟨rfl, hpair⟩ := (Traced.pure_yields ..).mp hrest
        exact .inl ⟨decide_eq_true hagain, (Prod.mk.inj hpair).2.symm, rfl, rfl⟩
      · next hother =>
        obtain ⟨hs, u, ks, hhandler, hpure, rfl⟩ := Traced.bind_yields.mp hrest
        obtain ⟨rfl, hpair⟩ := (Traced.pure_yields ..).mp hpure
        obtain ⟨hsome, hplaced, hcalled⟩ := of_errorHandle hhandler
        rw [List.append_nil]
        exact .inr (.inl ⟨⟨errno, rfl⟩, decide_eq_false hother, (Prod.mk.inj hpair).2.symm, hsome,
          hplaced, hcalled⟩)
  | data bytes =>
      obtain ⟨hs, u, ks, hcallback, hpure, rfl⟩ := Traced.bind_yields.mp hrest
      obtain ⟨rfl, hpair⟩ := (Traced.pure_yields ..).mp hpure
      obtain ⟨rfl, -⟩ := hcallback.unique (callback_yields r.cb r.param)
      have hacts := of_callbackActs r.cb r.param
      rw [List.append_nil]
      exact .inr (.inr ⟨bytes, rfl, (Prod.mk.inj hpair).2.symm,
        congrArg _ (hacts fun _ => 0).1, (hacts fun _ => 0).2.1, fun lens => (hacts lens).2.2⟩)

/-- An `onRecv` returns, unless it meets an error and has no error handler. -/
theorem onRecv_returns (hchannel : conn.pUnixChannel_ = some fd)
    (h : ∀ errno, result = .fail errno → blocked result = true ∨ conn.errorHandle_ ≠ none) :
    ∃ acts ret conn', (onRecv r result conn).Yields acts (ret, conn') := by
  unfold onRecv
  rw [hchannel]
  cases result with
  | fail errno =>
      dsimp only
      split
      · exact ⟨_, _, _, (Traced.tell_pure_yields ..).mpr ⟨rfl, rfl⟩⟩
      · next hother =>
        have hsome := (h errno rfl).resolve_left
          (fun hagain => hother (of_decide_eq_true hagain))
        obtain ⟨handler, hhandler⟩ := Option.ne_none_iff_exists'.mp hsome
        rw [hhandler]
        exact ⟨_, _, _, ⟨rfl, rfl⟩⟩
  | data bytes =>
      refine ⟨_, S_OK, conn, (Traced.tell_bind_yields ..).mpr ⟨_, Traced.bind_yields.mpr
        ⟨_, (), [], callback_yields r.cb r.param, (Traced.pure_yields ..).mpr ⟨rfl, rfl⟩, rfl⟩,
        rfl⟩⟩

/-- What a `handleRead` does that returns. -/
theorem handleRead_cases (hchannel : conn.pUnixChannel_ = some fd)
    (h : (handleRead result conn).Yields acts (ret, conn')) : conn' = conn ∧
    ((fd < 0 ∧ acts = []) ∨
    (conn.RecvInfo_ ≠ none ∧ conn.errorHandle_ ≠ none ∧ (∃ errno, result = .fail errno) ∧
      placed acts = [] ∧ called acts = []) ∨
    ∃ info bytes, ¬ fd < 0 ∧ conn.RecvInfo_ = some info ∧ result = .data bytes ∧
      placed acts = [(info.readBuf_, bytes)] ∧
      called acts = info.cb_.toList.map (fun cb => (cb, info.param_)) ∧
      ∀ lens, setLens acts lens info.len_ = bytes.length) := by
  unfold handleRead at h
  rw [hchannel] at h
  dsimp only at h
  split at h
  · next hclosed =>
    obtain ⟨rfl, hpair⟩ := (Traced.pure_yields ..).mp h
    exact ⟨(Prod.mk.inj hpair).2.symm, .inl ⟨hclosed, rfl⟩⟩
  · next hopen =>
    cases hinfo : conn.RecvInfo_ with
    | none =>
        rw [hinfo] at h
        exact absurd h (Traced.fault_yields _ _)
    | some info =>
        rw [hinfo] at h
        obtain ⟨gs, hrest, rfl⟩ := (Traced.tell_bind_yields ..).mp h
        cases result with
        | fail errno =>
            obtain ⟨hs, u, ks, hhandler, hset, rfl⟩ := Traced.bind_yields.mp hrest
            obtain ⟨rfl, hpair⟩ := (Traced.tell_pure_yields ..).mp hset
            obtain ⟨hsome, hplaced, hcalled⟩ := of_errorHandle hhandler
            refine ⟨(Prod.mk.inj hpair).2.symm, .inr (.inl ⟨Option.some_ne_none info, hsome,
              ⟨errno, rfl⟩, ?_, ?_⟩)⟩
            · show placed (hs ++ _) = []
              rw [placed, List.filterMap_append, show List.filterMap _ hs = [] from hplaced]
              rfl
            · show called (hs ++ _) = []
              rw [called, List.filterMap_append, show List.filterMap _ hs = [] from hcalled]
              rfl
        | data bytes =>
            obtain ⟨hs, hlast, rfl⟩ := (Traced.tell_bind_yields ..).mp hrest
            obtain ⟨ks, u, ls, hcallback, hpure, rfl⟩ := Traced.bind_yields.mp hlast
            obtain ⟨rfl, hpair⟩ := (Traced.pure_yields ..).mp hpure
            obtain ⟨rfl, -⟩ := hcallback.unique (callback_yields info.cb_ info.param_)
            have hacts := of_callbackActs info.cb_ info.param_
            rw [List.append_nil]
            refine ⟨(Prod.mk.inj hpair).2.symm, .inr (.inr ⟨info, bytes, hopen, rfl, rfl,
              congrArg _ (hacts fun _ => 0).1, (hacts fun _ => 0).2.1, fun lens => ?_⟩)⟩
            refine (congrFun (hacts (Function.update lens info.len_ bytes.length)).2.2 _).trans ?_
            exact Function.update_self ..

/-- A `handleRead` returns when the channel has no socket, or when there is a request, and an error
handler if it meets an error. -/
theorem handleRead_returns (hchannel : conn.pUnixChannel_ = some fd)
    (h : fd < 0 ∨ conn.RecvInfo_ ≠ none ∧
      ∀ errno, result = .fail errno → conn.errorHandle_ ≠ none) :
    ∃ acts ret conn', (handleRead result conn).Yields acts (ret, conn') := by
  unfold handleRead
  rw [hchannel]
  dsimp only
  split
  · exact ⟨_, _, _, (Traced.pure_yields ..).mpr ⟨rfl, rfl⟩⟩
  · next hopen =>
    obtain ⟨hsome, hhandler⟩ := h.resolve_left hopen
    obtain ⟨info, hinfo⟩ := Option.ne_none_iff_exists'.mp hsome
    rw [hinfo]
    cases result with
    | fail errno =>
        obtain ⟨handler, hhandler⟩ := Option.ne_none_iff_exists'.mp (hhandler errno rfl)
        rw [hhandler]
        exact ⟨_, _, _, ⟨rfl, rfl⟩⟩
    | data bytes =>
        refine ⟨_, S_OK, conn, (Traced.tell_bind_yields ..).mpr ⟨_,
          (Traced.tell_bind_yields ..).mpr ⟨_, Traced.bind_yields.mpr
            ⟨_, (), [], callback_yields info.cb_ info.param_,
              (Traced.pure_yields ..).mpr ⟨rfl, rfl⟩, rfl⟩, rfl⟩, rfl⟩⟩

end Calls

/-! ### The invariant -/

/-- The invariant: the law, and when a registration is armed, its request is the one in `RecvInfo_`
and its callback has not been called. -/
structure Inv (fd : Int) (log : List (Happening Done)) (s : System) : Prop where
  channel_eq : s.conn.pUnixChannel_ = some fd
  lawful : ReceiveLaw s.requests log
  armed : ∀ call, s.armed = some call → ∃ r, Waits times s.requests log call r ∧
    s.conn.RecvInfo_ = (onRecv.register r s.conn).RecvInfo_

section Steps
variable {fd : Int} {log es : List (Happening Done)} {s t : System} {r : Request}
  {result : RecvResult}

/-- What places nothing and calls nobody is right for every request, and without one. -/
theorem of_nothing {d : Done} (hplaced : placed d.acts = []) (hcalled : called d.acts = []) :
    times d = 0 ∧ Quiet d ∧ ∀ r, ServedAs r d := by
  refine ⟨by rw [times, hcalled]; rfl, ⟨?_, hcalled⟩, fun r => ⟨?_, ?_⟩⟩
  · rw [hplaced]
    exact fun x hx => absurd hx List.not_mem_nil
  · rw [hplaced]
    exact fun x hx => absurd hx List.not_mem_nil
  · rw [hcalled]
    exact fun x hx => absurd hx List.not_mem_nil

/-- Bytes for a request, and its callback. -/
theorem of_delivery {d : Done} {bytes : List UInt8} (hplaced : placed d.acts = [(r.buf, bytes)])
    (hcalled : called d.acts = r.cb.toList.map fun cb => (cb, r.param))
    (hlen : d.lens r.len = bytes.length) : times d ≤ 1 ∧ ServedAs r d := by
  refine ⟨?_, ?_, ?_⟩
  · rw [times, hcalled, List.length_map]
    exact Option.length_toList_le
  · rw [hplaced]
    exact List.forall_mem_singleton.mpr ⟨rfl, hlen⟩
  · rw [hcalled]
    intro c hc
    obtain ⟨cb, hcb, rfl⟩ := List.mem_map.mp hc
    exact ⟨Option.mem_toList.mp hcb, rfl⟩

/-- An `onRecv` keeps the law only when it finds as many bytes as `*len` says. -/
theorem inTime_of_onRecv (hfd : s.conn.pUnixChannel_ = some fd)
    (hstep : (s.step (.onRecv r result)).Yields es t) (h : ReceiveLaw t.requests (log ++ es)) :
    s.InTime (.onRecv r result) := by
  obtain ⟨acts, ⟨ret, conn⟩, hcall, rfl, rfl⟩ := Traced.record_yields.mp hstep
  rcases onRecv_cases hfd hcall with ⟨hblocked, -, -, -⟩ | ⟨⟨errno, rfl⟩, -, -, hhandler, -, -⟩ |
    ⟨bytes, rfl, -, hplaced, -, hlens⟩
  · cases result with
    | fail errno => exact .inl hblocked
    | data bytes => exact absurd hblocked Bool.false_ne_true
  · exact .inr hhandler
  · have hserved := h.last_served (r := r) List.getElem?_concat_length
    have hlength := (hserved.length _ (by
      show _ ∈ placed acts
      rw [hplaced]
      exact List.mem_cons_self)).2
    change setLens acts s.lens r.len = _ at hlength
    rwa [hlens] at hlength

/-- A `handleRead` that keeps the law is in time. -/
theorem inTime_of_handleRead (hfd : s.conn.pUnixChannel_ = some fd)
    (hstep : (s.step (.handleRead result)).Yields es t) (h : ReceiveLaw t.requests (log ++ es)) :
    s.InTime (.handleRead result) := by
  obtain ⟨acts, ⟨ret, conn⟩, hcall, rfl, rfl⟩ := Traced.record_yields.mp hstep
  obtain ⟨rfl, ⟨hclosed, -⟩ | ⟨hrequest, hhandler, ⟨errno, rfl⟩, -, -⟩ |
    ⟨info, bytes, -, hinfo, rfl, hplaced, hcalled, -⟩⟩ := handleRead_cases hfd hcall
  · cases result with
    | data bytes => exact .inl ⟨fd, hfd, hclosed⟩
    | fail errno => exact .inl ⟨fd, hfd, hclosed⟩
  · exact .inr ⟨hrequest, hhandler⟩
  · cases harmed : s.armed with
    | some call => exact .inr (.inl (by rw [harmed]; exact Option.some_ne_none call))
    | none =>
        have hread : s.read acts = .unarmed (s.done acts) := by rw [System.read, harmed]
        rw [hread] at h
        obtain ⟨hempty, hnobody⟩ := h.last_unarmed
        change ∀ x ∈ placed acts, x.2 = [] at hempty
        change called acts = [] at hnobody
        rw [hplaced] at hempty
        rw [hcalled, List.map_eq_nil_iff, Option.toList_eq_nil_iff] at hnobody
        exact .inr (.inr ⟨hempty _ List.mem_cons_self, info, hinfo, hnobody⟩)

/-- An `onRecv` in time keeps the invariant. -/
theorem Inv.onRecv (h : Inv fd log s) (hok : s.InTime (.onRecv r result))
    (hstep : (s.step (.onRecv r result)).Yields es t) : Inv fd (log ++ es) t := by
  obtain ⟨acts, ⟨ret, conn⟩, hcall, rfl, rfl⟩ := Traced.record_yields.mp hstep
  have hwaits : Waits times (s.requests ++ [r]) log s.requests.length r := h.lawful.waits r
  have hlawful : ReceiveLaw (s.requests ++ [r]) log := h.lawful.more r
  -- the registration that is armed waits on
  have hothers : ∀ call, s.armed = some call → ∃ r', Waits times (s.requests ++ [r])
      (log ++ [.served s.requests.length (s.done acts)]) call r' ∧
      s.conn.RecvInfo_ = (onRecv.register r' s.conn).RecvInfo_ := by
    intro call hcall
    obtain ⟨r', hwaits', hinfo⟩ := h.armed call hcall
    exact ⟨r', hwaits'.other (Nat.ne_of_lt hwaits'.lt) r _, hinfo⟩
  rcases onRecv_cases h.channel_eq hcall with ⟨hblocked, rfl, hplaced, hcalled⟩ |
    ⟨-, hother, rfl, -, hplaced, hcalled⟩ | ⟨bytes, rfl, rfl, hplaced, hcalled, hlens⟩
  · -- nothing is there yet, and the new call is armed
    obtain ⟨hnone, -, hserves⟩ := of_nothing (d := s.done acts) hplaced hcalled
    refine ⟨h.channel_eq, hlawful.served hwaits (hserves r) (by omega), fun call hcall => ?_⟩
    rw [if_pos hblocked] at hcall
    obtain rfl := Option.some.inj hcall
    exact ⟨r, hwaits.untouched hnone, rfl⟩
  · obtain ⟨hnone, -, hserves⟩ := of_nothing (d := s.done acts) hplaced hcalled
    refine ⟨h.channel_eq, hlawful.served hwaits (hserves r) (by omega), fun call hcall => ?_⟩
    rw [if_neg (by rw [hother]; exact Bool.false_ne_true)] at hcall
    exact hothers call hcall
  · -- bytes are there, as many as `*len` says
    have hlen : (s.done acts).lens r.len = bytes.length := (congrFun (hlens s.lens) _).trans hok
    obtain ⟨honce, hserves⟩ := of_delivery (d := s.done acts) hplaced hcalled hlen
    exact ⟨h.channel_eq, hlawful.served hwaits hserves honce, hothers⟩

/-- A `handleRead` in time keeps the invariant. -/
theorem Inv.handleRead (h : Inv fd log s) (hok : s.InTime (.handleRead result))
    (hstep : (s.step (.handleRead result)).Yields es t) : Inv fd (log ++ es) t := by
  obtain ⟨acts, ⟨ret, conn⟩, hcall, rfl, rfl⟩ := Traced.record_yields.mp hstep
  obtain ⟨rfl, hcases⟩ := handleRead_cases h.channel_eq hcall
  -- a call that places nothing and calls nobody
  have hquiet : placed acts = [] → called acts = [] → Inv fd (log ++ [s.read acts])
      { s.behind s.conn acts with armed := if placed acts = [] then s.armed else none } := by
    intro hplaced hcalled
    obtain ⟨hnone, hidle, hserves⟩ := of_nothing (d := s.done acts) hplaced hcalled
    rw [System.read]
    rcases Option.eq_none_or_eq_some s.armed with harmed | ⟨call, harmed⟩
    · rw [harmed]
      refine ⟨h.channel_eq, h.lawful.idle hidle, fun call hcall => ?_⟩
      rw [if_pos hplaced] at hcall
      exact absurd hcall (Option.some_ne_none call).symm
    · obtain ⟨r, hwaits, hinfo⟩ := h.armed call harmed
      rw [harmed]
      refine ⟨h.channel_eq, h.lawful.served hwaits (hserves r) (by omega), fun call' hcall => ?_⟩
      rw [if_pos hplaced] at hcall
      obtain rfl := Option.some.inj hcall
      exact ⟨r, hwaits.untouched hnone, hinfo⟩
  rcases hcases with ⟨-, rfl⟩ | ⟨-, -, -, hplaced, hcalled⟩ |
    ⟨info, bytes, hopen, hinfo, rfl, hplaced, hcalled, hlens⟩
  · exact hquiet rfl rfl
  · exact hquiet hplaced hcalled
  have hsome : placed acts ≠ [] := by
    rw [hplaced]
    exact List.cons_ne_nil _ _
  have hunarmed : ∀ call, (if placed acts = [] then s.armed else none) ≠ some call := by
    intro call
    rw [if_neg hsome]
    exact (Option.some_ne_none call).symm
  rcases Option.eq_none_or_eq_some s.armed with harmed | ⟨call, harmed⟩
  · -- a request from before, which gets no bytes and has no callback
    have hread : s.read acts = .unarmed (s.done acts) := by rw [System.read, harmed]
    rcases hok with ⟨fd', hfd', hclosed⟩ | hne | ⟨rfl, info', hinfo', hcb⟩
    · exact absurd (Option.some.inj (hfd'.symm.trans h.channel_eq) ▸ hclosed) hopen
    · exact absurd harmed hne
    · obtain rfl := Option.some.inj (hinfo.symm.trans hinfo')
      rw [hcb] at hcalled
      rw [hread]
      refine ⟨h.channel_eq, h.lawful.idle ⟨?_, hcalled⟩,
        fun call hcall => absurd hcall (hunarmed call)⟩
      show ∀ x ∈ placed acts, x.2 = []
      rw [hplaced]
      exact List.forall_mem_singleton.mpr rfl
  · -- the armed registration is completed, and is not armed any more
    obtain ⟨r, hwaits, hregister⟩ := h.armed call harmed
    have hread : s.read acts = .served call (s.done acts) := by rw [System.read, harmed]
    obtain rfl := Option.some.inj (hinfo.symm.trans hregister)
    obtain ⟨honce, hserves⟩ := of_delivery (r := r) (d := s.done acts) hplaced hcalled
      (hlens s.lens)
    rw [hread]
    exact ⟨h.channel_eq, h.lawful.served hwaits hserves honce,
      fun call hcall => absurd hcall (hunarmed call)⟩

/-- A step in time is taken. -/
theorem Inv.returns (h : Inv fd log s) {action : Action} (hok : s.InTime action) :
    ∃ es t, (s.step action).Yields es t := by
  cases action with
  | arrive bytes => exact ⟨_, _, (Traced.pure_yields ..).mpr ⟨rfl, rfl⟩⟩
  | close => exact ⟨_, _, (Traced.pure_yields ..).mpr ⟨rfl, rfl⟩⟩
  | onRecv r result =>
      have hhandled : ∀ errno, result = .fail errno →
          blocked result = true ∨ s.conn.errorHandle_ ≠ none := by
        rintro errno rfl
        exact hok
      obtain ⟨acts, ret, conn, hcall⟩ := onRecv_returns (r := r) h.channel_eq hhandled
      exact ⟨_, _, Traced.record_yields.mpr ⟨acts, (ret, conn), hcall, rfl, rfl⟩⟩
  | handleRead result =>
      have hclosed : s.Closed → fd < 0 := fun ⟨fd', hfd', hclosed⟩ =>
        Option.some.inj (hfd'.symm.trans h.channel_eq) ▸ hclosed
      have hset : fd < 0 ∨ s.conn.RecvInfo_ ≠ none ∧
          ∀ errno, result = .fail errno → s.conn.errorHandle_ ≠ none := by
        cases result with
        | fail errno =>
            exact hok.imp hclosed fun hboth => ⟨hboth.1, fun _ _ => hboth.2⟩
        | data bytes =>
            rcases hok with hok | harmed | ⟨-, info, hinfo, -⟩
            · exact .inl (hclosed hok)
            · obtain ⟨call, hcall⟩ := Option.ne_none_iff_exists'.mp harmed
              obtain ⟨r, -, hregister⟩ := h.armed call hcall
              exact .inr ⟨by rw [hregister]; exact Option.some_ne_none _,
                fun _ hfail => absurd hfail RecvResult.noConfusion⟩
            · exact .inr ⟨by rw [hinfo]; exact Option.some_ne_none _,
                fun _ hfail => absurd hfail RecvResult.noConfusion⟩
      obtain ⟨acts, ret, conn, hcall⟩ := handleRead_returns h.channel_eq hset
      exact ⟨_, _, Traced.record_yields.mpr ⟨acts, (ret, conn), hcall, rfl, rfl⟩⟩

/-- A step in time keeps the invariant. -/
theorem Inv.step (h : Inv fd log s) {action : Action} (hok : s.InTime action)
    (hstep : (s.step action).Yields es t) : Inv fd (log ++ es) t := by
  cases action with
  | arrive bytes =>
      obtain ⟨rfl, rfl⟩ := (Traced.pure_yields ..).mp hstep
      rw [List.append_nil]
      exact ⟨h.channel_eq, h.lawful, h.armed⟩
  | close =>
      obtain ⟨rfl, rfl⟩ := (Traced.pure_yields ..).mp hstep
      rw [List.append_nil]
      exact ⟨h.channel_eq, h.lawful, h.armed⟩
  | onRecv r result => exact h.onRecv hok hstep
  | handleRead result => exact h.handleRead hok hstep

end Steps

/-! ### Whole runs -/

/-- Runs whose steps are in time keep the law, and another step keeps it exactly when it is in
time. -/
theorem lawful_iff {fd : Int} {handler : Option Nat} {lens : Nat → Nat} {actions : List Action}
    {log : List (Happening Done)} {s : System}
    (hrun : Traced.Run System.step System.InTime (idle fd handler lens) actions log s) :
    ReceiveLaw s.requests log ∧ ∀ action,
      (∃ es t, (s.step action).Yields es t ∧ ReceiveLaw t.requests (log ++ es)) ↔
        s.InTime action := by
  have hempty : Inv fd [] (idle fd handler lens) :=
    ⟨rfl, .nil, fun call hcall => absurd hcall (Option.some_ne_none call).symm⟩
  have hinv : Inv fd log s := hrun.invariant (P := fun _ log s => Inv fd log s) hempty
    fun _ _ _ _ _ _ h hok hstep => h.step hok hstep
  refine ⟨hinv.lawful, fun action => ⟨?_, fun hok => ?_⟩⟩
  · rintro ⟨es, t, hstep, hlawful⟩
    cases action with
    | arrive bytes => trivial
    | close => trivial
    | onRecv r result => exact inTime_of_onRecv hinv.channel_eq hstep hlawful
    | handleRead result => exact inTime_of_handleRead hinv.channel_eq hstep hlawful
  · obtain ⟨es, t, hstep⟩ := hinv.returns hok
    exact ⟨es, t, hstep, (hinv.step hok hstep).lawful⟩

/-- A request with a callback. -/
def requestOf (buf cb : Nat) : Request :=
  { buf := buf, len := 8, flags := 0, cb := some cb, param := 7 }

/-- A request that waits for its bytes. -/
theorem lawful_iff_deferred : ∃ log s,
    Traced.Run System.step System.InTime (idle 4 none fun _ => 20)
      [.onRecv (requestOf 100 5) (.fail EAGAIN), .arrive [1, 2], .handleRead (.data [1, 2])] log s ∧
    s.lens 8 = 2 ∧ completed times log = [0] ∧ ReceiveLaw s.requests log ∧ ∀ action,
      (∃ es t, (s.step action).Yields es t ∧ ReceiveLaw t.requests (log ++ es)) ↔
        s.InTime action := by
  have hrun : ∃ log s,
      Traced.Run System.step System.InTime (idle 4 none fun _ => 20)
        [.onRecv (requestOf 100 5) (.fail EAGAIN), .arrive [1, 2], .handleRead (.data [1, 2])]
        log s ∧ s.lens 8 = 2 ∧ completed times log = [0] := by
    refine ⟨_, _, .snoc (.snoc (.snoc (l := []) .nil ?_ ⟨rfl, rfl⟩) ?_ ⟨rfl, rfl⟩) ?_ ⟨rfl, rfl⟩,
      rfl, rfl⟩
    · exact .inl rfl
    · exact trivial
    · exact .inr (.inl (Option.some_ne_none 0))
  obtain ⟨log, s, hrun, hlens, hcompleted⟩ := hrun
  exact ⟨log, s, hrun, hlens, hcompleted, lawful_iff hrun⟩

/-- Three runs. Bytes that are there when `onRecv` asks for them leave `*len` at 20. A `handleRead`
behind a completed request fills its buffer again and calls its callback a second time. A
`handleRead` before the first request uses a pointer that nobody has set. -/
theorem registrations_broken :
    (∃ log s, Traced.Run System.step System.Possible (idle 4 none fun _ => 20)
      [.arrive [1, 2], .onRecv (requestOf 100 5) (.data [1, 2])] log s ∧ s.lens 8 = 20 ∧
      ¬ ReceiveLaw s.requests log) ∧
    (∃ log s, Traced.Run System.step System.Possible (idle 4 none fun _ => 20)
      [.onRecv (requestOf 100 5) (.fail EAGAIN), .arrive [1], .handleRead (.data [1]), .arrive [2],
        .handleRead (.data [2])] log s ∧ ¬ ReceiveLaw s.requests log) ∧
    ∃ log s, Traced.Run System.step System.Possible (idle 4 none fun _ => 20) [.arrive [1]] log s ∧
      s.Possible (.handleRead (.data [1])) ∧
      ∀ es t, ¬ (s.step (.handleRead (.data [1]))).Yields es t := by
  refine ⟨⟨_, _, .snoc (.snoc (l := []) .nil ?_ ⟨rfl, rfl⟩) ?_ ⟨rfl, rfl⟩, rfl, fun h => ?_⟩,
    ⟨_, _, .snoc (.snoc (.snoc (.snoc (.snoc (l := []) .nil ?_ ⟨rfl, rfl⟩) ?_ ⟨rfl, rfl⟩) ?_
      ⟨rfl, rfl⟩) ?_ ⟨rfl, rfl⟩) ?_ ⟨rfl, rfl⟩, fun h => ?_⟩,
    ⟨_, _, .snoc (l := []) .nil ?_ ⟨rfl, rfl⟩, ?_, fun es t h => ?_⟩⟩
  case refine_3 =>
    obtain ⟨r, hr, hserved⟩ := h.own _ _ List.mem_cons_self
    obtain rfl := Option.some.inj hr
    exact absurd (hserved.length _ List.mem_cons_self).2 (by decide)
  case refine_9 =>
    have hplaced := (h.unarmed _ (List.mem_cons_of_mem _ (List.mem_cons_of_mem _
      List.mem_cons_self))).placed
    exact absurd (hplaced _ List.mem_cons_self) (List.cons_ne_nil 2 [])
  case refine_12 => exact Option.some_ne_none _ h.2.symm
  all_goals decide

end Ndsl.Proofs.Unix.Receive
