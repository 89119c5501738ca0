import Ndsl.Proofs.Dtp.Delivers
import Ndsl.Proofs.TcpConnection.Pair

/-!
# `Ndsl.Proofs.Exchange.Conversation`: two multiplexers in conversation

`sendMessage` hands each framed message to `onSend` of the connection, with `sendMsgCallback` and
the buffer that it was put together in. What the peer's `onRecv` reports is what `dispatch` is
called with.

`converses` puts the two connections (`Pair`) under the framing and the clients (`Delivers`).
Whatever the two sides do in whatever order, the buffers are freed in the order of their messages
and each of them once, what the peer is called with is the beginning of the messages, and when all
has arrived its clients have heard exactly the messages with their ids. The two directions do not
disturb each other.
-/

set_option autoImplicit false

namespace Ndsl.Proofs.Exchange

open Ndsl.Lib
open Ndsl.Net (MAXLINE)
open Ndsl.Net.Delivery (Clients)
open Ndsl.Net.Dtp (ControlMsg)
open Ndsl.Net.Multiplexer (Call Env sendMessage)
open Ndsl.Net.Tcp
open Ndsl.Proofs.Delivers (Delivered Hears Sendable sent)
open Ndsl.Proofs.Multiplexer (Clean)
open Ndsl.Proofs.Parse (Parses)
open Ndsl.Proofs.Tcp (bytes callbackOf callbacks done)
open Ndsl.Proofs.Tcp.Pair
open Ndsl.Proofs.Tcp.Receive (Happening reported)

/-! ### What is sent, and what the peer is called with -/

/-- What `sendMessage` hands to `onSend`: a message, framed in its buffer. -/
def post (sendMsgCallback : Nat) (p : Nat × ControlMsg) : Message :=
  { buf := (sendMessage 0 p.2.serialize).getD []
    flags := 0
    cb := some sendMsgCallback
    param := p.1 }

/-- The handed that were reported. -/
def handed (log : List Happening) : List (List UInt8) :=
  log.filterMap fun
    | .report _ acts => some (Tcp.Receive.taken acts)
    | .ended _ _ => none

theorem flatten_handed (log : List Happening) : (handed log).flatten = reported log := by
  induction log with
  | nil => rfl
  | cons h log ih =>
      cases h with
      | report call acts =>
          show Tcp.Receive.taken acts ++ (handed log).flatten =
            Tcp.Receive.taken acts ++ reported log
          rw [ih]
      | ended call result => exact ih

/-- The posts are the stream of the messages. -/
theorem bytes_posts (sendMsgCallback : Nat) (posts : List (Nat × ControlMsg)) :
    bytes (posts.map (post sendMsgCallback)) = sent (posts.map (·.2)) := by
  simp only [bytes, sent, List.flatMap_map, post]

/-! ### No chunk is larger than the buffer -/

section
variable {channel : TcpChannel} {log fs : List Happening} {s s' : Tcp.Receive.System}

/-- A chunk that fits the receive buffer. -/
def Fits : Happening → Prop
  | .report _ acts => (Tcp.Receive.taken acts).length ≤ MAXLINE
  | .ended _ _ => True

theorem fits_of_settle {call : Option Nat} {registered : Bool} {result : RecvResult}
    {x : Traced Act (Int × TcpConnection)} {acts : List Act} {ret : Int} {conn : TcpConnection}
    (hx : x.Yields acts (ret, conn)) (hacts : (Tcp.Receive.taken acts).length ≤ MAXLINE)
    (h : (s.settle call registered result x).Yields fs s') : ∀ e ∈ fs, Fits e := by
  obtain ⟨rfl, -⟩ := Tcp.Receive.settle_yields hx h
  intro e he
  rcases List.mem_append.mp he with he | he
  · split at he
    · cases he
    · obtain rfl := List.mem_singleton.mp he
      exact hacts
  · obtain ⟨k, -, hk⟩ := List.mem_filterMap.mp he
    split at hk
    · cases hk
    · obtain rfl := Option.some.inj hk
      trivial

/-- What `recv` gives fits, and so does what a call takes. -/
theorem fits_of_onRecv (h : Tcp.Receive.Inv channel log s) {r : Request} {result : RecvResult}
    (hgives : s.Gives result) (hstep : (s.step (.onRecv r result)).Yields fs s') :
    ∀ e ∈ fs, Fits e := by
  obtain ⟨acts, ret, conn, hyields, hcase⟩ := Tcp.Receive.onRecv_cases r result h.channel_eq
  refine fits_of_settle hyields ?_ hstep
  cases hcase with
  | block _ _ _ htaken => simp [htaken]
  | fail _ _ _ htaken => simp [htaken]
  | eof _ htaken => simp [htaken]
  | data b bytes =>
      rw [Tcp.Receive.taken_completion]
      exact hgives.2

theorem fits_of_handleRead (h : Tcp.Receive.Inv channel log s) {result : RecvResult}
    (hgives : s.Gives result) (hstep : (s.step (.handleRead result)).Yields fs s') :
    ∀ e ∈ fs, Fits e := by
  cases howner : s.owner with
  | none =>
      refine fits_of_settle (Tcp.Receive.handleRead_unarmed result (h.idle howner)) ?_ hstep
      exact Nat.zero_le _
  | some k =>
      obtain ⟨r, -, hinfo, -⟩ := h.armed k howner
      obtain ⟨acts, ret, conn, hyields, hcase⟩ :=
        Tcp.Receive.handleRead_cases result h.channel_eq hinfo
      refine fits_of_settle hyields ?_ hstep
      cases hcase with
      | closed => exact Nat.zero_le _
      | fail _ _ htaken => simp [htaken]
      | eof _ htaken => simp [htaken]
      | data b bytes =>
          rw [Tcp.Receive.taken_completion]
          exact hgives.2

end

/-! ### The result -/

section
variable {junk : UInt8} {channel : Side → TcpChannel} {ops : List (Side × Op)}
  {log : List (Side × Happened)} {l : Link}

/-- The handed that a step of a side reports. -/
theorem fits_of_trace {d side : Side} {fs : List Happening} (h : ∀ e ∈ fs, Fits e) :
    ∀ e ∈ happeningsOf d (trace side fs), Fits e := by
  rcases eq_or_eq_peer d side with rfl | rfl
  · rw [(happeningsOf_trace d fs).1]
    exact h
  · rw [(happeningsOf_trace side fs).2]
    exact fun e he => nomatch he

theorem fits_of_step {l' : Link} {op : Side × Op} {es : List (Side × Happened)}
    (h : Tcp.Pair.Inv junk channel ops log l) (hpossible : l.Possible op)
    (hstep : (l.step junk op).Yields es l') (d : Side) : ∀ e ∈ happeningsOf d es, Fits e := by
  obtain ⟨side, op⟩ := op
  cases op with
  | onSend m n =>
      obtain ⟨acts, conn, -, rfl, -⟩ := Traced.record_yields.mp hstep
      exact fun e he => nomatch he
  | handleWrite n =>
      obtain ⟨acts, conn, -, rfl, -⟩ := Traced.record_yields.mp hstep
      exact fun e he => nomatch he
  | onRecv r result =>
      obtain ⟨fs, s', hcall, rfl, -⟩ := Traced.view_yields.mp hstep
      exact fits_of_trace (fits_of_onRecv (h.receiving side) hpossible hcall)
  | handleRead result =>
      obtain ⟨fs, s', hcall, rfl, -⟩ := Traced.view_yields.mp hstep
      exact fits_of_trace (fits_of_handleRead (h.receiving side) hpossible hcall)
  | arrive k =>
      obtain ⟨fs, s', hcall, rfl, -⟩ := Traced.view_yields.mp hstep
      obtain ⟨rfl, -⟩ := (Traced.pure_yields ..).mp hcall
      exact fun e he => nomatch he
  | close =>
      obtain ⟨fs, s', hcall, rfl, -⟩ := Traced.view_yields.mp hstep
      obtain ⟨rfl, -⟩ := (Traced.pure_yields ..).mp hcall
      exact fun e he => nomatch he

/-- Every chunk that a side is called with fits its buffer. -/
theorem fits_of_run (hrun : Traced.Run (Link.step junk) (fun l op => l.Possible op ∧ l.Orderly op)
    (new channel) ops log l) :
    Tcp.Pair.Inv junk channel ops log l ∧ ∀ side, ∀ e ∈ happeningsOf side log, Fits e := by
  refine hrun.invariant
    (P := fun ops log l => Tcp.Pair.Inv junk channel ops log l ∧
      ∀ side, ∀ e ∈ happeningsOf side log, Fits e) ⟨.new, fun _ _ h => by cases h⟩ ?_
  intro ops log l op es l' ⟨hinv, hfits⟩ hok hstep
  refine ⟨hinv.step hok.1 hok.2 hstep, fun side => ?_⟩
  rw [happeningsOf_append]
  exact List.forall_mem_append.mpr ⟨hfits side, fits_of_step hinv hok.1 hstep side⟩

/-- What a multiplexer that sends these messages gets from its connection, and what the clients at
the other end get. -/
structure Converses (sendMsgCallback : Nat) (posts : List (Nat × ControlMsg))
    (log : List (Side × Happened)) (l : Link) (d : Side) : Prop where
  /-- The buffers are freed in order, each when its last byte is out. -/
  freed : ∃ n, callbacks (actsOf d log) = (posts.take n).map fun p => (sendMsgCallback, p.1)
  allFreed : (l.ends d).conn.qSendInfo_ = [] →
    callbacks (actsOf d log) = posts.map fun p => (sendMsgCallback, p.1)
  /-- The peer is called with a beginning of the stream. -/
  heard : (handed (happeningsOf d.peer log)).flatten <+: sent (posts.map (·.2))
  /-- When all has arrived, the clients at the other end have heard their messages. -/
  delivered : (l.ends d).conn.qSendInfo_ = [] → (l.ends d.peer).pending = [] → l.wire d = [] →
    ∀ (env : Env) (parse : List UInt8 → ControlMsg) (clients : Clients) (calls : List Call),
      Parses parse → calls.map (·.recv) = handed (happeningsOf d.peer log) →
      Clean env (.inside 0) ((posts.map (·.2)).map ControlMsg.serialize) calls →
      (∀ id client, clients id = some client → ∃ es client',
        Hears ((posts.map (·.2)).filter fun msg => msg.id = id) client es client') →
      Delivered env parse calls (posts.map (·.2)) clients

/-- The messages whose last byte is out are the first ones. -/
theorem exists_done (ms : List Message) (n : Nat) : ∃ k, done ms n = ms.take k := by
  induction ms generalizing n with
  | nil => exact ⟨0, rfl⟩
  | cons m ms ih =>
      rw [done]
      split
      · obtain ⟨k, hk⟩ := ih (n - m.buf.length)
        exact ⟨k + 1, by rw [hk, List.take_succ_cons]⟩
      · exact ⟨0, rfl⟩

/-- Two connections between two multiplexers, in every state that a run reaches in which each half
is used as it is made to be used. -/
theorem converses {sendMsgCallback : Nat} {posts : Side → List (Nat × ControlMsg)}
    (hrun : Traced.Run (Link.step junk) (fun l op => l.Possible op ∧ l.Orderly op)
      (new channel) ops log l)
    (hposts : ∀ d, messagesOf d ops = (posts d).map (post sendMsgCallback))
    (hsendable : ∀ d, ∀ p ∈ posts d, Sendable p.2) (d : Side) :
    Converses sendMsgCallback (posts d) log l d := by
  obtain ⟨hinv, hfits⟩ := fits_of_run hrun
  have hcarried := hinv.carried d
  have hmsgs : ∀ msg ∈ (posts d).map (·.2), Sendable msg := by
    intro msg hmem
    obtain ⟨p, hp, rfl⟩ := List.mem_map.mp hmem
    exact hsendable d p hp
  have hcallbacks : ∀ ps : List (Nat × ControlMsg),
      (ps.map (post sendMsgCallback)).filterMap callbackOf =
        ps.map fun p => (sendMsgCallback, p.1) := by
    intro ps
    rw [List.filterMap_map]
    exact congrFun List.filterMap_eq_map ps
  refine ⟨?_, fun hqueue => ?_, ?_, ?_⟩
  · obtain ⟨n, hn⟩ := exists_done (messagesOf d ops) (Tcp.accepted (actsOf d log)).length
    refine ⟨n, ?_⟩
    rw [hcarried.sent.callbacks_eq, hn, hposts, ← List.map_take, hcallbacks]
  · -- nothing is queued, so the last byte of each message is out
    have hall := (hinv.outgoing_bytes d).2.mpr hqueue
    have hlength := congrArg List.length hall
    rw [outgoing, List.length_map] at hlength
    rw [hcarried.sent.callbacks_eq, hlength, Tcp.done_all, hposts, hcallbacks]
  · rw [flatten_handed, ← bytes_posts sendMsgCallback, ← hposts]
    exact hcarried.delivered
  · intro hqueue hpending hwire env parse clients calls hparse hcalls hclean hclients
    have hstream : calls.flatMap (·.recv) = sent ((posts d).map (·.2)) := by
      rw [List.flatMap_def, hcalls, flatten_handed,
        hcarried.all.mpr ⟨hqueue, hpending, hwire⟩, hposts, bytes_posts]
    have hsizes : ∀ c ∈ calls, c.recv.length ≤ MAXLINE := by
      intro c hc
      have hmem : c.recv ∈ handed (happeningsOf d.peer log) := hcalls ▸ List.mem_map_of_mem hc
      obtain ⟨e, he, hchunk⟩ := List.mem_filterMap.mp hmem
      have hfit := hfits d.peer e he
      cases e with
      | report call acts =>
          have hrecv : Tcp.Receive.taken acts = c.recv := Option.some.inj hchunk
          rw [← hrecv]
          exact hfit
      | ended call result => cases hchunk
    rw [Delivers.sent_eq hmsgs] at hstream
    have htexts := (Delivers.payloads_of_sendable hmsgs).texts
    have hreceived := hclean.received (Multiplexer.at_empty _) htexts hsizes hstream
    exact Delivers.delivered_of_received hparse hmsgs hreceived hclients

end

/-- Each side requests the other one for a file. -/
def requests : Side → List (Nat × ControlMsg)
  | .left => [(40, Delivers.ask 1)]
  | .right => [(41, Delivers.ask 2)]

/-- The framed request of a client for the file `f`, in its buffer. -/
def framedAsk (buffer : Nat) (id : UInt8) : Message :=
  { buf := [0, 0, 0, 0, 0, 0, 0, 7, 8, 1, 16, id, 50, 1, 0x66]
    flags := 0
    cb := some 7
    param := buffer }

theorem post_ask :
    post 7 (40, Delivers.ask 1) = framedAsk 40 1 ∧
      post 7 (41, Delivers.ask 2) = framedAsk 41 2 := by
  decide +kernel

/-- The left side sends its message in two parts, and the right side sends at once. -/
def talk : List (Side × Op) :=
  [(.right, .onRecv (Tcp.Receive.requestAt 16) (.fail EAGAIN)),
    (.left, .onSend (framedAsk 40 1) (.count 3)), (.right, .onSend (framedAsk 41 2) (.count 15)),
    (.left, .handleWrite (.count 12)), (.right, .arrive 15), (.left, .arrive 15),
    (.right, .handleRead (.data (framedAsk 40 1).buf)),
    (.left, .onRecv (Tcp.Receive.requestAt 32) (.data (framedAsk 41 2).buf))]

/-- Both sides talk at the same time, and hear each other. -/
theorem converses_talk : ∃ log l,
    Traced.Run (Link.step 0) (fun l op => l.Possible op ∧ l.Orderly op)
      (new fun _ => Tcp.Receive.open4) talk log l ∧
      (∀ d, Converses 7 (requests d) log l d) ∧
      handed (happeningsOf .right log) = [(framedAsk 40 1).buf] ∧
      handed (happeningsOf .left log) = [(framedAsk 41 2).buf] := by
  have hrun : ∃ log l, Traced.Run (Link.step 0) (fun l op => l.Possible op ∧ l.Orderly op)
      (new fun _ => Tcp.Receive.open4) talk log l ∧
      handed (happeningsOf .right log) = [(framedAsk 40 1).buf] ∧
      handed (happeningsOf .left log) = [(framedAsk 41 2).buf] := by
    refine ⟨_, _, .snoc (.snoc (.snoc (.snoc (.snoc (.snoc (.snoc (.snoc (l := []) .nil
      ?ask ⟨rfl, rfl⟩) ?send ⟨rfl, rfl⟩) ?answer ⟨rfl, rfl⟩) ?rest ⟨rfl, rfl⟩) ?there ⟨rfl, rfl⟩)
      ?back ⟨rfl, rfl⟩) ?read ⟨rfl, rfl⟩) ?take ⟨rfl, rfl⟩, ?right, ?left⟩
    case ask => exact ⟨fun _ => ⟨rfl, rfl⟩, fun h => Bool.noConfusion h⟩
    case send => exact ⟨⟨rfl, by decide, by decide, by decide⟩, rfl, 3, rfl⟩
    case answer => exact ⟨⟨rfl, by decide, by decide, by decide⟩, rfl, 15, rfl⟩
    case rest =>
      refine ⟨⟨rfl, ?_⟩, fun _ => ⟨12, rfl⟩⟩
      intro tsi htsi
      obtain rfl := Option.some.inj htsi
      exact ⟨by decide, by decide⟩
    case there => exact ⟨rfl, trivial⟩
    case back => exact ⟨rfl, trivial⟩
    case read => exact ⟨⟨List.prefix_refl _, by decide⟩, fun _ => rfl⟩
    case take => exact ⟨⟨List.prefix_refl _, by decide⟩, fun _ => rfl⟩
    case right => rfl
    case left => rfl
  obtain ⟨log, l, hrun, hright, hleft⟩ := hrun
  refine ⟨log, l, hrun, converses hrun ?_ ?_, hright, hleft⟩
  · intro d
    cases d with
    | left => exact congrArg (fun m => [m]) post_ask.1.symm
    | right => exact congrArg (fun m => [m]) post_ask.2.symm
  · intro d p hp
    cases d with
    | left =>
        obtain rfl := List.mem_singleton.mp hp
        exact Delivers.ask_sendable (.inl rfl)
    | right =>
        obtain rfl := List.mem_singleton.mp hp
        exact Delivers.ask_sendable (.inr rfl)

end Ndsl.Proofs.Exchange
