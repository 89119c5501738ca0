import Ndsl.Net.Delivery
import Ndsl.Proofs.Dtp.NoZero
import Ndsl.Proofs.Dtp.Parse
import Ndsl.Proofs.Multiplexer.RoundTrip

/-!
# `Ndsl.Proofs.Dtp.Delivers`: a shared connection as many private ones

All clients of a connection send their control messages over it, and `dispatch` and `solve` hand
what arrives to the client whose id is in the message. `delivers`: each client is told its own
messages, in order and as they were built, and does what it would do if nobody else used the
connection. That is the framing of the stream, the wire format of a message and the registry of the
clients, one on top of the other.

The stream is to be cut as the framing needs it (`Clean`), and the strings of a message are to be
text without zeros. What the library makes of the bytes is a parameter (`Parses`).
-/

set_option autoImplicit false

namespace Ndsl.Proofs.Delivers

open Ndsl.Lib
open Ndsl.Net (MAXLINE)
open Ndsl.Net.Delivery
open Ndsl.Net.Dtp (ControlMsg DTPClient)
open Ndsl.Net.Multiplexer (Call Env IncompleteBuf)
open Ndsl.Proofs.Multiplexer (Clean Payloads deliveries stream)
open Ndsl.Proofs.NoZero (Strings)
open Ndsl.Proofs.Parse (InRange Parses Text)

/-! ### Statements -/

/-- A message that the connection can carry. -/
structure Sendable (msg : ControlMsg) : Prop where
  inRange : InRange msg
  text : Text msg
  strings : Strings msg
  /-- A message with nothing but default values is written as no bytes at all. -/
  ne_default : msg ≠ { flag := 0 }
  size : msg.serialize.length + Ndsl.Net.Multiplexer.msgSize < 2 ^ 31

/-- The bytes that `sendMessage` sends for the messages. -/
def sent (msgs : List ControlMsg) : List UInt8 :=
  msgs.flatMap fun msg => (Ndsl.Net.Multiplexer.sendMessage 0 msg.serialize).getD []

/-- What the clients do in a trace. -/
def clientEvent : Event → Option (Int × ClientEvent)
  | .dispatch _ => none
  | .client id event => some (id, event)

/-- What the client with this id does in a trace. -/
def eventsOf (id : Int) (log : List Event) : List ClientEvent :=
  Demux.own id (log.filterMap clientEvent)

/-- The client hears the messages, and nothing else. -/
def Hears (msgs : List ControlMsg) (client : DTPClient) (es : List ClientEvent)
    (client' : DTPClient) : Prop :=
  (msgs.foldlM analysisProtobuf client).Yields es client'

/-- The calls of `dispatch` return, and each client has heard the messages with its id. -/
def Delivered (env : Env) (parse : List UInt8 → ControlMsg) (calls : List Call)
    (msgs : List ControlMsg) (clients : Clients) : Prop :=
  ∃ fuel log clients', (dispatchAll env parse fuel calls ({}, clients)).Yields log ({}, clients') ∧
    ∀ id, (clients id = none → clients' id = none ∧ eventsOf id log = []) ∧
      ∀ client, clients id = some client → ∃ client', clients' id = some client' ∧
        Hears (msgs.filter fun msg => msg.id = id) client (eventsOf id log) client'

/-! ### Payloads -/

namespace Sendable
variable {msg : ControlMsg}

/-- Nothing but the default message is written as no bytes. -/
theorem serialize_ne_nil (h : Sendable msg) : msg.serialize ≠ [] := by
  intro hnil
  simp only [ControlMsg.serialize, List.append_eq_nil_iff] at hnil
  obtain ⟨hflag, hid, hip, hport, hsum, hname, hlength, hdataId, hcrc⟩ := hnil
  have hrange := h.inRange
  apply h.ne_default
  obtain ⟨flag, id, ip, dataPort, checkSum, fileName, length, dataId, crcCheckSum⟩ := msg
  rw [ControlMsg.mk.injEq]
  exact ⟨Wire.eq_zero_of_int32 hrange.flag hflag, Wire.eq_zero_of_int32 hrange.id hid,
    Wire.eq_nil_of_bytes hip, Wire.eq_zero_of_int32 hrange.dataPort hport,
    Wire.eq_nil_of_bytes hsum, Wire.eq_nil_of_bytes hname,
    Wire.eq_zero_of_int32 hrange.length hlength, Wire.eq_nil_of_bytes hdataId,
    Wire.eq_zero_of_uint32 hrange.crcCheckSum hcrc⟩

theorem payload (h : Sendable msg) :
    msg.serialize ≠ [] ∧ 0 ∉ msg.serialize ∧ msg.serialize.length < 2 ^ 31 :=
  ⟨h.serialize_ne_nil, h.strings.zero_not_mem_serialize,
    Nat.lt_of_le_of_lt (Nat.le_add_right _ _) h.size⟩

end Sendable

theorem payloads_of_sendable {msgs : List ControlMsg} (h : ∀ msg ∈ msgs, Sendable msg) :
    Payloads (msgs.map ControlMsg.serialize) := by
  intro p hp
  obtain ⟨msg, hmem, rfl⟩ := List.mem_map.mp hp
  exact (h msg hmem).payload

/-- `sendMessage` frames each message. -/
theorem sent_eq {msgs : List ControlMsg} (h : ∀ msg ∈ msgs, Sendable msg) :
    sent msgs = stream (msgs.map ControlMsg.serialize) := by
  rw [sent, stream, List.flatMap_map]
  refine List.flatMap_congr fun msg hmem => ?_
  rw [Multiplexer.sendMessage_eq (h msg hmem).size, Option.getD_some]

/-! ### From the trace of `dispatch` to the clients -/

/-- The string that an act of `dispatch` hands to `solve`. -/
def payloadOf : Ndsl.Net.Multiplexer.Act → Option (List UInt8)
  | .solve payload => some payload
  | _ => none

theorem filterMap_payloadOf {log : List Ndsl.Net.Multiplexer.Act} {ps : List (List UInt8)}
    (h : deliveries log = ps.map .solve) : log.filterMap payloadOf = ps := by
  have hdeliveries : log.filterMap payloadOf = (deliveries log).filterMap payloadOf := by
    rw [deliveries, List.filterMap_filter]
    refine List.filterMap_congr fun act _ => ?_
    cases act <;> rfl
  rw [hdeliveries, h, List.filterMap_map]
  exact List.filterMap_some

section
variable {parse : List UInt8 → ControlMsg} {clients clients' : Clients}

/-- What `perform` does with a string that is solved. -/
theorem perform_solve {payload : List UInt8} {es : List (Int × ClientEvent)}
    (h : (solve parse clients payload).Yields es clients') :
    (perform parse clients (.solve payload)).Yields
      (.dispatch (.solve payload) :: es.map fun e => .client e.1 e.2) clients' := by
  refine (Traced.tell_bind_yields ..).mpr ⟨es.map fun e => .client e.1 e.2, ?_, rfl⟩
  exact Traced.view_yields.mpr ⟨es, clients', h, List.map_eq_flatMap, rfl⟩

theorem perform_other {act : Ndsl.Net.Multiplexer.Act} (h : payloadOf act = none) :
    (perform parse clients act).Yields [.dispatch act] clients := by
  cases act with
  | solve payload => exact absurd h (Option.some_ne_none payload)
  | _ => exact ⟨rfl, rfl⟩

theorem filterMap_clientEvent (es : List (Int × ClientEvent)) :
    (es.map fun e => Event.client e.1 e.2).filterMap clientEvent = es := by
  rw [List.filterMap_map]
  exact List.filterMap_some

/-- The clients see the strings of a trace, one after the other. -/
theorem foldlM_perform {log : List Ndsl.Net.Multiplexer.Act} {es : List (Int × ClientEvent)}
    (h : ((log.filterMap payloadOf).foldlM (solve parse) clients).Yields es clients') :
    ∃ events, (log.foldlM (perform parse) clients).Yields events clients' ∧
      events.filterMap clientEvent = es := by
  induction log generalizing clients es with
  | nil =>
      obtain ⟨rfl, rfl⟩ := (Traced.pure_yields ..).mp h
      exact ⟨[], ⟨rfl, rfl⟩, rfl⟩
  | cons act log ih =>
      cases hact : payloadOf act with
      | none =>
          rw [List.filterMap_cons_none hact] at h
          obtain ⟨events, hrest, rfl⟩ := ih h
          refine ⟨.dispatch act :: events, ?_, rfl⟩
          rw [List.foldlM_cons]
          exact Traced.bind_yields.mpr ⟨_, _, _, perform_other hact, hrest, rfl⟩
      | some payload =>
          obtain rfl : act = .solve payload := by
            cases act with
            | solve p => exact congrArg _ (Option.some.inj hact)
            | _ => exact absurd hact.symm (Option.some_ne_none payload)
          rw [List.filterMap_cons_some hact, List.foldlM_cons] at h
          obtain ⟨fs, mid, gs, hfirst, hrest, rfl⟩ := Traced.bind_yields.mp h
          obtain ⟨events, hevents, rfl⟩ := ih hrest
          refine ⟨.dispatch (.solve payload) :: fs.map (fun e => .client e.1 e.2) ++ events,
            ?_, ?_⟩
          · rw [List.foldlM_cons]
            exact Traced.bind_yields.mpr ⟨_, _, _, perform_solve hfirst, hevents, rfl⟩
          · rw [List.cons_append, List.filterMap_cons_none rfl, List.filterMap_append,
              filterMap_clientEvent]

/-- The calls of `dispatch`, with what its calls of `solve` do. -/
theorem dispatchAll_yields {env : Env} {fuel : Nat} {calls : List Call}
    {icbuf icbuf' : IncompleteBuf}
    {log : List Ndsl.Net.Multiplexer.Act} {events : List Event}
    (h : (Ndsl.Net.Multiplexer.dispatchAll env fuel calls icbuf).Yields log icbuf')
    (hclients : (log.foldlM (perform parse) clients).Yields events clients') :
    (dispatchAll env parse fuel calls (icbuf, clients)).Yields events (icbuf', clients') := by
  induction calls generalizing icbuf clients log events with
  | nil =>
      obtain ⟨rfl, rfl⟩ := (Traced.pure_yields ..).mp h
      obtain ⟨rfl, rfl⟩ := (Traced.pure_yields ..).mp hclients
      exact ⟨rfl, rfl⟩
  | cons c calls ih =>
      rw [Ndsl.Net.Multiplexer.dispatchAll, List.foldlM_cons] at h
      obtain ⟨fs, mid, gs, ⟨rfl, hvalue⟩, hrest, rfl⟩ := Traced.bind_yields.mp h
      obtain ⟨es, clients₁, es', hfirst, hlater, rfl⟩ := Traced.foldlM_append_yields.mp hclients
      rw [dispatchAll, List.foldlM_cons]
      refine Traced.bind_yields.mpr ⟨es, (mid, clients₁), es', ?_, ih hrest hlater, rfl⟩
      refine Traced.bind_yields.mpr ⟨es, clients₁, [], hfirst, ?_, (List.append_nil es).symm⟩
      dsimp only
      rw [hvalue]
      exact ⟨rfl, rfl⟩

/-- Strings that were written from messages are given to the clients of the messages. -/
theorem foldlM_solve (hparse : Parses parse) {msgs : List ControlMsg}
    (h : ∀ msg ∈ msgs, Sendable msg) :
    (msgs.map ControlMsg.serialize).foldlM (solve parse) clients =
      msgs.foldlM (Demux.route (·.id) analysisProtobuf) clients := by
  induction msgs generalizing clients with
  | nil => rfl
  | cons msg msgs ih =>
      have hsolve : solve parse clients msg.serialize =
          Demux.route (·.id) analysisProtobuf clients msg := by
        have hmsg := h msg List.mem_cons_self
        rw [solve, hparse.parse_serialize msg hmsg.inRange hmsg.text]
      rw [List.map_cons, List.foldlM_cons, List.foldlM_cons, hsolve]
      exact congrArg _ (funext fun clients =>
        ih fun msg hmem => h msg (List.mem_cons_of_mem _ hmem))

end

/-- Once `dispatch` has handed over the payloads, every client has heard its own messages, provided
that it can be told of each of them. -/
theorem delivered_of_received {env : Env} {msgs : List ControlMsg} {calls : List Call}
    {clients : Clients} {parse : List UInt8 → ControlMsg} (hparse : Parses parse)
    (hmsgs : ∀ msg ∈ msgs, Sendable msg)
    (hreceived : Multiplexer.Received env {} calls
      ((msgs.map ControlMsg.serialize).map .solve) {})
    (hclients : ∀ id client, clients id = some client →
      ∃ es client', Hears (msgs.filter fun msg => msg.id = id) client es client') :
    Delivered env parse calls msgs clients := by
  obtain ⟨fuel, log, hrun, hlog⟩ := (Multiplexer.received_iff Multiplexer.wf_empty).mp hreceived
  obtain ⟨es, clients', hroute⟩ := Demux.yields_of_alone (fun id client hclient =>
    hclients id client hclient)
  have halone := Demux.alone_of_yields hroute
  rw [← foldlM_solve hparse hmsgs, ← filterMap_payloadOf hlog] at hroute
  obtain ⟨events, hevents, rfl⟩ := foldlM_perform hroute
  exact ⟨fuel, events, clients', dispatchAll_yields hrun hevents, halone⟩

/-! ### The result -/

/-- Over a stream that is cut cleanly every client hears its own messages as they were built, and
does what it would do if they came alone, provided that it can be told of each of them. -/
theorem delivers {env : Env} {msgs : List ControlMsg} {calls : List Call} {clients : Clients}
    {parse : List UInt8 → ControlMsg} (hparse : Parses parse)
    (hmsgs : ∀ msg ∈ msgs, Sendable msg)
    (hcalls : ∀ c ∈ calls, c.recv.length ≤ MAXLINE)
    (hstream : calls.flatMap (·.recv) = sent msgs)
    (hclean : Clean env (.inside 0) (msgs.map ControlMsg.serialize) calls)
    (hclients : ∀ id client, clients id = some client →
      ∃ es client', Hears (msgs.filter fun msg => msg.id = id) client es client') :
    Delivered env parse calls msgs clients := by
  rw [sent_eq hmsgs] at hstream
  have htexts := (payloads_of_sendable hmsgs).texts
  have hreceived := hclean.received (Multiplexer.at_empty _) htexts hcalls hstream
  exact delivered_of_received hparse hmsgs hreceived hclients

/-- A stream that comes in one chunk is cut cleanly. -/
theorem cut_of_one {env : Env} {len0 : Int} {ps : List (List UInt8)}
    (hslack : ∀ p ∈ ps, env.slack p.length = true) (o : Nat) :
    Multiplexer.Cut env (o + (stream ps).length) len0 o 0 ps (.inside 0) [] := by
  induction ps generalizing o with
  | nil => exact .edge []
  | cons p ps ih =>
      have hlen : (stream (p :: ps)).length =
          Ndsl.Net.Multiplexer.msgSize + p.length + (stream ps).length := by
        rw [Multiplexer.stream_cons, List.length_append, List.length_append,
          Multiplexer.length_header, Nat.add_assoc]
      have hrest := ih (fun q hq => hslack q (List.mem_cons_of_mem p hq))
        (o + (Ndsl.Net.Multiplexer.msgSize + p.length))
      rw [Nat.add_assoc, ← hlen] at hrest
      exact .whole o 0 p ps (.inside 0) [] (by omega) (hslack p List.mem_cons_self) hrest

theorem clean_of_one {env : Env} {len0 : Int} {ps : List (List UInt8)}
    (hslack : ∀ p ∈ ps, env.slack p.length = true) :
    Clean env (.inside 0) ps [{ recv := stream ps, len0 := len0 }] := by
  have hcut : Multiplexer.Cut env (0 + (stream ps).length) len0 0 0 ps (.inside 0) [] :=
    cut_of_one hslack 0
  rw [Nat.zero_add] at hcut
  exact .cons 0 ps (.inside 0) [] _ [] hcut .nil

/-- A request for a file `f`, to the client with this id. -/
def ask (id : Int) : ControlMsg :=
  { flag := Ndsl.Net.Dtp.RECVFILEFLAG, id := id, fileName := [0x66] }

/-- Two clients, with the ids 1 and 2. -/
def couple : Clients := fun id =>
  if id = 1 ∨ id = 2 then some { noticeCallback_ := some 0 } else none

/-- Nothing but the zeros behind the blocks matters of the surroundings. -/
def coupleEnv : Env := { connMp_ := fun _ => none, conn := 0, slack := fun _ => true }

theorem ask_sendable {id : Int} (hid : id = 1 ∨ id = 2) : Sendable (ask id) := by
  have hnil : Wire.utf8 [] = true := Wire.utf8_of_ascii (by simp)
  have hname : Wire.utf8 [0x66] = true := Wire.utf8_of_ascii (by simp)
  rcases hid with rfl | rfl <;>
    exact
      { inRange := by constructor <;> decide
        text := ⟨hnil, hnil, hname⟩
        strings := by constructor <;> decide
        ne_default := by decide
        size := by decide +kernel }

/-- Three requests for two clients in one chunk. -/
theorem delivers_couple :
    Delivered coupleEnv Parse.readMsg
      [{ recv := sent [ask 1, ask 2, ask 1], len0 := 1 }] [ask 1, ask 2, ask 1] couple := by
  have hmsgs : ∀ msg ∈ [ask 1, ask 2, ask 1], Sendable msg := by
    simp only [List.forall_mem_cons]
    exact ⟨ask_sendable (.inl rfl), ask_sendable (.inr rfl), ask_sendable (.inl rfl), by simp⟩
  have hclean : Clean coupleEnv (.inside 0) ([ask 1, ask 2, ask 1].map ControlMsg.serialize)
      [{ recv := sent [ask 1, ask 2, ask 1], len0 := 1 }] := by
    rw [sent_eq hmsgs]
    exact clean_of_one fun _ _ => rfl
  refine delivers Parse.parses_readMsg hmsgs (by decide +kernel) (by simp) hclean
    fun id client h => ?_
  -- a client hears two messages, or one, or none
  by_cases hid : id = 1 ∨ id = 2
  · rw [couple, if_pos hid] at h
    obtain rfl := Option.some.inj h
    rcases hid with rfl | rfl
    · exact ⟨_, _, rfl, rfl⟩
    · exact ⟨_, _, rfl, rfl⟩
  · rw [couple, if_neg hid] at h
    exact absurd h.symm (Option.some_ne_none client)

end Ndsl.Proofs.Delivers
