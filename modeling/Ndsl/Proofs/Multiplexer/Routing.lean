import Ndsl.Proofs.Multiplexer.RoundTrip

/-!
# `Ndsl.Proofs.Multiplexer.Routing`: messages with and without a client

`Routed` says what a list of messages with any ids is to be turned into: `solve` for a control
message, one call of the registered `dataCallback_` for a direct one, nothing for an id without
a callback. `routing` says when `dispatch` does that: when the messages are `Orderly`, that is,
control messages that are cut cleanly, and behind them at most one direct message, which has a
client and no payload.

The branch for direct messages neither advances the offset nor clears the header, so a call that
has bytes left never returns (`Turns.not_of_direct`), and so does the call after it. The header
of a direct message cannot be repaired either once a chunk has ended inside it: completed with
zeros, it names another id or a control message (`not_called_of_cut`, `not_called_of_shift`).
-/

set_option autoImplicit false

namespace Ndsl.Proofs.Multiplexer

open Ndsl.Lib
open Ndsl.Net (MAXLINE toInt toSize toInt_toSize)
open Ndsl.Net.Multiplexer

/-! ### What the messages are to be turned into -/

/-- The bytes of messages with their ids. -/
def mixed (msgs : List (Int × List UInt8)) : List UInt8 := msgs.flatMap fun m => frame m.1 m.2

/-- Ids and sizes are `int`s. -/
def Messages (msgs : List (Int × List UInt8)) : Prop :=
  ∀ m ∈ msgs, -2 ^ 31 ≤ m.1 ∧ m.1 < 2 ^ 31 ∧ m.2.length < 2 ^ 31

instance (msgs : List (Int × List UInt8)) : Decidable (Messages msgs) :=
  inferInstanceAs (Decidable (∀ m ∈ msgs, -2 ^ 31 ≤ m.1 ∧ m.1 < 2 ^ 31 ∧ m.2.length < 2 ^ 31))

/-- Every message goes where its id says, once and in order. -/
inductive Routed (env : Env) : List (Int × List UInt8) → List Act → Prop
  | nil : Routed env [] []
  /-- A control message goes to `solve`. -/
  | control (p : List UInt8) (msgs : List (Int × List UInt8)) (ds : List Act)
      (hrest : Routed env msgs ds) : Routed env ((0, p) :: msgs) (.solve p :: ds)
  /-- A direct message goes to its client, which finds the whole payload behind the pointer. -/
  | client (id : Int) (p : List UInt8) (msgs : List (Int × List UInt8)) (ds : List Act)
      (client : DTPClient) (cb : Nat) (data : List UInt8) (hid : id ≠ 0)
      (hclient : lookup env id = some client) (hcb : client.dataCallback_ = some cb)
      (hdata : p <+: data) (hrest : Routed env msgs ds) :
      Routed env ((id, p) :: msgs)
        (.dataCallback cb RECVDATAFLAG data client.dataParam_ :: ds)
  /-- A direct message without a callback goes nowhere. -/
  | nobody (id : Int) (p : List UInt8) (msgs : List (Int × List UInt8)) (ds : List Act)
      (hid : id ≠ 0) (hnone : (lookup env id).bind (·.dataCallback_) = none)
      (hrest : Routed env msgs ds) : Routed env ((id, p) :: msgs) ds

/-- The calls, on a fresh `bufInfo`, return and route every message. -/
def Routes (env : Env) (msgs : List (Int × List UInt8)) (calls : List Call) : Prop :=
  ∃ fuel log icbuf, (dispatchAll env fuel calls {}).Yields log icbuf ∧
    Routed env msgs (deliveries log)

/-! ### Control messages -/

/-- Only a payload without a zero is ever handed over. -/
theorem Turns.zero_not_mem {env : Env} {recv p : List UInt8} {s s' : Loop} {ds : List Act}
    (h : Turns env recv s ds s') (hp : Act.solve p ∈ ds) : 0 ∉ p := by
  induction h with
  | stop => simp at hp
  | step _ hturn _ ih =>
      rcases List.mem_append.mp hp with hp | hp
      · cases hturn with
        | short => simp at hp
        | pending => simp at hp
        | complete size _ _ _ _ hzero =>
            obtain rfl := Act.solve.inj (List.mem_singleton.mp hp)
            exact hzero
        | direct client =>
            unfold callbackOf at hp
            split at hp <;> simp at hp
      · exact ih hp

theorem Received.zero_not_mem {env : Env} {calls : List Call} {p : List UInt8}
    {icbuf icbuf' : IncompleteBuf} {ds : List Act} (h : Received env icbuf calls ds icbuf')
    (hp : Act.solve p ∈ ds) : 0 ∉ p := by
  induction h with
  | nil => simp at hp
  | cons hcall _ ih => exact (List.mem_append.mp hp).elim hcall.zero_not_mem ih

/-! ### Direct messages -/

/-- No call returns once the header of a direct message is complete. -/
theorem Received.nil_of_direct {env : Env} {calls : List Call} {icbuf icbuf' : IncompleteBuf}
    {ds : List Act} (h : Received env icbuf calls ds icbuf')
    (hcalls : ∀ c ∈ calls, c.recv ≠ []) (hlen : icbuf.head.length = msgSize)
    (hid : toInt (ofBE (icbuf.head.take 4)) ≠ 0) : calls = [] := by
  cases h with
  | nil => rfl
  | cons hcall _ =>
      have hend := hcall.not_of_direct hlen hid
      exact absurd (List.eq_nil_of_length_eq_zero (Nat.le_zero.mp hend))
        (hcalls _ (List.mem_cons_self ..))

/-- A direct message that comes first: when all calls return, it had no payload and was the
only message, and its id is registered. -/
theorem Received.direct {env : Env} {calls : List Call} {icbuf icbuf' : IncompleteBuf}
    {ds : List Act} {hd tail : List UInt8} (h : Received env icbuf calls ds icbuf')
    (hlen : hd.length = msgSize) (hid : toInt (ofBE (hd.take 4)) ≠ 0) :
    ∀ {j : Nat}, icbuf = { head := hd.take j } → j < msgSize →
      (∀ c ∈ calls, c.recv ≠ []) → calls.flatMap (·.recv) = hd.drop j ++ tail →
      tail = [] ∧ (∃ client, lookup env (toInt (ofBE (hd.take 4))) = some client) ∧
        ∀ c ∈ calls, c.len0 ≠ 0 := by
  induction h with
  | nil =>
      -- a whole header cannot come in no calls
      intro j _ hj _ hstream
      have := congrArg List.length hstream
      simp only [List.flatMap_nil, List.length_nil, List.length_append, List.length_drop] at this
      omega
  | @cons icbuf icbuf' c cs ds ds' s hcall hrest ih =>
      intro j hic hj hcalls hstream
      have hjlen : icbuf.head.length = j := by
        rw [hic, List.length_take]
        omega
      have hdlen : (hd.drop j).length = msgSize - j := by rw [List.length_drop, hlen]
      have hcalls' := fun c' hc' => hcalls c' (List.mem_cons_of_mem c hc')
      rw [List.flatMap_cons] at hstream
      cases hcall with
      | stop hend =>
          exact absurd (List.eq_nil_of_length_eq_zero (Nat.le_zero.mp hend))
            (hcalls c (List.mem_cons_self ..))
      | step _ hturn hturns =>
          by_cases hfill : msgSize - icbuf.head.length ≤ c.recv.length
          · -- the header is completed
            have hfilled : filled c.recv ⟨icbuf, c.len0, 0⟩ = hd := by
              have hstream' : c.recv.drop 0 ++ cs.flatMap (·.recv) = hd.drop j ++ tail := hstream
              obtain ⟨hwin, -⟩ := window_of_append hstream' (by rw [hdlen]; omega)
              rw [hdlen] at hwin
              show icbuf.head ++ window c.recv 0 (msgSize - icbuf.head.length) = hd
              rw [hjlen, hwin, hic, List.take_append_drop]
            cases hturn with
            | short hshort => exact absurd hfill (Nat.not_le_of_lt hshort)
            | pending _ _ hid' => exact absurd (hfilled ▸ hid') hid
            | complete _ _ hid' => exact absurd (hfilled ▸ hid') hid
            | direct client _ _ _ hclient hlen0 =>
                rw [hfilled] at hturns hclient
                have hend := hturns.not_of_direct hlen hid
                have hhead : headEnd ⟨icbuf, c.len0, 0⟩ = 0 + (msgSize - icbuf.head.length) := rfl
                dsimp only at hend
                obtain ⟨rfl, rfl⟩ := hturns.of_ge hend
                obtain ⟨-, hlater⟩ := front_of_append hstream (by rw [hdlen]; omega)
                obtain rfl := hrest.nil_of_direct hcalls' hlen hid
                have htail : tail = [] := (List.append_eq_nil_iff.mp hlater.symm).2
                exact ⟨htail, ⟨client, hclient⟩, by simpa using hlen0⟩
          · -- a piece of the header
            obtain ⟨hrecv, hlater⟩ := front_of_append hstream (by rw [hdlen]; omega)
            cases hturn with
            | direct _ hfill' => exact absurd hfill' hfill
            | pending _ hfill' => exact absurd hfill' hfill
            | complete _ hfill' => exact absurd hfill' hfill
            | short _ hlen0 _ =>
                obtain ⟨rfl, rfl⟩ := hturns.of_ge (Nat.le_add_left _ _)
                have hnext := @ih (j + c.recv.length) ?_ (by omega) hcalls' ?_
                · obtain ⟨htail, hclient, hlens⟩ := hnext
                  exact ⟨htail, hclient, List.forall_mem_cons.mpr ⟨hlen0, hlens⟩⟩
                · have hwin : window c.recv 0 c.recv.length = c.recv := by
                    rw [window_of_le (by omega), List.drop_zero, List.take_length]
                  rw [hic, hwin, List.take_add, ← hrecv]
                · rw [hlater, List.drop_drop]

/-- The calls that bring a header of a direct message and nothing else hand it over. -/
theorem received_of_direct {env : Env} {hd : List UInt8} {client : DTPClient}
    (hlen : hd.length = msgSize) (hid : toInt (ofBE (hd.take 4)) ≠ 0)
    (hclient : lookup env (toInt (ofBE (hd.take 4))) = some client) :
    ∀ {calls : List Call} {j : Nat}, j < msgSize → (∀ c ∈ calls, c.recv ≠ []) →
      (∀ c ∈ calls, c.len0 ≠ 0) → calls.flatMap (·.recv) = hd.drop j →
      ∃ recv icbuf, Received env { head := hd.take j } calls (callbackOf recv client) icbuf := by
  have hmsg : msgSize ≤ MAXLINE := by decide
  intro calls
  induction calls with
  | nil =>
      -- the header is not complete, so a call is missing
      intro j hj _ _ hstream
      have := congrArg List.length hstream
      simp only [List.flatMap_nil, List.length_nil, List.length_drop] at this
      omega
  | cons c cs ih =>
      intro j hj hcalls hlens hstream
      -- the calls bring the rest of the header, and each brings a piece of it
      have hjlen : (hd.take j).length = j := by
        rw [List.length_take]
        omega
      have hdlen : (hd.drop j).length = msgSize - j := by rw [List.length_drop, hlen]
      have hpos := List.length_pos_iff.mpr (hcalls c (List.mem_cons_self ..))
      have hlen0 := hlens c (List.mem_cons_self ..)
      have hcalls' := fun c' hc' => hcalls c' (List.mem_cons_of_mem c hc')
      have hlens' := fun c' hc' => hlens c' (List.mem_cons_of_mem c hc')
      rw [List.flatMap_cons] at hstream
      have hle : c.recv.length ≤ (hd.drop j).length := by
        rw [← hstream, List.length_append]
        exact Nat.le_add_right _ _
      obtain ⟨hrecv, hlater⟩ := front_of_append (hstream.trans (List.append_nil _).symm) hle
      rw [List.append_nil, List.drop_drop] at hlater
      have hwin : window c.recv 0 c.recv.length = c.recv := by
        rw [window_of_le (by omega), List.drop_zero, List.take_length]
      have htake : hd.take j ++ c.recv = hd.take (j + c.recv.length) := by
        rw [List.take_add, ← hrecv]
      have hmax : c.recv.length ≤ MAXLINE := by omega
      by_cases hfill : j + c.recv.length < msgSize
      · -- a piece of the header
        obtain ⟨recv, icbuf, hrest⟩ := ih hfill hcalls' hlens' hlater
        have hturn : Turn env c.recv ⟨{ head := hd.take j }, c.len0, 0⟩ [] _ :=
          .short (by rw [hjlen]; omega) hlen0 (by rwa [Nat.zero_add])
        dsimp only at hturn
        rw [hwin, htake] at hturn
        exact ⟨recv, icbuf, .cons (.step hpos hturn (.stop (Nat.le_add_left _ _))) hrest⟩
      · -- the rest of the header
        have hend : j + c.recv.length = msgSize := by omega
        have hneed : msgSize - (hd.take j).length = c.recv.length := by omega
        have hfilled : filled c.recv ⟨{ head := hd.take j }, c.len0, 0⟩ = hd := by
          show hd.take j ++ window c.recv 0 (msgSize - (hd.take j).length) = hd
          rw [hneed, hwin, htake, hend, ← hlen, List.take_length]
        have hhead : headEnd ⟨{ head := hd.take j }, c.len0, 0⟩ = c.recv.length := by
          show 0 + (msgSize - (hd.take j).length) = _
          omega
        have hturn : Turn env c.recv ⟨{ head := hd.take j }, c.len0, 0⟩
            (callbackOf c.recv client) _ :=
          .direct client (Nat.le_of_eq hneed) (Nat.le_trans (Nat.le_of_eq hhead) hmax)
            (by rw [hfilled]; exact hid) (by rw [hfilled]; exact hclient) hlen0
        -- every call brings a byte, and none is left
        have hnil : cs = [] := by
          refine eq_nil_of_flatMap hcalls' ?_
          rw [hlater, hend, ← hlen, List.drop_length]
        subst hnil
        have hreceived := Received.cons (.step hpos hturn (.stop (Nat.le_of_eq hhead.symm))) .nil
        rw [List.append_nil, List.append_nil] at hreceived
        exact ⟨c.recv, _, hreceived⟩

/-! ### When messages are routed -/

/-- The header of a message. -/
def headerOf (id : Int) (p : List UInt8) : List UInt8 := be32 (toSize id) ++ be32 p.length

theorem length_headerOf (id : Int) (p : List UInt8) : (headerOf id p).length = msgSize := by
  rw [headerOf, List.length_append, length_be32, length_be32, msgSize]

theorem headerOf_id {id : Int} (p : List UInt8) (h : -2 ^ 31 ≤ id ∧ id < 2 ^ 31) :
    toInt (ofBE ((headerOf id p).take 4)) = id := by
  have htake : (headerOf id p).take 4 = be32 (toSize id) := rfl
  rw [htake, ofBE_be32, toInt_toSize h.1 h.2]

theorem mixed_cons (id : Int) (p : List UInt8) (msgs : List (Int × List UInt8)) :
    mixed ((id, p) :: msgs) = headerOf id p ++ (p ++ mixed msgs) := by
  rw [mixed, List.flatMap_cons, ← mixed, ← List.append_assoc]
  rfl

/-- Control messages. -/
def controls (ps : List (List UInt8)) : List (Int × List UInt8) := ps.map fun p => (0, p)

theorem mixed_controls (ps : List (List UInt8)) (msgs : List (Int × List UInt8)) :
    mixed (controls ps ++ msgs) = stream ps ++ mixed msgs := by
  rw [mixed, List.flatMap_append, controls, List.flatMap_map]
  rfl

/-- The messages come in an order and in chunks that `dispatch` can follow. -/
inductive Orderly (env : Env) : List (Int × List UInt8) → List Call → Prop
  /-- Control messages without zeros, cut cleanly. -/
  | alone (ps : List (List UInt8)) (calls : List Call) (hps : Texts ps)
      (hclean : Clean env (.inside 0) ps calls) : Orderly env (controls ps) calls
  /-- Behind them one direct message with a client and without a payload, whose header comes in
  calls of its own, each with a `len` that is not zero. -/
  | apart (ps : List (List UInt8)) (id : Int) (client : DTPClient) (before after : List Call)
      (hps : Texts ps) (hclean : Clean env (.inside 0) ps before) (hid : id ≠ 0)
      (hclient : lookup env id = some client) (hrecv : after.flatMap (·.recv) = frame id [])
      (hlen : ∀ c ∈ after, c.len0 ≠ 0) : Orderly env (controls ps ++ [(id, [])]) (before ++ after)
  /-- Or the header is the end of a chunk, behind the end of a control message with a payload. -/
  | together (ps : List (List UInt8)) (p : List UInt8) (id : Int) (client : DTPClient)
      (before : List Call) (c : Call) (bytes : List UInt8) (hps : Texts ps)
      (hlast : ps.getLast? = some p) (hp : p ≠ [])
      (hclean : Clean env (.inside 0) ps (before ++ [{ c with recv := bytes }]))
      (hid : id ≠ 0) (hclient : lookup env id = some client)
      (hrecv : c.recv = bytes ++ frame id []) (hbytes : bytes ≠ []) :
      Orderly env (controls ps ++ [(id, [])]) (before ++ [c])

/-! ### Orderly messages are routed -/

/-- Two runs, one behind the other. -/
theorem Received.append {env : Env} {calls calls' : List Call}
    {icbuf icbuf' icbuf'' : IncompleteBuf} {ds ds' : List Act}
    (h : Received env icbuf calls ds icbuf') (h' : Received env icbuf' calls' ds' icbuf'') :
    Received env icbuf (calls ++ calls') (ds ++ ds') icbuf'' := by
  induction h with
  | nil => exact h'
  | cons hcall _ ih =>
      rw [List.cons_append, List.append_assoc]
      exact .cons hcall (ih h')

/-- A part of a chunk that ends where the stream ends is taken as a whole, whatever comes behind
it in the chunk. -/
theorem Cut.reach {env : Env} (recv : List UInt8) {later tail : List UInt8} {size : Nat}
    {len0 : Int} {o k : Nat} {ps ps' : List (List UInt8)} {pos : Pos}
    (hcut : Cut env size len0 o k ps pos ps') (hpos : pos = .inside 0) (hend : ps' = [])
    (hsize : size ≤ recv.length) (hrecv : recv.length ≤ MAXLINE) :
    ∀ {s : Loop}, s.offset = o → At k ps s.icbuf →
      recv.drop o ++ later = (stream ps ++ tail).drop k → Texts ps →
      ∃ len : Int, ((ps = [] ∧ len = s.len) ∨ ∃ p, ps.getLast? = some p ∧ len = p.length) ∧
        ∀ ds s'', Turns env recv ⟨{}, len, size⟩ ds s'' →
          Turns env recv s (ps.map .solve ++ ds) s'' := by
  induction hcut with
  | edge ps =>
      intro s ho hat _ _
      subst hend ho
      obtain ⟨-, hic⟩ := hat.of_nil
      refine ⟨s.len, .inl ⟨rfl, rfl⟩, fun ds s'' h => ?_⟩
      rwa [← hic] at h
  | whole o k p ps pos ps' hfit hslack hrest ih =>
      intro s ho hat hstream hps
      subst ho
      have hlt := hat.lt
      have hle := hrest.offset_le
      have hturn := hat.turn_whole env hstream hrecv hps.head (by omega) hslack
      obtain ⟨-, hlater⟩ := hat.filledBlock_whole hstream (by omega)
      rw [hat.blockEnd_eq hstream (by omega)] at hturn hlater
      obtain ⟨len, hlen, hturns⟩ :=
        ih hpos hend (s := ⟨{}, p.length, _⟩) rfl (at_empty ps) hlater hps.tail
      refine ⟨len, .inr ?_, fun ds s'' h => ?_⟩
      · -- the last payload has set `len`
        rcases hlen with ⟨rfl, rfl⟩ | ⟨q, hq, rfl⟩
        · exact ⟨p, rfl, rfl⟩
        · exact ⟨q, by rw [List.getLast?_cons, hq]; rfl, rfl⟩
      · show Turns env recv s ([.solve p] ++ (ps.map .solve ++ ds)) s''
        exact .step (by omega) hturn (hturns ds s'' h)
  | body => exact absurd hend (List.cons_ne_nil _ _)
  | head => exact absurd hend (List.cons_ne_nil _ _)
  | early => exact absurd hpos (by simp)

theorem Routed.controls_append {env : Env} {msgs : List (Int × List UInt8)} {ds : List Act}
    (h : Routed env msgs ds) (ps : List (List UInt8)) :
    Routed env (controls ps ++ msgs) (ps.map .solve ++ ds) := by
  induction ps with
  | nil => exact h
  | cons p ps ih => exact .control p _ _ ih

/-- A client without a callback takes the message as well. -/
theorem routed_callbackOf {env : Env} {id : Int} {client : DTPClient} (recv : List UInt8)
    (hid : id ≠ 0) (hclient : lookup env id = some client) :
    Routed env [(id, [])] (callbackOf recv client) := by
  unfold callbackOf
  split
  · rename_i hcb
    exact .nobody id [] [] [] hid (by rw [hclient]; exact hcb) .nil
  · rename_i cb hcb
    exact .client id [] [] [] client cb _ hid hclient hcb List.nil_prefix .nil

/-- A header at the end of a chunk, where nothing is held: the direct message is handed over. -/
theorem turns_of_header {env : Env} (recv : List UInt8) (o : Nat) {hd : List UInt8}
    {client : DTPClient} {len : Int} (hlen : hd.length = msgSize)
    (hid : toInt (ofBE (hd.take 4)) ≠ 0)
    (hclient : lookup env (toInt (ofBE (hd.take 4))) = some client) (hne : len ≠ 0)
    (hrecv : recv.drop o = hd) (hmax : recv.length ≤ MAXLINE) :
    ∃ s, Turns env recv ⟨{}, len, o⟩ (callbackOf recv client) s := by
  have hmsg : msgSize = 8 := rfl
  have hsize : recv.length = o + msgSize := by
    have := congrArg List.length hrecv
    rw [List.length_drop, hlen] at this
    omega
  have hwin : window recv o msgSize = hd := by
    rw [window_of_le (by omega), hrecv, ← hlen, List.take_length]
  have hfilled : filled recv ⟨{}, len, o⟩ = hd := hwin
  have hfill : msgSize - ([] : List UInt8).length ≤ recv.length := by
    rw [List.length_nil]
    omega
  have hend : headEnd ⟨{}, len, o⟩ = recv.length := hsize.symm
  have hturn : Turn env recv ⟨{}, len, o⟩ (callbackOf recv client) _ :=
    .direct client hfill (hend ▸ hmax) (by rw [hfilled]; exact hid)
      (by rw [hfilled]; exact hclient) hne
  have hlt : o < recv.length := by omega
  have hturns := Turns.step hlt hturn (.stop (by dsimp only; exact Nat.le_of_eq hend.symm))
  rw [List.append_nil] at hturns
  exact ⟨_, hturns⟩

/-- A stream that ends inside a chunk, and the header of a direct message behind it. -/
theorem received_together {env : Env} {ps : List (List UInt8)} {p bytes hd : List UInt8}
    {client : DTPClient} {before : List Call} {c : Call} (hps : Texts ps)
    (hmax : ∀ c' ∈ before ++ [c], c'.recv.length ≤ MAXLINE)
    (hlast : ps.getLast? = some p) (hp : p ≠ [])
    (hclean : Clean env (.inside 0) ps (before ++ [{ c with recv := bytes }]))
    (hlen : hd.length = msgSize) (hid : toInt (ofBE (hd.take 4)) ≠ 0)
    (hclient : lookup env (toInt (ofBE (hd.take 4))) = some client)
    (hrecv : c.recv = bytes ++ hd) (hbytes : bytes ≠ [])
    (hstream : before.flatMap (·.recv) ++ bytes = stream ps) :
    ∃ icbuf, Received env {} (before ++ [c]) (ps.map .solve ++ callbackOf c.recv client) icbuf := by
  have hmaxc := hmax c (List.mem_append_right _ (List.mem_singleton_self c))
  have hholds : Holds (.inside 0) ps {} := at_empty ps
  have hwhole : before.flatMap (·.recv) ++ bytes =
      (stream ps ++ []).drop (Pos.inside 0).bytes := by
    rw [hstream, List.append_nil, Pos.bytes, List.drop_zero]
  obtain ⟨pos, ps', icbuf, ds, hrec, rfl, hclean', hholds', hlater⟩ :=
    hclean.received_append hholds hps (fun c' hc' => hmax c' (List.mem_append_left _ hc')) hwhole
  cases hclean' with
  | late _ _ _ _ hrest => cases hrest
  | cons k _ _ _ _ _ hcut hrest =>
      cases hrest with
      | nil =>
          have hps' : Texts ps' := fun q hq => hps q (List.mem_append_right ds hq)
          have hfront : c.recv.drop 0 ++ [] = (stream ps' ++ hd).drop k := by
            rw [List.append_nil, Pos.bytes] at hlater
            rw [List.drop_append_of_le_length (At.le_length hholds'), ← hlater, ← hrecv,
              List.append_nil, List.drop_zero]
          obtain ⟨len, hlen', hturns⟩ := hcut.reach c.recv rfl rfl
            (by rw [hrecv, List.length_append]; exact Nat.le_add_right _ _) hmaxc
            (s := ⟨icbuf, c.len0, 0⟩) rfl hholds' hfront hps'
          -- the chunk brings the end of a payload, which has set `len`
          have hne : len ≠ 0 := by
            rcases hlen' with ⟨rfl, -⟩ | ⟨q, hq, rfl⟩
            · obtain ⟨rfl, -⟩ := At.of_nil hholds'
              exact absurd hlater hbytes
            · rw [List.getLast?_append, hq] at hlast
              obtain rfl := Option.some.inj hlast
              exact_mod_cast List.length_pos_iff.mpr hp |>.ne'
          obtain ⟨s, hturns'⟩ := turns_of_header c.recv bytes.length hlen hid hclient hne
            (by rw [hrecv, List.drop_left]) hmaxc
          refine ⟨s.icbuf, ?_⟩
          have hcall := hturns _ _ hturns'
          have hreceived := hrec.append (.cons hcall .nil)
          simpa using hreceived

/-- Orderly messages are routed. -/
theorem Orderly.routes {env : Env} {msgs : List (Int × List UInt8)} {calls : List Call}
    (h : Orderly env msgs calls) (hmsgs : Messages msgs)
    (hcalls : ∀ c ∈ calls, c.recv ≠ [] ∧ c.recv.length ≤ MAXLINE)
    (hstream : calls.flatMap (·.recv) = mixed msgs) : Routes env msgs calls := by
  have hmax := fun c hc => (hcalls c hc).2
  have hholds : ∀ ps, Holds (.inside 0) ps {} := at_empty
  cases h with
  | alone ps calls hps hclean =>
      rw [← List.append_nil (controls ps), mixed_controls] at hstream
      have hrec := hclean.received (hholds ps) hps hmax (hstream.trans (List.append_nil _))
      obtain ⟨fuel, log, hrun, hds⟩ := (received_iff wf_empty).mp hrec
      refine ⟨fuel, log, _, hrun, ?_⟩
      rw [hds, ← List.append_nil (controls ps), ← List.append_nil (ps.map _)]
      exact Routed.nil.controls_append ps
  | apart ps id client before after hps hclean hid hclient hrecv hlen =>
      have hint := hmsgs (id, []) (List.mem_append_right _ (List.mem_singleton_self _))
      have hhd := headerOf_id [] ⟨hint.1, hint.2.1⟩
      rw [mixed_controls, List.flatMap_append] at hstream
      have htail : mixed [(id, [])] = frame id [] := List.append_nil _
      rw [hrecv, htail] at hstream
      have hfront : before.flatMap (·.recv) = stream ps := List.append_cancel_right hstream
      have hbefore := hclean.received (hholds ps) hps
        (fun c hc => hmax c (List.mem_append_left _ hc)) (by rw [hfront]; rfl)
      have hdirect : ∃ recv icbuf, Received env { head := (headerOf id []).take 0 } after
          (callbackOf recv client) icbuf :=
        received_of_direct (length_headerOf id []) (by rw [hhd]; exact hid)
          (by rw [hhd]; exact hclient) (by decide)
          (fun c hc => (hcalls c (List.mem_append_right _ hc)).1) hlen
          (hrecv.trans (List.append_nil _))
      obtain ⟨recv, icbuf, hafter⟩ := hdirect
      obtain ⟨fuel, log, hrun, hds⟩ := (received_iff wf_empty).mp (hbefore.append hafter)
      refine ⟨fuel, log, _, hrun, ?_⟩
      rw [hds]
      exact (routed_callbackOf recv hid hclient).controls_append ps
  | together ps p id client before c bytes hps hlast hp hclean hid hclient hrecv hbytes =>
      have hint := hmsgs (id, []) (List.mem_append_right _ (List.mem_singleton_self _))
      have hhd := headerOf_id [] ⟨hint.1, hint.2.1⟩
      have hframe : frame id [] = headerOf id [] := List.append_nil _
      have htail : mixed [(id, [])] = frame id [] := List.append_nil _
      rw [mixed_controls, List.flatMap_append, List.flatMap_singleton, hrecv, htail,
        ← List.append_assoc] at hstream
      have hfront : before.flatMap (·.recv) ++ bytes = stream ps :=
        List.append_cancel_right hstream
      rw [hframe] at hrecv
      obtain ⟨icbuf, hrec⟩ := received_together hps hmax hlast hp hclean (length_headerOf id [])
        (by rw [hhd]; exact hid) (by rw [hhd]; exact hclient) hrecv hbytes hfront
      obtain ⟨fuel, log, hrun, hds⟩ := (received_iff wf_empty).mp hrec
      refine ⟨fuel, log, _, hrun, ?_⟩
      rw [hds]
      exact (routed_callbackOf c.recv hid hclient).controls_append ps

/-! ### Routed messages are orderly -/

/-- The deliveries begin with a call of a client. -/
def Called (ds : List Act) : Prop :=
  ∃ cb flag data param ds', ds = .dataCallback cb flag data param :: ds'

theorem Called.ne_nil {ds : List Act} (h : Called ds) : ds ≠ [] := by
  obtain ⟨cb, flag, data, param, ds', rfl⟩ := h
  exact List.cons_ne_nil _ _

theorem Called.ne_solve {ds ds' : List Act} {q : List UInt8} (h : Called ds) :
    ds ≠ .solve q :: ds' := by
  obtain ⟨cb, flag, data, param, ds'', rfl⟩ := h
  simp

section Slip
variable {env : Env} {recv hd rest : List UInt8} {after : List Call} {s s' : Loop}
  {ds ds' : List Act} {icbuf : IncompleteBuf}

/-- A chunk of at least a header's size that ends inside the header of a direct message that it
did not begin in: no run comes from there to a call of a client. -/
theorem not_called_of_cut (hfill : msgSize ≤ recv.length) (hic : s.icbuf = {})
    (hstream : recv.drop s.offset ++ after.flatMap (·.recv) = hd ++ rest)
    (hlen : hd.length = msgSize) (hlt : s.offset < recv.length)
    (hslip : recv.length - s.offset < msgSize) (hcalls : ∀ c ∈ after, c.recv ≠ [])
    (hturns : Turns env recv s ds s') (hrest : Received env s'.icbuf after ds' icbuf) :
    ¬ Called (ds ++ ds') := by
  intro hcalled
  have hwf : Wf s.icbuf := hic ▸ wf_empty
  have hfilled := filled_of_slip hic hstream hlen (Nat.le_of_lt hlt) hslip
  have hfull := length_cutOff hlen hslip
  have hend : recv.length ≤ headEnd s := by
    rw [headEnd, hic]
    show recv.length ≤ s.offset + msgSize
    omega
  cases hturns with
  | stop hend' => exact absurd hlt (Nat.not_lt_of_le hend')
  | step _ hturn hturns =>
      by_cases hid : toInt (ofBE ((cutOff hd (recv.length - s.offset)).take 4)) = 0
      · -- a control message: what is delivered next goes to `solve`
        have hfill' : msgSize - s.icbuf.head.length ≤ recv.length := by
          rw [hic]
          exact hfill
        obtain ⟨-, -, -, ⟨rfl, hhd, -⟩ | ⟨q, rfl, -⟩⟩ := hturn.first hwf hfill' hfilled hid
        · rcases hturns.first_of_complete (hturn.wf hwf) hhd hfull hid with
            ⟨rfl, hhd'⟩ | ⟨q, ds₂, rfl, -⟩
          · rcases hrest.first_of_complete (hturns.wf (hturn.wf hwf)) hhd' hfull hid with
              ⟨rfl, -⟩ | ⟨q, ds₂, rfl, -⟩
            · exact hcalled.ne_nil rfl
            · exact hcalled.ne_solve rfl
          · exact hcalled.ne_solve rfl
        · exact hcalled.ne_solve rfl
      · -- a direct message: the bytes that are still to come are never taken
        have hafter : after ≠ [] := by
          rintro rfl
          have := congrArg List.length hstream
          rw [List.flatMap_nil, List.append_nil, List.length_drop, List.length_append] at this
          omega
        rw [← hfilled] at hid
        cases hturn with
        | short hshort =>
            rw [hic] at hshort
            exact absurd hfill (Nat.not_le_of_lt hshort)
        | pending _ _ hid' => exact hid hid'
        | complete _ _ hid' => exact hid hid'
        | direct =>
            obtain ⟨rfl, rfl⟩ := hturns.of_ge hend
            exact hafter (hrest.nil_of_direct hcalls (by rw [hfilled]; exact hfull) hid)

/-- The same for a shorter chunk. -/
theorem not_called_of_shift (hshort : recv.length < msgSize) (hic : s.icbuf = {})
    (hstream : recv.drop s.offset ++ after.flatMap (·.recv) = hd ++ rest)
    (hlen : hd.length = msgSize) (hpos : 0 < s.offset) (hlt : s.offset < recv.length)
    (hcalls : ∀ c ∈ after, c.recv ≠ [])
    (hturns : Turns env recv s ds s') (hrest : Received env s'.icbuf after ds' icbuf) :
    ¬ Called (ds ++ ds') := by
  intro hcalled
  have hmn : recv.length - s.offset + s.offset < msgSize := by omega
  obtain ⟨hhead, hnext⟩ := window_of_slip hshort hstream hlen hlt
  have hfull := length_shifted hlen hmn
  have hno : ¬ msgSize - s.icbuf.head.length ≤ recv.length := by
    rw [hic]
    exact Nat.not_le_of_lt hshort
  cases hturns with
  | stop hend' => exact absurd hlt (Nat.not_lt_of_le hend')
  | step _ hturn hturns =>
      cases hturn with
      | direct _ hfill => exact hno hfill
      | pending _ hfill => exact hno hfill
      | complete _ hfill => exact hno hfill
      | short =>
          obtain ⟨rfl, rfl⟩ := hturns.of_ge (Nat.le_add_left _ _)
          rw [hic, hhead] at hrest
          by_cases hid : toInt (ofBE ((shifted hd (recv.length - s.offset) s.offset).take 4)) = 0
          · -- a control message: what is delivered next goes to `solve`
            obtain ⟨q, ds₂, rfl, -⟩ := hrest.first_of_partial hcalled.ne_nil recv.length _ rfl
              (by omega) hshort hfull hid hnext
            exact hcalled.ne_solve rfl
          · -- a direct message: the bytes of the header that are still to come are never taken
            have htail := (hrest.direct hfull hid rfl hshort hcalls hnext).1
            have := congrArg List.length htail
            rw [List.length_append, List.length_drop, List.length_drop, hlen,
              List.length_nil] at this
            omega

end Slip

/-- A direct message behind the end of the stream inside a chunk: when the run comes to its
client, or its whole header is in the chunk, then the header ends the chunk, and nothing comes
behind it. -/
theorem together_of_received {env : Env} {recv hd rest : List UInt8} {after : List Call}
    {front : Nat} {len : Int} {ds ds' : List Act} {s : Loop} {icbuf : IncompleteBuf}
    (hpos : 0 < front) (hfront : front < recv.length)
    (hstream : recv.drop front ++ after.flatMap (·.recv) = hd ++ rest)
    (hlen : hd.length = msgSize) (hid : toInt (ofBE (hd.take 4)) ≠ 0)
    (hcalls : ∀ c ∈ after, c.recv ≠ []) (hturns : Turns env recv ⟨{}, len, front⟩ ds s)
    (hrest : Received env s.icbuf after ds' icbuf)
    (htold : Called (ds ++ ds') ∨ front + msgSize ≤ recv.length) :
    recv.drop front = hd ∧ rest = [] ∧ after = [] ∧
      ∃ client, lookup env (toInt (ofBE (hd.take 4))) = some client := by
  by_cases hwhole : front + msgSize ≤ recv.length
  · obtain ⟨hwin, hlater⟩ := window_of_append hstream (by rwa [hlen])
    rw [hlen] at hwin
    have hfilled : filled recv ⟨{}, len, front⟩ = hd := hwin
    have hfill : ¬ recv.length < msgSize - ([] : List UInt8).length := by
      rw [List.length_nil]
      omega
    cases hturns with
    | stop hend => exact absurd hfront (Nat.not_lt_of_le hend)
    | step _ hturn hturns =>
        cases hturn with
        | short hshort => exact absurd hshort hfill
        | pending _ _ hid' => exact absurd (hfilled ▸ hid') hid
        | complete _ _ hid' => exact absurd (hfilled ▸ hid') hid
        | direct client _ _ _ hclient =>
            rw [hfilled] at hturns hclient
            have hge : recv.length ≤ front + msgSize := hturns.not_of_direct hlen hid
            obtain ⟨rfl, rfl⟩ := hturns.of_ge hge
            obtain rfl := hrest.nil_of_direct hcalls hlen hid
            rw [List.flatMap_nil, List.append_nil] at hstream hlater
            have hnil : rest = [] := by
              rw [← hlater, List.drop_eq_nil_iff, hlen]
              exact hge
            rw [hnil, List.append_nil] at hstream
            exact ⟨hstream, hnil, rfl, client, hclient⟩
  · exfalso
    have hcalled := htold.resolve_right hwhole
    by_cases hfill : msgSize ≤ recv.length
    · have hslip : recv.length - front < msgSize := by omega
      exact not_called_of_cut hfill rfl hstream hlen hfront hslip hcalls hturns hrest hcalled
    · exact not_called_of_shift (Nat.lt_of_not_le hfill) rfl hstream hlen hpos hfront hcalls hturns
        hrest hcalled

/-- The list begins with control messages, and is at its end or goes on with a direct one. -/
theorem eq_controls (msgs : List (Int × List UInt8)) :
    ∃ ps, msgs = controls ps ∨
      ∃ id p msgs', id ≠ 0 ∧ msgs = controls ps ++ (id, p) :: msgs' := by
  induction msgs with
  | nil => exact ⟨[], .inl rfl⟩
  | cons m msgs ih =>
      obtain ⟨id, p⟩ := m
      by_cases hid : id = 0
      · subst hid
        obtain ⟨ps, rfl | ⟨id, q, msgs', hid, rfl⟩⟩ := ih
        · exact ⟨p :: ps, .inl rfl⟩
        · exact ⟨p :: ps, .inr ⟨id, q, msgs', hid, rfl⟩⟩
      · exact ⟨[], .inr ⟨id, p, msgs, hid, rfl⟩⟩

/-- Control messages in front are handed over in front. -/
theorem Routed.of_controls_append {env : Env} {ps : List (List UInt8)}
    {msgs : List (Int × List UInt8)} {ds : List Act} (h : Routed env (controls ps ++ msgs) ds) :
    ∃ ds', ds = ps.map .solve ++ ds' ∧ Routed env msgs ds' := by
  induction ps generalizing ds with
  | nil => exact ⟨ds, rfl, h⟩
  | cons p ps ih =>
      generalize hmsgs : controls (p :: ps) ++ msgs = all at h
      cases h with
      | nil => exact absurd hmsgs (List.cons_ne_nil _ _)
      | control q _ ds hrest =>
          obtain ⟨hhead, rfl⟩ := List.cons.inj hmsgs
          obtain rfl := (Prod.mk.inj hhead).2
          obtain ⟨ds', rfl, hrest'⟩ := ih hrest
          exact ⟨ds', rfl, hrest'⟩
      | client id _ _ _ _ _ _ hid =>
          exact absurd (Prod.mk.inj (List.cons.inj hmsgs).1).1.symm hid
      | nobody id _ _ _ hid => exact absurd (Prod.mk.inj (List.cons.inj hmsgs).1).1.symm hid

/-- A header that begins `n` bytes into the stream is cut by no chunk that began before it. -/
def HeaderWhole (n : Nat) (calls : List Call) : Prop :=
  ∀ before c after, calls = before ++ c :: after → (before.flatMap (·.recv)).length < n →
    n < (before.flatMap (·.recv)).length + c.recv.length →
    n + msgSize ≤ (before.flatMap (·.recv)).length + c.recv.length

/-- Messages and chunks for which the deliveries show how the stream was read. Otherwise bytes of
one message may make up for bytes of another: the header of an empty message is made of zeros,
like what stands behind a chunk, and a direct message without a callback leaves no trace. -/
structure Telling (env : Env) (msgs : List (Int × List UInt8)) (calls : List Call) : Prop where
  /-- No control message is empty. -/
  filled : ∀ p, (0, p) ∈ msgs → p ≠ []
  /-- Before a direct message, no control message has a length whose last byte is a zero, -/
  odd : ∀ ps id p msgs', msgs = controls ps ++ (id, p) :: msgs' → id ≠ 0 →
    ∀ q ∈ ps, q.length % 256 ≠ 0
  /-- and the first direct message has a callback, or no chunk cuts its header that began before
  it. -/
  told : ∀ ps id p msgs', msgs = controls ps ++ (id, p) :: msgs' → id ≠ 0 →
    (lookup env id).bind (·.dataCallback_) ≠ none ∨ HeaderWhole (stream ps).length calls

/-- What the first direct message has to show. -/
theorem Routed.called {env : Env} {id : Int} {p : List UInt8} {msgs : List (Int × List UInt8)}
    {ds : List Act} (h : Routed env ((id, p) :: msgs) ds) (hid : id ≠ 0)
    (hcb : (lookup env id).bind (·.dataCallback_) ≠ none) : Called ds := by
  cases h with
  | control => exact absurd rfl hid
  | client _ _ _ ds client cb data => exact ⟨cb, _, data, _, ds, rfl⟩
  | nobody _ _ _ _ _ hnone => exact absurd hnone hcb

/-- Routed messages are orderly, as far as the deliveries show how the stream was read. -/
theorem Routes.orderly {env : Env} {msgs : List (Int × List UInt8)} {calls : List Call}
    (h : Routes env msgs calls) (hmsgs : Messages msgs) (htelling : Telling env msgs calls)
    (hcalls : ∀ c ∈ calls, c.recv ≠ [] ∧ c.recv.length ≤ MAXLINE)
    (hstream : calls.flatMap (·.recv) = mixed msgs) : Orderly env msgs calls := by
  obtain ⟨fuel, log, icbuf, hrun, hrouted⟩ := h
  have hrec := (received_iff wf_empty).mpr ⟨fuel, log, hrun, rfl⟩
  generalize deliveries log = ds at hrouted hrec
  have hholds : ∀ ps, Holds (.inside 0) ps {} := at_empty
  -- the control messages in front are payloads of the framing law
  have hpayloads : ∀ ps msgs', msgs = controls ps ++ msgs' → Payloads ps := by
    rintro ps msgs' rfl p hp
    have hmem : ((0 : Int), p) ∈ controls ps ++ msgs' :=
      List.mem_append_left _ (List.mem_map.mpr ⟨p, hp, rfl⟩)
    obtain ⟨ds', rfl, -⟩ := hrouted.of_controls_append
    exact ⟨htelling.filled p hmem,
      hrec.zero_not_mem (List.mem_append_left _ (List.mem_map.mpr ⟨p, hp, rfl⟩)),
      (hmsgs _ hmem).2.2⟩
  obtain ⟨ps, rfl | ⟨id, p, msgs', hid, rfl⟩⟩ := eq_controls msgs
  · have hps := hpayloads ps [] (List.append_nil _).symm
    rw [← List.append_nil (controls ps)] at hrouted hstream
    obtain ⟨ds', rfl, hnil⟩ := hrouted.of_controls_append
    cases hnil
    rw [List.append_nil] at hrec
    rw [mixed_controls] at hstream
    exact .alone ps calls hps.texts
      (hrec.clean (hholds ps) hps hcalls (hstream.trans (List.append_nil _)))
  · have hps := hpayloads ps _ rfl
    have hodd := htelling.odd ps id p msgs' rfl hid
    have htold := htelling.told ps id p msgs' rfl hid
    obtain ⟨ds', rfl, hrouted'⟩ := hrouted.of_controls_append
    have hint := hmsgs (id, p) (List.mem_append_right _ (List.mem_cons_self ..))
    have hhd := headerOf_id p ⟨hint.1, hint.2.1⟩
    have hid' : toInt (ofBE ((headerOf id p).take 4)) ≠ 0 := by
      rw [hhd]
      exact hid
    rw [mixed_controls, mixed_cons] at hstream
    -- a message without anything behind its header is the last one
    have hlast : p ++ mixed msgs' = [] → p = [] ∧ msgs' = [] := by
      intro hnil
      obtain ⟨rfl, hmixed⟩ := List.append_eq_nil_iff.mp hnil
      refine ⟨rfl, ?_⟩
      cases msgs' with
      | nil => rfl
      | cons m msgs' =>
          have := congrArg List.length hmixed
          rw [mixed_cons, List.length_append, length_headerOf, List.length_nil] at this
          simp only [msgSize] at this
          omega
    cases hrec.behind (hholds ps) hps hcalls hstream rfl (.inr hodd) with
    | between before after _ hclean htail hrest =>
        have hafter := fun c hc => (hcalls c (List.mem_append_right before hc)).1
        obtain ⟨hnil, ⟨client, hclient⟩, hlens⟩ := hrest.direct (length_headerOf id p) hid'
          (j := 0) rfl (by decide) hafter htail
        obtain ⟨rfl, rfl⟩ := hlast hnil
        rw [hhd] at hclient
        exact .apart ps id client before after hps.texts hclean hid hclient
          (htail.trans (by rw [hnil]; rfl)) hlens
    | inside before after c front len ds ds₂ q s icbuf' hpos hfront hclean htail hturns hrest
        hmore hq hlen =>
        subst hmore
        have hafter := fun c' hc' =>
          (hcalls c' (List.mem_append_right before (List.mem_cons_of_mem c hc'))).1
        have htold' : Called (ds ++ ds₂) ∨ front + msgSize ≤ c.recv.length := by
          refine htold.imp (hrouted'.called hid) fun hwhole => ?_
          have hbytes : (before.flatMap (·.recv)).length + front = (stream ps).length := by
            have := congrArg List.length hstream
            rw [List.flatMap_append, List.flatMap_cons, ← htail] at this
            simp only [List.length_append, List.length_drop] at this
            omega
          have := hwhole before c after rfl (by omega) (by omega)
          omega
        obtain ⟨hdrop, hnil, rfl, client, hclient⟩ := together_of_received hpos hfront htail
          (length_headerOf id p) hid' hafter hturns hrest htold'
        obtain ⟨rfl, rfl⟩ := hlast hnil
        rw [hhd] at hclient
        have hrecv : c.recv = c.recv.take front ++ frame id [] := by
          conv_lhs => rw [← List.take_append_drop front c.recv, hdrop]
          exact congrArg _ (List.append_nil _).symm
        have hfront' : c.recv.take front ≠ [] := by
          rw [← List.length_pos_iff, List.length_take]
          omega
        exact .together ps q id client before c _ hps.texts hq
          (hps q (List.mem_of_getLast? hq)).1 hclean hid hclient hrecv hfront'

/-! ### When messages are routed -/

/-- The routing law: orderly messages are routed, and messages that are routed are orderly where
the deliveries show how the stream was read. -/
theorem routing {env : Env} {msgs : List (Int × List UInt8)} {calls : List Call}
    (hmsgs : Messages msgs) (hcalls : ∀ c ∈ calls, c.recv ≠ [] ∧ c.recv.length ≤ MAXLINE)
    (hstream : calls.flatMap (·.recv) = mixed msgs) :
    (Orderly env msgs calls → Routes env msgs calls) ∧
      (Telling env msgs calls → (Routes env msgs calls ↔ Orderly env msgs calls)) :=
  ⟨fun h => h.routes hmsgs hcalls hstream, fun htelling =>
    ⟨fun h => h.orderly hmsgs htelling hcalls hstream, fun h => h.routes hmsgs hcalls hstream⟩⟩

/-- One client, registered under the id 1. -/
def pingEnv : Env :=
  { connMp_ := fun _ => some fun id => if id = 1 then some ⟨some 9, 3⟩ else none
    conn := 0
    slack := fun _ => true }

/-- A control message and a direct one without a payload, in one chunk. -/
theorem routing_ping :
    Routes pingEnv [(0, hello), (1, [])]
      [{ recv := frame 0 hello ++ frame 1 [], len0 := 5 }] := by
  refine (@routing pingEnv [(0, hello), (1, [])]
    [{ recv := frame 0 hello ++ frame 1 [], len0 := 5 }] (by decide) (by decide)
    (by decide)).1 ?_
  exact .together [hello] hello 1 ⟨some 9, 3⟩ [] _ (frame 0 hello) (by decide) rfl (by decide)
    (.cons 0 _ (.inside 0) [] _ [] (.whole 0 0 hello [] _ _ (by decide) rfl (.edge [])) .nil)
    (by decide) rfl rfl (by decide)

/-- A direct message with the payload `"hi"`, in one chunk: the call never returns. -/
theorem ping_not_routed :
    Messages [(1, [104, 105])] ∧
    ¬ Routes pingEnv [(1, [104, 105])] [{ recv := frame 1 [104, 105], len0 := 5 }] := by
  refine ⟨by decide, ?_⟩
  rintro ⟨fuel, log, icbuf, hrun, -⟩
  have hrec := (received_iff wf_empty).mpr ⟨fuel, log, hrun, rfl⟩
  have htail := @Received.direct pingEnv _ _ _ _ (headerOf 1 [104, 105]) [104, 105] hrec
    (by decide) (by decide) 0 rfl (by decide) (by decide) (by decide)
  exact absurd htail.1 (by decide)

end Ndsl.Proofs.Multiplexer
