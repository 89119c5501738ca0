import Ndsl.Net.Multiplexer

/-!
# `Ndsl.Proofs.Multiplexer.Turn`: one iteration of the dispatch loop

`Wf` is the invariant of an `incompleteBuf`: a header that is not complete comes without a
payload block, a complete one of a control message comes with a block of the announced size
that still holds a zero. `Turn` lists what one iteration can do from such a state, and
`body_turn` and `Turn.body` say that the list is exact. The proofs about `dispatch` are
about `Turn`.
-/

set_option autoImplicit false

namespace Ndsl.Proofs.Multiplexer

open Ndsl.Lib
open Ndsl.Net (MAXLINE toInt toSize toInt_of_lt toSize_of_nonneg toSize_of_neg)
open Ndsl.Net.Multiplexer

/-! ### Reading a trace -/

/-- The actions by which a message leaves `dispatch`. -/
def isDelivery : Act → Bool
  | .solve _ => true
  | .dataCallback .. => true
  | _ => false

/-- The messages that left `dispatch`, in order. -/
def deliveries (log : List Act) : List Act := log.filter isDelivery

theorem deliveries_append (log es : List Act) :
    deliveries (log ++ es) = deliveries log ++ deliveries es := List.filter_append _ _

/-! ### The state between two iterations -/

/-- The invariant of an `incompleteBuf`. -/
inductive Wf : IncompleteBuf → Prop
  /-- The header is not complete. -/
  | short (head : List UInt8) (hlen : head.length < msgSize) : Wf { head := head }
  /-- The header of a direct message; nothing ever clears it. -/
  | direct (head : List UInt8) (hlen : head.length = msgSize)
      (hid : toInt (ofBE (head.take 4)) ≠ 0) : Wf { head := head }
  /-- The header of a control message whose payload is not complete. -/
  | pending (head block : List UInt8) (hlen : head.length = msgSize)
      (hid : toInt (ofBE (head.take 4)) = 0)
      (hsize : toInt (ofBE (head.drop 4)) = block.length) (hzero : 0 ∈ block) :
      Wf { head := head, buf := some block, bufSize := cstrlen block }

/-- The part of the payload that a state holds. -/
def held (icbuf : IncompleteBuf) : List UInt8 := (icbuf.buf.getD []).take icbuf.bufSize

/-- The header as the iteration begun at `s` fills it. -/
def filled (recv : List UInt8) (s : Loop) : List UInt8 :=
  s.icbuf.head ++ window recv s.offset (msgSize - s.icbuf.head.length)

/-- The offset behind the header. -/
def headEnd (s : Loop) : Nat := s.offset + (msgSize - s.icbuf.head.length)

/-- The payload block of `size` bytes as the iteration begun at `s` fills it. -/
def filledBlock (recv : List UInt8) (s : Loop) (size : Nat) : List UInt8 :=
  held s.icbuf ++ window recv (headEnd s) (size - (held s.icbuf).length)

/-- The offset behind the payload. -/
def blockEnd (s : Loop) (size : Nat) : Nat := headEnd s + (size - (held s.icbuf).length)

/-- The client a direct message goes to. -/
def lookup (env : Env) (id : Int) : Option DTPClient :=
  (env.connMp_ env.conn).bind fun mp => mp id

/-- What the callback of a client is called with. -/
def callbackOf (recv : List UInt8) (client : DTPClient) : List Act :=
  match client.dataCallback_ with
  | none => []
  | some cb => [.dataCallback cb RECVDATAFLAG (window recv msgSize (MAXLINE - msgSize))
      client.dataParam_]

theorem Wf.head_le {icbuf : IncompleteBuf} (h : Wf icbuf) : icbuf.head.length ≤ msgSize := by
  cases h with
  | short head hlen => exact Nat.le_of_lt hlen
  | direct head hlen => exact Nat.le_of_eq hlen
  | pending head block hlen => exact Nat.le_of_eq hlen

theorem Wf.bufSize_eq {icbuf : IncompleteBuf} (h : Wf icbuf) :
    icbuf.bufSize = (held icbuf).length := by
  cases h with
  | short head hlen => rfl
  | direct head hlen => rfl
  | pending head block hlen =>
      show cstrlen block = (block.take (cstrlen block)).length
      rw [List.length_take, Nat.min_eq_left (cstrlen_le_length block)]

/-- What is held is a string. -/
theorem Wf.zero_not_mem_held {icbuf : IncompleteBuf} (h : Wf icbuf) : 0 ∉ held icbuf := by
  cases h with
  | short head hlen => simp [held]
  | direct head hlen => simp [held]
  | pending head block hlen => exact zero_not_mem_cstring block

theorem wf_empty : Wf {} := .short [] (by decide)

/-! ### One iteration -/

/-- One iteration from a state that keeps the invariant: the messages that leave, and the
state it ends in. -/
inductive Turn (env : Env) (recv : List UInt8) (s : Loop) : List Act → Loop → Prop
  /-- The whole chunk is shorter than what the header lacks. -/
  | short (hshort : recv.length < msgSize - s.icbuf.head.length) (hlen : s.len ≠ 0)
      (hmax : s.offset + recv.length ≤ MAXLINE) :
      Turn env recv s []
        { icbuf := { head := s.icbuf.head ++ window recv s.offset recv.length }
          len := s.len
          offset := s.offset + recv.length }
  /-- The header of a direct message. -/
  | direct (client : DTPClient) (hfill : msgSize - s.icbuf.head.length ≤ recv.length)
      (hmax : headEnd s ≤ MAXLINE) (hid : toInt (ofBE ((filled recv s).take 4)) ≠ 0)
      (hclient : lookup env (toInt (ofBE ((filled recv s).take 4))) = some client)
      (hlen : s.len ≠ 0) :
      Turn env recv s (callbackOf recv client)
        { icbuf := { head := filled recv s }, len := s.len, offset := headEnd s }
  /-- A payload that is not complete afterwards. -/
  | pending (size : Nat) (hfill : msgSize - s.icbuf.head.length ≤ recv.length)
      (hid : toInt (ofBE ((filled recv s).take 4)) = 0)
      (hsize : toInt (ofBE ((filled recv s).drop 4)) = size)
      (hmax : blockEnd s size ≤ MAXLINE) (hzero : 0 ∈ filledBlock recv s size) :
      Turn env recv s []
        { icbuf :=
            { head := filled recv s
              buf := some (filledBlock recv s size)
              bufSize := cstrlen (filledBlock recv s size) }
          len := size
          offset := blockEnd s size }
  /-- A payload that is complete afterwards. -/
  | complete (size : Nat) (hfill : msgSize - s.icbuf.head.length ≤ recv.length)
      (hid : toInt (ofBE ((filled recv s).take 4)) = 0)
      (hsize : toInt (ofBE ((filled recv s).drop 4)) = size)
      (hmax : blockEnd s size ≤ MAXLINE) (hzero : 0 ∉ filledBlock recv s size)
      (hslack : env.slack size = true) :
      Turn env recv s [.solve (filledBlock recv s size)]
        { icbuf := {}, len := size, offset := blockEnd s size }

/-! ### The parts of the body -/

theorem fillHead_yields {recv : List UInt8} {s s' : Loop} {es : List Act} :
    (fillHead recv s).Yields es s' ↔
      s.offset + fillSize recv s.icbuf.head ≤ MAXLINE ∧
      es = [.readRecv s.offset (fillSize recv s.icbuf.head),
        .writeHead s.icbuf.head.length (fillSize recv s.icbuf.head)] ∧
      s' = { s with
        icbuf := { s.icbuf with
          head := s.icbuf.head ++ window recv s.offset (fillSize recv s.icbuf.head) }
        offset := s.offset + fillSize recv s.icbuf.head } := by
  unfold fillHead
  rw [Traced.tell_bind_yields]
  split
  · rename_i hmax
    simp [Nat.not_le_of_lt hmax]
  · rename_i hmax
    simp [Nat.le_of_not_lt hmax, eq_comm, and_comm]

theorem strlen_yields {env : Env} {block : List UInt8} {es : List Act} {n : Nat} :
    (strlen env block).Yields es n ↔
      es = [.readString (cstrlen block) block.length] ∧ n = cstrlen block ∧
        (0 ∈ block ∨ env.slack block.length = true) := by
  unfold strlen
  rw [Traced.tell_bind_yields]
  simp only [cstrlen_eq_length_iff]
  by_cases hstop : 0 ∈ block ∨ env.slack block.length = true
  · rw [if_neg (by rintro ⟨hzero, hslack⟩; simp [hzero, hslack] at hstop)]
    simp only [Traced.pure_yields, hstop, and_true]
    constructor
    · rintro ⟨_, ⟨rfl, rfl⟩, rfl⟩
      exact ⟨rfl, rfl⟩
    · rintro ⟨rfl, rfl⟩
      exact ⟨[], ⟨rfl, rfl⟩, rfl⟩
  · rw [if_pos (by simpa using hstop)]
    simp [hstop]

theorem solve_some_yields {env : Env} {block : List UInt8} {es : List Act} {u : Unit} :
    (solve env (some block)).Yields es u ↔
      es = [.readString (cstrlen block) block.length, .solve (cstring block)] ∧
        (0 ∈ block ∨ env.slack block.length = true) := by
  simp only [solve, Traced.bind_yields, strlen_yields, Traced.tell_yields]
  constructor
  · rintro ⟨_, _, _, ⟨rfl, rfl, h⟩, rfl, rfl⟩
    exact ⟨rfl, h⟩
  · rintro ⟨rfl, h⟩
    exact ⟨_, _, _, ⟨rfl, rfl, h⟩, rfl, rfl⟩

theorem direct_yields {env : Env} {recv : List UInt8} {id : Int} {es : List Act} {u : Unit} :
    (direct env recv id).Yields es u ↔
      ∃ client, lookup env id = some client ∧ es = callbackOf recv client := by
  unfold direct lookup
  cases env.connMp_ env.conn with
  | none => simp
  | some mp =>
      cases hid : mp id with
      | none => simp [hid]
      | some client =>
          cases hcb : client.dataCallback_ with
          | none => simp [hid, hcb, callbackOf]
          | some cb => simp [hid, hcb, callbackOf, eq_comm]

/-! ### The whole body -/

theorem fillSize_of_lt {recv head : List UInt8} (h : recv.length < msgSize - head.length) :
    fillSize recv head = recv.length := if_pos h

theorem fillSize_of_le {recv head : List UInt8} (h : msgSize - head.length ≤ recv.length) :
    fillSize recv head = msgSize - head.length := if_neg (Nat.not_lt_of_le h)

theorem length_filled {recv : List UInt8} {s : Loop} (h : s.icbuf.head.length ≤ msgSize) :
    (filled recv s).length = msgSize := by
  rw [filled, List.length_append, length_window]
  omega

/-- A complete header is left as it is. -/
theorem filled_of_eq {recv : List UInt8} {s : Loop} (h : s.icbuf.head.length = msgSize) :
    filled recv s = s.icbuf.head := by
  rw [filled, h, Nat.sub_self, window_zero, List.append_nil]

/-- The announced length of a payload is an `int`. -/
theorem lt_of_toInt_eq {n size : Nat} (h : toInt n = size) : size < 2 ^ 31 := by
  unfold toInt at h
  omega

theorem neg_le_toInt (n : Nat) : -2 ^ 31 ≤ toInt n := by
  unfold toInt
  omega

/-- The state with the header filled. -/
def withHead (recv : List UInt8) (s : Loop) : Loop :=
  { s with icbuf := { s.icbuf with head := filled recv s }, offset := headEnd s }

/-- What `fillBuf` finds when it begins: a payload block of the announced size, with what is
held at its front. -/
theorem Wf.block {recv : List UInt8} {s : Loop} {size : Nat} (hwf : Wf s.icbuf)
    (hsize : toInt (ofBE ((filled recv s).drop 4)) = size) :
    (s.icbuf.buf.getD (List.replicate size 0)).length = size ∧
      (s.icbuf.buf.getD (List.replicate size 0)).take s.icbuf.bufSize = held s.icbuf ∧
      s.icbuf.bufSize ≤ size := by
  generalize hic : s.icbuf = icbuf at hwf
  cases hwf with
  | short head hlen => simp [held]
  | direct head hlen hid' => simp [held]
  | pending head block hlen hid' hsize' hzero =>
      have hhead : filled recv s = head := by
        rw [filled_of_eq (by rw [hic]; exact hlen), hic]
      rw [hhead, hsize'] at hsize
      have hlen' : block.length = size := by exact_mod_cast hsize
      exact ⟨hlen', rfl, hlen' ▸ cstrlen_le_length block⟩

/-- A payload block has the announced size. -/
theorem length_filledBlock {recv : List UInt8} {s : Loop} {size : Nat} (hwf : Wf s.icbuf)
    (hsize : toInt (ofBE ((filled recv s).drop 4)) = size) :
    (filledBlock recv s size).length = size := by
  have hle := (hwf.block hsize).2.2
  rw [hwf.bufSize_eq] at hle
  rw [filledBlock, List.length_append, length_window]
  omega

/-- The copy of a payload part, in terms of what is held. -/
theorem fillBuf_withHead {env : Env} {recv : List UInt8} {s : Loop} {size : Nat}
    (hwf : Wf s.icbuf) (hsize : toInt (ofBE ((filled recv s).drop 4)) = size) :
    fillBuf env recv (withHead recv s) = (do
      .tell [.readRecv (headEnd s) (size - (held s.icbuf).length),
        .writeBuf (held s.icbuf).length (size - (held s.icbuf).length) size]
      if MAXLINE < blockEnd s size then .fault
      else
        let bufSize ← strlen env (filledBlock recv s size)
        return { icbuf :=
                   { head := filled recv s
                     buf := some (filledBlock recv s size)
                     bufSize := bufSize }
                 len := size
                 offset := blockEnd s size }) := by
  obtain ⟨hlen, htake, hle⟩ := hwf.block hsize
  have hbs := hwf.bufSize_eq
  have hmax := lt_of_toInt_eq hsize
  have hic : (withHead recv s).icbuf.len = size := hsize
  have hn : toSize ((size : Int) - (held s.icbuf).length) = size - (held s.icbuf).length := by
    rw [toSize_of_nonneg (by omega) (by omega)]
    omega
  -- what is held stays at the front of the block, and the window goes behind it
  have hover : overwrite (s.icbuf.buf.getD (List.replicate size 0)) (held s.icbuf).length
      (window recv (headEnd s) (size - (held s.icbuf).length)) = filledBlock recv s size := by
    rw [overwrite_of_eq (by rw [length_window, hlen]; omega), filledBlock, ← hbs, htake]
  have hfit : ¬ size < (held s.icbuf).length + (size - (held s.icbuf).length) := by omega
  have hbs' : (withHead recv s).icbuf.bufSize = (held s.icbuf).length := hbs
  have hbuf : (withHead recv s).icbuf.buf = s.icbuf.buf := rfl
  have hoff : (withHead recv s).offset = headEnd s := rfl
  unfold fillBuf
  simp only [hic, hbs', hbuf, hoff, hn, hover, hlen, hfit, Int.toNat_natCast, or_false]
  rfl

/-- There is no payload block while the header is not complete. -/
theorem Wf.of_short {icbuf : IncompleteBuf} (hwf : Wf icbuf)
    (hlen : icbuf.head.length < msgSize) : icbuf = { head := icbuf.head } := by
  cases hwf with
  | short head _ => rfl
  | direct head _ _ => rfl
  | pending head block hlen' => exact absurd hlen' (Nat.ne_of_lt hlen)

/-- There is no payload block for a direct message or an impossible length. -/
theorem Wf.of_direct {recv : List UInt8} {s : Loop} (hwf : Wf s.icbuf)
    (h : toInt (ofBE ((filled recv s).take 4)) ≠ 0 ∨ toInt (ofBE ((filled recv s).drop 4)) < 0) :
    s.icbuf = { head := s.icbuf.head } := by
  generalize hic : s.icbuf = icbuf at hwf
  cases hwf with
  | short head _ => rfl
  | direct head _ _ => rfl
  | pending head block hlen hid hsize =>
      rw [filled_of_eq (by rw [hic]; exact hlen), hic] at h
      rcases h with h | h
      · exact absurd hid h
      · dsimp only at h
        omega

/-- Without a payload block, an iteration ends well only when `len` is not zero. -/
theorem finish_none_yields {env : Env} {head : List UInt8} {len : Int} {offset : Nat}
    {es : List Act} {s' : Loop} :
    (finish env { icbuf := { head := head }, len := len, offset := offset }).Yields es s' ↔
      es = [] ∧ len ≠ 0 ∧ s' = { icbuf := { head := head }, len := len, offset := offset } := by
  unfold finish
  by_cases hlen : len = 0
  · rw [if_pos (by simp [hlen])]
    simp [solve, Traced.bind_yields, hlen]
  · rw [if_neg (by simpa using Ne.symm hlen)]
    simp [hlen, eq_comm]

/-- The end of an iteration that has filled a payload block. -/
theorem finish_some_yields {env : Env} {head block : List UInt8} {offset : Nat} {es : List Act}
    {s' : Loop} (hslack : 0 ∈ block ∨ env.slack block.length = true) :
    let s : Loop :=
      { icbuf := { head := head, buf := some block, bufSize := cstrlen block }
        len := block.length
        offset := offset }
    (finish env s).Yields es s' ↔
      (0 ∈ block ∧ es = [] ∧ s' = s) ∨
      (0 ∉ block ∧ es = [.readString block.length block.length, .solve block] ∧
        s' = { s with icbuf := {} }) := by
  intro s
  unfold finish
  by_cases hzero : 0 ∈ block
  · have hne : cstrlen block ≠ block.length := fun h => (cstrlen_eq_length_iff block).mp h hzero
    have hne' : ((cstrlen block : Nat) : Int) ≠ block.length := by exact_mod_cast hne
    rw [if_neg hne']
    simp [hzero, eq_comm]
  · have heq : cstrlen block = block.length := cstrlen_of_not_mem hzero
    have hstr : cstring block = block := by rw [cstring, heq, List.take_length]
    rw [if_pos (by simp [s, heq])]
    simp only [s, Traced.bind_yields, solve_some_yields, Traced.pure_yields, hstr, heq]
    constructor
    · rintro ⟨_, _, _, ⟨rfl, -⟩, ⟨rfl, rfl⟩, rfl⟩
      exact .inr ⟨hzero, rfl, rfl⟩
    · rintro (⟨hzero', -⟩ | ⟨-, rfl, rfl⟩)
      · exact absurd hzero' hzero
      · exact ⟨_, (), [], ⟨rfl, hslack⟩, ⟨rfl, rfl⟩, rfl⟩

/-- The iteration whose chunk is shorter than what the header lacks. -/
theorem body_short_yields {env : Env} {recv : List UInt8} {s s' : Loop} {es : List Act}
    (hwf : Wf s.icbuf) (hshort : recv.length < msgSize - s.icbuf.head.length) :
    (body env recv s).Yields es s' ↔
      s.offset + recv.length ≤ MAXLINE ∧ s.len ≠ 0 ∧
      es = [.readRecv s.offset recv.length, .writeHead s.icbuf.head.length recv.length] ∧
      s' = { icbuf := { head := s.icbuf.head ++ window recv s.offset recv.length }
             len := s.len
             offset := s.offset + recv.length } := by
  have hic := hwf.of_short (by omega)
  have hlen : (s.icbuf.head ++ window recv s.offset recv.length).length ≠ msgSize := by
    rw [List.length_append, length_window]
    omega
  -- the header is not complete, so no payload is looked at
  have hdata : fillData env recv
      { icbuf := { head := s.icbuf.head ++ window recv s.offset recv.length }
        len := s.len
        offset := s.offset + recv.length }
      = pure { icbuf := { head := s.icbuf.head ++ window recv s.offset recv.length }
               len := s.len
               offset := s.offset + recv.length } := if_neg hlen
  unfold body
  simp only [Traced.bind_yields, fillHead_yields, fillSize_of_lt hshort]
  constructor
  · rintro ⟨_, _, _, ⟨hmax, rfl, rfl⟩, ⟨_, _, _, hd, hfin, rfl⟩, rfl⟩
    rw [hic] at hd
    rw [hdata, Traced.pure_yields] at hd
    obtain ⟨rfl, rfl⟩ := hd
    rw [finish_none_yields] at hfin
    obtain ⟨rfl, hlen, rfl⟩ := hfin
    exact ⟨hmax, hlen, rfl, rfl⟩
  · rintro ⟨hmax, hlen, rfl, rfl⟩
    refine ⟨_, _, _, ⟨hmax, rfl, rfl⟩,
      ⟨[], _, [], ?_, finish_none_yields.mpr ⟨rfl, hlen, rfl⟩, rfl⟩, rfl⟩
    rw [hic, hdata, Traced.pure_yields]
    exact ⟨rfl, rfl⟩

/-- The two accesses by which an iteration completes the header. -/
def headActs (s : Loop) : List Act :=
  [.readRecv s.offset (msgSize - s.icbuf.head.length),
    .writeHead s.icbuf.head.length (msgSize - s.icbuf.head.length)]

/-- What follows a complete header. -/
theorem fillData_withHead {env : Env} {recv : List UInt8} {s : Loop} (hwf : Wf s.icbuf) :
    fillData env recv (withHead recv s)
      = if toInt (ofBE ((filled recv s).take 4)) ≠ 0 then do
          direct env recv (toInt (ofBE ((filled recv s).take 4)))
          return withHead recv s
        else fillBuf env recv (withHead recv s) := if_pos (length_filled hwf.head_le)

/-- An iteration that completes the header goes on with the payload. -/
theorem body_filled_yields {env : Env} {recv : List UInt8} {s s' : Loop} {es : List Act}
    (hwf : Wf s.icbuf) (hfill : msgSize - s.icbuf.head.length ≤ recv.length) :
    (body env recv s).Yields es s' ↔
      headEnd s ≤ MAXLINE ∧ ∃ es₂ s₂ es₃,
        (if toInt (ofBE ((filled recv s).take 4)) ≠ 0 then do
            direct env recv (toInt (ofBE ((filled recv s).take 4)))
            return withHead recv s
          else fillBuf env recv (withHead recv s)).Yields es₂ s₂ ∧
        (finish env s₂).Yields es₃ s' ∧ es = headActs s ++ (es₂ ++ es₃) := by
  unfold body
  simp only [Traced.bind_yields, fillHead_yields, fillSize_of_le hfill, ← fillData_withHead hwf]
  constructor
  · rintro ⟨_, _, _, ⟨hmax, rfl, rfl⟩, ⟨es₂, s₂, es₃, hd, hfin, rfl⟩, rfl⟩
    exact ⟨hmax, es₂, s₂, es₃, hd, hfin, rfl⟩
  · rintro ⟨hmax, es₂, s₂, es₃, hd, hfin, rfl⟩
    exact ⟨_, _, _, ⟨hmax, rfl, rfl⟩, ⟨es₂, s₂, es₃, hd, hfin, rfl⟩, rfl⟩

/-- The iteration that completes the header of a direct message, or finds it complete. -/
theorem body_direct_yields {env : Env} {recv : List UInt8} {s s' : Loop} {es : List Act}
    (hwf : Wf s.icbuf) (hfill : msgSize - s.icbuf.head.length ≤ recv.length)
    (hid : toInt (ofBE ((filled recv s).take 4)) ≠ 0) :
    (body env recv s).Yields es s' ↔
      headEnd s ≤ MAXLINE ∧ s.len ≠ 0 ∧ ∃ client,
        lookup env (toInt (ofBE ((filled recv s).take 4))) = some client ∧
        es = headActs s ++ callbackOf recv client ∧
        s' = { icbuf := { head := filled recv s }, len := s.len, offset := headEnd s } := by
  have hhead : withHead recv s
      = { icbuf := { head := filled recv s }, len := s.len, offset := headEnd s } := by
    rw [withHead, hwf.of_direct (.inl hid)]
  rw [body_filled_yields hwf hfill]
  simp only [if_pos hid, hhead, Traced.bind_yields, direct_yields, Traced.pure_yields]
  constructor
  · rintro ⟨hmax, _, _, _, ⟨_, _, _, ⟨client, hclient, rfl⟩, ⟨rfl, rfl⟩, rfl⟩, hfin, rfl⟩
    rw [finish_none_yields] at hfin
    obtain ⟨rfl, hlen, rfl⟩ := hfin
    exact ⟨hmax, hlen, client, hclient, by simp, rfl⟩
  · rintro ⟨hmax, hlen, client, hclient, rfl, rfl⟩
    exact ⟨hmax, _, _, [], ⟨_, (), [], ⟨client, hclient, rfl⟩, ⟨rfl, rfl⟩, rfl⟩,
      finish_none_yields.mpr ⟨rfl, hlen, rfl⟩, by simp⟩

/-- The iteration that copies payload bytes. -/
theorem body_control_yields {env : Env} {recv : List UInt8} {s s' : Loop} {es : List Act}
    {size : Nat} (hwf : Wf s.icbuf) (hfill : msgSize - s.icbuf.head.length ≤ recv.length)
    (hid : toInt (ofBE ((filled recv s).take 4)) = 0)
    (hsize : toInt (ofBE ((filled recv s).drop 4)) = size) :
    let n := size - (held s.icbuf).length
    let block := filledBlock recv s size
    let acts := headActs s ++ [.readRecv (headEnd s) n, .writeBuf (held s.icbuf).length n size,
      .readString (cstrlen block) size]
    (body env recv s).Yields es s' ↔
      blockEnd s size ≤ MAXLINE ∧
      ((0 ∈ block ∧ es = acts ∧
        s' = { icbuf := { head := filled recv s, buf := some block, bufSize := cstrlen block }
               len := size
               offset := blockEnd s size }) ∨
      (0 ∉ block ∧ env.slack size = true ∧
        es = acts ++ [.readString size size, .solve block] ∧
        s' = { icbuf := {}, len := size, offset := blockEnd s size })) := by
  intro n block acts
  have hblock : block.length = size := length_filledBlock hwf hsize
  have hid' : ¬ toInt (ofBE ((filled recv s).take 4)) ≠ 0 := not_not.mpr hid
  -- the copy, then the `strlen` of the block, which needs a zero in it or behind it
  have hbuf : ∀ es₂ s₂, (fillBuf env recv (withHead recv s)).Yields es₂ s₂ ↔
      blockEnd s size ≤ MAXLINE ∧ (0 ∈ block ∨ env.slack size = true) ∧
      es₂ = [.readRecv (headEnd s) n, .writeBuf (held s.icbuf).length n size,
        .readString (cstrlen block) size] ∧
      s₂ = { icbuf := { head := filled recv s, buf := some block, bufSize := cstrlen block }
             len := size, offset := blockEnd s size } := by
    intro es₂ s₂
    rw [fillBuf_withHead hwf hsize, Traced.tell_bind_yields]
    by_cases hmax : MAXLINE < blockEnd s size
    · simp [hmax, Nat.not_le_of_lt hmax]
    · rw [if_neg hmax]
      simp only [Traced.bind_yields, strlen_yields, Traced.pure_yields,
        length_filledBlock hwf hsize]
      constructor
      · rintro ⟨_, ⟨_, _, _, ⟨rfl, rfl, hz⟩, ⟨rfl, rfl⟩, rfl⟩, rfl⟩
        exact ⟨Nat.le_of_not_lt hmax, hz, rfl, rfl⟩
      · rintro ⟨-, hz, rfl, rfl⟩
        exact ⟨_, ⟨_, _, _, ⟨rfl, rfl, hz⟩, ⟨rfl, rfl⟩, rfl⟩, rfl⟩
  have hmaxHead : blockEnd s size ≤ MAXLINE → headEnd s ≤ MAXLINE := by
    unfold blockEnd
    omega
  -- whether the block is complete is decided by its first zero
  have hfin : ∀ es₃, (0 ∈ block ∨ env.slack size = true) → _ :=
    fun es₃ h => @finish_some_yields env (filled recv s) block (blockEnd s size) es₃ s'
      (by rwa [hblock])
  rw [hblock] at hfin
  rw [body_filled_yields hwf hfill]
  simp only [if_neg hid', hbuf]
  constructor
  · rintro ⟨-, _, _, es₃, ⟨hmax, hslack, rfl, rfl⟩, hend, rfl⟩
    refine ⟨hmax, ?_⟩
    rcases (hfin es₃ hslack).mp hend with ⟨hzero, rfl, rfl⟩ | ⟨hzero, rfl, rfl⟩
    · exact .inl ⟨hzero, by simp [acts], rfl⟩
    · exact .inr ⟨hzero, hslack.resolve_left hzero, by simp [acts], rfl⟩
  · rintro ⟨hmax, ⟨hzero, rfl, rfl⟩ | ⟨hzero, hslack, rfl, rfl⟩⟩
    · exact ⟨hmaxHead hmax, _, _, [], ⟨hmax, .inl hzero, rfl, rfl⟩,
        (hfin [] (.inl hzero)).mpr (.inl ⟨hzero, rfl, rfl⟩), by simp [acts]⟩
    · exact ⟨hmaxHead hmax, _, _, _, ⟨hmax, .inr hslack, rfl, rfl⟩,
        (hfin _ (.inr hslack)).mpr (.inr ⟨hzero, rfl, rfl⟩), by simp [acts]⟩

/-- A payload of negative length is copied with a size that no buffer has. -/
theorem body_negative {env : Env} {recv : List UInt8} {s s' : Loop} {es : List Act}
    (hwf : Wf s.icbuf) (hfill : msgSize - s.icbuf.head.length ≤ recv.length)
    (hid : toInt (ofBE ((filled recv s).take 4)) = 0)
    (hsize : toInt (ofBE ((filled recv s).drop 4)) < 0) : ¬ (body env recv s).Yields es s' := by
  rw [body_filled_yields hwf hfill]
  rintro ⟨-, es₂, s₂, es₃, hbuf, -, -⟩
  rw [if_neg (not_not.mpr hid)] at hbuf
  have hhuge : MAXLINE < (withHead recv s).offset
      + toSize ((withHead recv s).icbuf.len - (withHead recv s).icbuf.bufSize) := by
    have hneg := neg_le_toInt (ofBE ((filled recv s).drop 4))
    have hlen : (withHead recv s).icbuf.len = toInt (ofBE ((filled recv s).drop 4)) := rfl
    have hbs : (withHead recv s).icbuf.bufSize = 0 := by
      rw [withHead, hwf.of_direct (.inr hsize)]
    rw [hlen, hbs]
    refine Nat.lt_of_lt_of_le ?_ (Nat.le_trans (toSize_of_neg ?_ ?_) (Nat.le_add_left _ _))
    · decide
    · omega
    · omega
  unfold fillBuf at hbuf
  rw [Traced.tell_bind_yields] at hbuf
  obtain ⟨gs, hbuf, -⟩ := hbuf
  rw [if_pos (.inl hhuge)] at hbuf
  exact Traced.fault_yields _ _ hbuf

/-- Everything an iteration can do is a `Turn`. -/
theorem body_turn {env : Env} {recv : List UInt8} {s s' : Loop} {es : List Act}
    (hwf : Wf s.icbuf) (h : (body env recv s).Yields es s') :
    Turn env recv s (deliveries es) s' := by
  by_cases hfill : recv.length < msgSize - s.icbuf.head.length
  · rw [body_short_yields hwf hfill] at h
    obtain ⟨hmax, hlen, rfl, rfl⟩ := h
    exact .short hfill hlen hmax
  · rw [Nat.not_lt] at hfill
    by_cases hid : toInt (ofBE ((filled recv s).take 4)) = 0
    · rcases Int.lt_or_le (toInt (ofBE ((filled recv s).drop 4))) 0 with hneg | hpos
      · exact absurd h (body_negative hwf hfill hid hneg)
      · obtain ⟨size, hsize⟩ := Int.eq_ofNat_of_zero_le hpos
        obtain ⟨hmax, ⟨hzero, rfl, rfl⟩ | ⟨hzero, hslack, rfl, rfl⟩⟩ :=
          (body_control_yields hwf hfill hid hsize).mp h
        · exact .pending size hfill hid hsize hmax hzero
        · exact .complete size hfill hid hsize hmax hzero hslack
    · rw [body_direct_yields hwf hfill hid] at h
      obtain ⟨hmax, hlen, client, hclient, rfl, rfl⟩ := h
      have hcb : deliveries (headActs s ++ callbackOf recv client) = callbackOf recv client := by
        unfold callbackOf
        split <;> rfl
      rw [hcb]
      exact .direct client hfill hmax hid hclient hlen

/-- Every `Turn` is an iteration. -/
theorem Turn.body {env : Env} {recv : List UInt8} {s s' : Loop} {ds : List Act}
    (hwf : Wf s.icbuf) (h : Turn env recv s ds s') :
    ∃ es, (body env recv s).Yields es s' ∧ deliveries es = ds := by
  cases h with
  | short hshort hlen hmax =>
      exact ⟨_, (body_short_yields hwf hshort).mpr ⟨hmax, hlen, rfl, rfl⟩, rfl⟩
  | direct client hfill hmax hid hclient hlen =>
      refine ⟨_, (body_direct_yields hwf hfill hid).mpr ⟨hmax, hlen, client, hclient, rfl, rfl⟩, ?_⟩
      unfold callbackOf
      split <;> rfl
  | pending size hfill hid hsize hmax hzero =>
      exact ⟨_, (body_control_yields hwf hfill hid hsize).mpr ⟨hmax, .inl ⟨hzero, rfl, rfl⟩⟩, rfl⟩
  | complete size hfill hid hsize hmax hzero hslack =>
      exact ⟨_, (body_control_yields hwf hfill hid hsize).mpr
        ⟨hmax, .inr ⟨hzero, hslack, rfl, rfl⟩⟩, rfl⟩

/-- An iteration keeps the invariant. -/
theorem Turn.wf {env : Env} {recv : List UInt8} {s s' : Loop} {ds : List Act}
    (hwf : Wf s.icbuf) (h : Turn env recv s ds s') : Wf s'.icbuf := by
  have hlen := @length_filled recv s hwf.head_le
  cases h with
  | short hshort _ _ =>
      refine .short _ ?_
      rw [List.length_append, length_window]
      omega
  | direct client _ _ hid _ _ => exact .direct _ hlen hid
  | pending size _ hid hsize _ hzero =>
      exact .pending _ _ hlen hid (by rw [hsize, length_filledBlock hwf hsize]) hzero
  | complete => exact wf_empty

end Ndsl.Proofs.Multiplexer
