import Ndsl.Proofs.Multiplexer.Stream

/-!
# `Ndsl.Proofs.Multiplexer.Cut`: the cuts of a stream that `dispatch` can follow

`Cut` describes one chunk and `Clean` a whole list of calls, by lengths alone. `Clean.received`
is the good half of the framing law: a stream of control messages that is cut this way is
delivered message by message.

The two awkward constructors are about a chunk that ends inside a header. `Cut.head` is a chunk
that begins inside the same header; it ends well unless the uninitialised `len` happens to be
zero. `Cut.early` is a chunk that brings the end of another message first: the header is then
completed with a zero from behind the chunk, one byte early, and only the chunk that brings
nothing but that byte (`Clean.late`) does no harm afterwards.
-/

set_option autoImplicit false

namespace Ndsl.Proofs.Multiplexer

open Ndsl.Lib
open Ndsl.Net (MAXLINE)
open Ndsl.Net.Multiplexer

/-- A place in the stream between two chunks: so many bytes into a frame, or one byte before
the end of a header that `incompleteBuf` holds as complete. -/
inductive Pos
  | inside (k : Nat)
  | early

/-- A chunk of `size` bytes, seen from offset `o` on, where the stream is `k` bytes into the
frame of the first of the payloads. The chunk ends at `pos`, before the last payloads. -/
inductive Cut (env : Env) (size : Nat) (len0 : Int) :
    Nat → Nat → List (List UInt8) → Pos → List (List UInt8) → Prop
  /-- It ends between two frames. -/
  | edge (ps : List (List UInt8)) : Cut env size len0 size 0 ps (.inside 0) ps
  /-- It brings the rest of the frame, and goes on. -/
  | whole (o k : Nat) (p : List UInt8) (ps : List (List UInt8)) (pos : Pos)
      (ps' : List (List UInt8)) (hfit : o + (msgSize + p.length - k) ≤ size)
      (hslack : env.slack p.length = true)
      (hrest : Cut env size len0 (o + (msgSize + p.length - k)) 0 ps pos ps') :
      Cut env size len0 o k (p :: ps) pos ps'
  /-- It ends inside the payload. -/
  | body (o k : Nat) (p : List UInt8) (ps : List (List UInt8)) (hlt : o < size)
      (hready : msgSize ≤ k + (size - o)) (hstop : size < o + (msgSize + p.length - k))
      (hmax : k < msgSize → o + (msgSize - k) + p.length ≤ MAXLINE) :
      Cut env size len0 o k (p :: ps) (.inside (k + (size - o))) (p :: ps)
  /-- It begins and ends inside the header. -/
  | head (k : Nat) (p : List UInt8) (ps : List (List UInt8)) (hstop : k + size < msgSize)
      (hlen : len0 ≠ 0) : Cut env size len0 0 k (p :: ps) (.inside (k + size)) (p :: ps)
  /-- It begins before the header and ends one byte before its end. -/
  | early (o : Nat) (p : List UInt8) (ps : List (List UInt8)) (hne : p ≠ []) (hpos : 0 < o)
      (hstop : o + 7 = size) (hlow : p.length % 256 = 0)
      (hmax : o + msgSize + p.length ≤ MAXLINE) : Cut env size len0 o 0 (p :: ps) .early (p :: ps)

/-- The calls bring the rest of the stream of the payloads, from `pos` on, in chunks that
`dispatch` can follow. -/
inductive Clean (env : Env) : Pos → List (List UInt8) → List Call → Prop
  | nil : Clean env (.inside 0) [] []
  | cons (k : Nat) (ps : List (List UInt8)) (pos : Pos) (ps' : List (List UInt8)) (c : Call)
      (cs : List Call) (hcut : Cut env c.recv.length c.len0 0 k ps pos ps')
      (hrest : Clean env pos ps' cs) : Clean env (.inside k) ps (c :: cs)
  | late (ps : List (List UInt8)) (c : Call) (cs : List Call) (hone : c.recv.length = 1)
      (hrest : Clean env (.inside msgSize) ps cs) : Clean env .early ps (c :: cs)

/-- How many bytes of the stream have been received. -/
def Pos.bytes : Pos → Nat
  | .inside k => k
  | .early => 7

/-- What `incompleteBuf` holds at a place in the stream. -/
def Holds : Pos → List (List UInt8) → IncompleteBuf → Prop
  | .inside k, ps, icbuf => At k ps icbuf
  | .early, ps, icbuf => ∃ p ps', ps = p :: ps' ∧ p.length % 256 = 0 ∧ At msgSize ps icbuf

theorem Holds.wf {pos : Pos} {ps : List (List UInt8)} {icbuf : IncompleteBuf}
    (h : Holds pos ps icbuf) : Wf icbuf := by
  cases pos with
  | inside k => exact At.wf h
  | early =>
      obtain ⟨_, _, _, _, hat⟩ := h
      exact hat.wf

/-- The payloads of the framing law: not empty, without a zero, of a size that is an `int`. -/
def Payloads (ps : List (List UInt8)) : Prop := ∀ p ∈ ps, p ≠ [] ∧ 0 ∉ p ∧ p.length < 2 ^ 31

instance (ps : List (List UInt8)) : Decidable (Payloads ps) :=
  inferInstanceAs (Decidable (∀ p ∈ ps, p ≠ [] ∧ 0 ∉ p ∧ p.length < 2 ^ 31))

theorem Payloads.head {p : List UInt8} {ps : List (List UInt8)} (h : Payloads (p :: ps)) :
    p ≠ [] ∧ 0 ∉ p ∧ p.length < 2 ^ 31 := h p (List.mem_cons_self ..)

theorem Payloads.tail {p : List UInt8} {ps : List (List UInt8)} (h : Payloads (p :: ps)) :
    Payloads ps := fun q hq => h q (List.mem_cons_of_mem p hq)

/-- Payloads that can be handed over: without a zero, of a size that is an `int`. -/
def Texts (ps : List (List UInt8)) : Prop := ∀ p ∈ ps, 0 ∉ p ∧ p.length < 2 ^ 31

instance (ps : List (List UInt8)) : Decidable (Texts ps) :=
  inferInstanceAs (Decidable (∀ p ∈ ps, 0 ∉ p ∧ p.length < 2 ^ 31))

theorem Texts.head {p : List UInt8} {ps : List (List UInt8)} (h : Texts (p :: ps)) :
    0 ∉ p ∧ p.length < 2 ^ 31 := h p (List.mem_cons_self ..)

theorem Texts.tail {p : List UInt8} {ps : List (List UInt8)} (h : Texts (p :: ps)) :
    Texts ps := fun q hq => h q (List.mem_cons_of_mem p hq)

theorem Payloads.texts {ps : List (List UInt8)} (h : Payloads ps) : Texts ps :=
  fun p hp => (h p hp).2

/-- What is held of a block that a payload fills only in part. -/
theorem held_part {head p : List UInt8} (m n : Nat) (hzero : 0 ∉ p) :
    held { head := head, buf := some (p.take m ++ List.replicate n 0),
           bufSize := cstrlen (p.take m ++ List.replicate n 0) } = p.take m := by
  have hz : 0 ∉ p.take m := fun h => hzero (List.mem_of_mem_take h)
  rw [held, Option.getD_some, cstrlen_append hz, cstrlen_replicate_zero, Nat.add_zero,
    List.take_left]

/-- The header that is one byte short is complete when that byte is a zero. -/
theorem header_early {p : List UInt8} (hlow : p.length % 256 = 0) :
    (header p).take 7 ++ [0] = header p := by
  have hbyte : UInt8.ofNat p.length = 0 := by
    apply UInt8.toNat_inj.mp
    rw [UInt8.toNat_ofNat']
    exact hlow
  show be32 0 ++ [_, _, _, 0] = be32 0 ++ [_, _, _, UInt8.ofNat p.length]
  rw [hbyte]

/-- A payload whose header has been accepted fits the receive buffer. -/
theorem At.length_le {k : Nat} {p : List UInt8} {ps : List (List UInt8)}
    {icbuf : IncompleteBuf} (h : At k (p :: ps) icbuf) (hk : msgSize ≤ k) :
    p.length ≤ MAXLINE := by
  cases h with
  | head _ hk' => omega
  | body _ _ _ _ _ _ _ _ hmax => exact hmax

/-! ### One turn at a place in the stream -/

section Turns
variable (env : Env) {recv later tail p : List UInt8} {ps : List (List UInt8)} {s : Loop} {k : Nat}

/-- The turn that completes a payload. -/
theorem At.turn_whole (h : At k (p :: ps) s.icbuf)
    (hstream : recv.drop s.offset ++ later = (stream (p :: ps) ++ tail).drop k)
    (hmax : recv.length ≤ MAXLINE) (hp : 0 ∉ p ∧ p.length < 2 ^ 31)
    (hfit : s.offset + (msgSize + p.length - k) ≤ recv.length)
    (hslack : env.slack p.length = true) :
    Turn env recv s [.solve p] { icbuf := {}, len := p.length, offset := blockEnd s p.length } := by
  have hlt := h.lt
  have hready : msgSize ≤ k + (recv.length - s.offset) := by omega
  obtain ⟨hfill, hhead, -, -, -⟩ := h.ready hstream hready
  obtain ⟨hblock, -⟩ := h.filledBlock_whole hstream hfit
  have hend := h.blockEnd_eq hstream hready
  have hturn : Turn env recv s _ _ := .complete p.length hfill (by rw [hhead, header_id])
    (by rw [hhead, header_len hp.2]) (by omega) (by rw [hblock]; exact hp.1) hslack
  rwa [hblock] at hturn

/-- The turn that brings a part of a payload, and the place it leads to. -/
theorem At.turn_body (h : At k (p :: ps) s.icbuf)
    (hstream : recv.drop s.offset ++ later = (stream (p :: ps) ++ tail).drop k)
    (hp : 0 ∉ p ∧ p.length < 2 ^ 31) (hk : 0 < s.offset → k = 0)
    (hlt : s.offset < recv.length) (hready : msgSize ≤ k + (recv.length - s.offset))
    (hstop : recv.length < s.offset + (msgSize + p.length - k))
    (hmax : k < msgSize → s.offset + (msgSize - k) + p.length ≤ MAXLINE) :
    ∃ s', Turn env recv s [] s' ∧ s'.offset = blockEnd s p.length ∧
      At (k + (recv.length - s.offset)) (p :: ps) s'.icbuf := by
  have hk' := h.lt
  obtain ⟨hfill, hhead, -, -, -⟩ := h.ready hstream hready
  obtain ⟨n, hblock, -⟩ := h.filledBlock_part hstream (Nat.le_of_lt hlt) hready hstop
  have hend := h.blockEnd_eq hstream hready
  have hpmax : p.length ≤ MAXLINE := by
    by_cases hk8 : k < msgSize
    · have := hmax hk8
      omega
    · exact h.length_le (Nat.le_of_not_lt hk8)
  have hbound : blockEnd s p.length ≤ MAXLINE := by
    by_cases hk8 : k < msgSize
    · have := hmax hk8
      omega
    · have hoff : s.offset = 0 := by
        rcases Nat.eq_zero_or_pos s.offset with hzero | hpos
        · exact hzero
        · exact absurd (hk hpos) (by simp only [msgSize] at hk8; omega)
      omega
  have hturn : Turn env recv s [] _ := .pending p.length hfill (by rw [hhead, header_id])
    (by rw [hhead, header_len hp.2]) hbound (by rw [hblock]; simp)
  refine ⟨_, hturn, rfl, ?_⟩
  refine .body p ps _ (hturn.wf h.wf) hready (by omega) hhead ?_ hpmax
  rw [hblock]
  exact held_part _ _ hp.1

/-- The turn that brings a part of a header at the front of a chunk. -/
theorem At.turn_head (h : At k (p :: ps) s.icbuf) (hoff : s.offset = 0)
    (hstream : recv ++ later = (stream (p :: ps) ++ tail).drop k)
    (hstop : k + recv.length < msgSize) (hlen : s.len ≠ 0) :
    ∃ s', Turn env recv s [] s' ∧ s'.offset = recv.length ∧
      At (k + recv.length) (p :: ps) s'.icbuf := by
  have hmsg : msgSize ≤ MAXLINE := by decide
  generalize hic : s.icbuf = icbuf at h
  cases h with
  | body _ _ _ _ hk => omega
  | head _ hk hps =>
      have hlong : msgSize ≤ (stream (p :: ps)).length := by
        rw [stream_cons, List.length_append, length_header]
        omega
      have hlen' : ((stream (p :: ps)).take k).length = k := by
        rw [List.length_take]
        omega
      rw [List.drop_append_of_le_length (by omega)] at hstream
      obtain ⟨hrecv, -⟩ := front_of_append hstream (by rw [List.length_drop]; omega)
      have hwin : window recv s.offset recv.length = recv := by
        rw [hoff, window_of_le (by omega), List.drop_zero, List.take_length]
      have hturn : Turn env recv s [] _ := .short
        (by rw [hic, hlen']; omega) hlen (by omega)
      refine ⟨_, hturn, by rw [hoff, Nat.zero_add], ?_⟩
      rw [hic, hwin]
      have htake : (stream (p :: ps)).take k ++ recv
          = (stream (p :: ps)).take (k + recv.length) := by
        rw [List.take_add, ← hrecv]
      rw [htake]
      exact .head _ hstop (fun hnil => nomatch hnil)

/-- The turn that completes a header with a zero from behind the chunk. -/
theorem turn_early (hic : s.icbuf = {})
    (hstream : recv.drop s.offset ++ later = stream (p :: ps) ++ tail)
    (hp : p ≠ [] ∧ p.length < 2 ^ 31) (hpos : 0 < s.offset)
    (hstop : s.offset + 7 = recv.length) (hlow : p.length % 256 = 0)
    (hmax : s.offset + msgSize + p.length ≤ MAXLINE) :
    ∃ s', Turn env recv s [] s' ∧ recv.length ≤ s'.offset ∧ At msgSize (p :: ps) s'.icbuf := by
  have hmsg : msgSize = 8 := rfl
  have hplen : 0 < p.length := List.length_pos_iff.mpr hp.1
  rw [stream_cons_append] at hstream
  obtain ⟨hwin, -⟩ := window_of_short hstream (by omega) (by rw [length_header]; omega)
  have hhead : filled recv s = header p := by
    have hseven : recv.length - s.offset = 7 := by omega
    have hone : s.offset + (header p).length - recv.length = 1 := by
      rw [length_header]
      omega
    rw [hseven, hone, length_header] at hwin
    rw [filled, hic]
    exact hwin.trans (header_early hlow)
  have hheld : held s.icbuf = [] := by rw [hic]; rfl
  have hend : headEnd s = s.offset + msgSize := by rw [headEnd, hic]; rfl
  have hblock : filledBlock recv s p.length = List.replicate p.length 0 := by
    rw [filledBlock, hheld, hend, window_of_ge _ (by omega)]
    rfl
  have hbound : blockEnd s p.length = s.offset + msgSize + p.length := by
    rw [blockEnd, hheld, hend]
    rfl
  have hwf : Wf s.icbuf := hic ▸ wf_empty
  have hfill : msgSize - s.icbuf.head.length ≤ recv.length := by
    rw [hic]
    show 8 ≤ recv.length
    omega
  have hturn : Turn env recv s [] _ := .pending p.length hfill
    (by rw [hhead, header_id]) (by rw [hhead, header_len hp.2]) (by omega)
    (by rw [hblock]; simp [hp.1])
  refine ⟨_, hturn, by dsimp only; omega, ?_⟩
  refine .body p ps _ (hturn.wf hwf) (Nat.le_refl _) (by omega) hhead ?_ (by omega)
  rw [hblock, Nat.sub_self, List.take_zero]
  exact held_part (p := []) 0 p.length (by simp)

/-- The turn over a chunk that brings only the zero that ended the header before. -/
theorem At.turn_late (h : At msgSize (p :: ps) s.icbuf) (hoff : s.offset = 0)
    (hp : p.length < 2 ^ 31) :
    ∃ s', Turn env [0] s [] s' ∧ 1 ≤ s'.offset ∧ At msgSize (p :: ps) s'.icbuf := by
  have hplen : 0 < p.length := Nat.lt_of_add_lt_add_left h.lt
  generalize hic : s.icbuf = icbuf at h
  have hwf := h.wf
  cases h with
  | head _ hk => omega
  | body _ _ _ _ _ _ hhead hheld hmax =>
      have hfull : filled [0] s = header p := by
        rw [filled_of_eq (by rw [hic, hhead, length_header]), hic, hhead]
      rw [Nat.sub_self, List.take_zero] at hheld
      have hend : headEnd s = 0 := by
        rw [headEnd, hic, hhead, length_header, hoff, Nat.sub_self]
      have hfill : msgSize - s.icbuf.head.length ≤ [(0 : UInt8)].length := by
        rw [hic, hhead, length_header, Nat.sub_self]
        exact Nat.zero_le _
      have hblock : filledBlock [0] s p.length = List.replicate p.length 0 := by
        rw [filledBlock, hic, hheld, hend, List.nil_append, List.length_nil, Nat.sub_zero]
        refine List.ext_getElem (by simp) (fun i h₁ h₂ => ?_)
        rw [getElem_window, List.getElem_replicate, Nat.zero_add]
        cases i <;> rfl
      have hbound : blockEnd s p.length = p.length := by
        rw [blockEnd, hic, hheld, hend]
        simp
      have hturn : Turn env [0] s [] _ := .pending p.length hfill
        (by rw [hfull, header_id]) (by rw [hfull, header_len hp]) (by omega)
        (by rw [hblock]; simp [List.length_pos_iff.mp hplen])
      refine ⟨_, hturn, by dsimp only; omega, ?_⟩
      refine .body p ps _ (hturn.wf (hic ▸ hwf)) (Nat.le_refl _) (by omega) hfull ?_ hmax
      rw [hblock, Nat.sub_self, List.take_zero]
      exact held_part (p := []) 0 p.length (by simp)

end Turns

/-! ### A clean stream is delivered -/

/-- A chunk that brings more than the part of a frame up to its end leaves this much. -/
theorem later_of_short {recv later tail : List UInt8} {ps : List (List UInt8)} {k o : Nat}
    (hstream : recv.drop o ++ later = (stream ps ++ tail).drop k) :
    later = (stream ps ++ tail).drop (k + (recv.length - o)) := by
  have := congrArg (List.drop (recv.length - o)) hstream
  rwa [List.drop_left' List.length_drop, List.drop_drop] at this

/-- One chunk of a clean stream. -/
theorem Cut.turns {env : Env} {recv : List UInt8} {len0 : Int} {o k : Nat}
    {ps ps' : List (List UInt8)} {pos : Pos} (hcut : Cut env recv.length len0 o k ps pos ps')
    (hrecv : recv.length ≤ MAXLINE) :
    ∀ {s : Loop} {later tail : List UInt8}, s.offset = o → At k ps s.icbuf → (0 < o → k = 0) →
      (o = 0 → s.len = len0) → recv.drop o ++ later = (stream ps ++ tail).drop k → Texts ps →
      ∃ s' ds, Turns env recv s (ds.map .solve) s' ∧ ps = ds ++ ps' ∧ Holds pos ps' s'.icbuf ∧
        later = (stream ps' ++ tail).drop pos.bytes := by
  induction hcut with
  | edge ps =>
      -- the chunk is used up, and the call is over
      intro s later tail ho hat _ _ hstream _
      rw [List.drop_length, List.nil_append] at hstream
      exact ⟨s, [], .stop (Nat.le_of_eq ho.symm), rfl, hat, hstream⟩
  | whole o k p ps pos ps' hfit hslack _ ih =>
      -- one turn hands over the payload, and the others follow with an empty buffer
      intro s later tail ho hat _ _ hstream hps
      subst ho
      have hlt := hat.lt
      have hturn := hat.turn_whole env hstream hrecv hps.head hfit hslack
      obtain ⟨-, hlater⟩ := hat.filledBlock_whole hstream hfit
      have hend := hat.blockEnd_eq hstream (by omega)
      rw [hend] at hturn hlater
      obtain ⟨s', ds, hturns, rfl, hholds, hrest⟩ := ih (s := ⟨{}, p.length, _⟩) rfl
        (at_empty ps) (fun _ => rfl) (by omega) hlater hps.tail
      exact ⟨s', p :: ds, .step (by omega) hturn hturns, rfl, hholds, hrest⟩
  | body o k p ps hlt hready hstop hmax =>
      -- one turn takes the rest of the chunk into the block
      intro s later tail ho hat hk _ hstream hps
      subst ho
      obtain ⟨s', hturn, hoff, hat'⟩ :=
        hat.turn_body env hstream hps.head hk hlt hready hstop hmax
      have hend := hat.blockEnd_eq hstream hready
      exact ⟨s', [], .step hlt hturn (.stop (by omega)), rfl, hat', later_of_short hstream⟩
  | head k p ps hstop hlen =>
      intro s later tail ho hat _ hlen0 hstream hps
      rw [List.drop_zero] at hstream
      -- an empty chunk is not looked at
      by_cases hempty : recv.length = 0
      · refine ⟨s, [], .stop (by omega), rfl, ?_, ?_⟩
        · rwa [hempty]
        · rw [List.eq_nil_of_length_eq_zero hempty, List.nil_append] at hstream
          rw [hempty]
          exact hstream
      · obtain ⟨s', hturn, hoff, hat'⟩ :=
          hat.turn_head env ho hstream hstop (by rwa [hlen0 rfl])
        exact ⟨s', [], .step (by omega) hturn (.stop (by omega)), rfl, hat',
          by simpa [Pos.bytes] using @later_of_short recv later _ _ k 0 hstream⟩
  | early o p ps hne hpos hstop hlow hmax =>
      -- the chunk ends with seven bytes of a header, and the eighth is taken from behind it
      intro s later tail ho hat _ _ hstream hps
      subst ho
      obtain ⟨s', hturn, hoff, hat'⟩ :=
        turn_early env hat.eq_empty hstream ⟨hne, hps.head.2⟩ hpos hstop hlow hmax
      refine ⟨s', [], .step (by omega) hturn (.stop hoff), rfl, ⟨p, ps, rfl, hlow, hat'⟩, ?_⟩
      have hseven : recv.length - s.offset = 7 := by omega
      have := later_of_short hstream
      rwa [hseven] at this

/-- A chunk leaves the last payloads. -/
theorem Cut.suffix {env : Env} {size : Nat} {len0 : Int} {o k : Nat}
    {ps ps' : List (List UInt8)} {pos : Pos} (hcut : Cut env size len0 o k ps pos ps') :
    ∃ qs, ps = qs ++ ps' := by
  induction hcut with
  | whole o k p ps pos ps' _ _ _ ih =>
      obtain ⟨qs, rfl⟩ := ih
      exact ⟨p :: qs, rfl⟩
  | edge => exact ⟨[], rfl⟩
  | body => exact ⟨[], rfl⟩
  | head => exact ⟨[], rfl⟩
  | early => exact ⟨[], rfl⟩

/-- The stream from the last byte of a header on, when that byte is a zero. -/
theorem drop_stream_early {p : List UInt8} (ps : List (List UInt8)) (tail : List UInt8)
    (hlow : p.length % 256 = 0) :
    (stream (p :: ps) ++ tail).drop 7 = 0 :: (p ++ (stream ps ++ tail)) := by
  rw [drop_stream_of_le (by decide), ← header_early hlow]
  rfl

/-- The first of the calls that bring a clean stream deliver the first of its payloads, and the
others bring a clean stream again. -/
theorem Clean.received_append {env : Env} {later tail : List UInt8} {before after : List Call} :
    ∀ {pos : Pos} {ps : List (List UInt8)} {icbuf : IncompleteBuf},
      Clean env pos ps (before ++ after) → Holds pos ps icbuf → Texts ps →
      (∀ c ∈ before, c.recv.length ≤ MAXLINE) →
      before.flatMap (·.recv) ++ later = (stream ps ++ tail).drop pos.bytes →
      ∃ pos' ps' icbuf' ds, Received env icbuf before (ds.map .solve) icbuf' ∧ ps = ds ++ ps' ∧
        Clean env pos' ps' after ∧ Holds pos' ps' icbuf' ∧
        later = (stream ps' ++ tail).drop pos'.bytes := by
  induction before with
  | nil =>
      intro pos ps icbuf hclean hholds _ _ hstream
      exact ⟨pos, ps, icbuf, [], .nil, rfl, hclean, hholds, hstream⟩
  | cons c cs ih =>
      intro pos ps icbuf hclean hholds hps hmax hstream
      rw [List.flatMap_cons, List.append_assoc] at hstream
      have hmax' := fun c' hc' => hmax c' (List.mem_cons_of_mem c hc')
      cases hclean with
      | cons k _ pos ps' _ _ hcut hrest =>
          obtain ⟨s, ds, hturns, rfl, hholds', hlater⟩ := hcut.turns
            (hmax c (List.mem_cons_self ..)) (s := ⟨icbuf, c.len0, 0⟩) rfl hholds (by simp)
            (fun _ => rfl) hstream hps
          obtain ⟨pos', ps'', icbuf', ds', hrec, rfl, hclean', hholds'', hlater'⟩ := ih hrest
            hholds' (fun p hp => hps p (List.mem_append_right ds hp)) hmax' hlater
          refine ⟨pos', ps'', icbuf', ds ++ ds', ?_, (List.append_assoc ..).symm, hclean',
            hholds'', hlater'⟩
          rw [List.map_append]
          exact .cons hturns hrec
      | late _ _ _ hone hrest =>
          obtain ⟨p, ps, rfl, hlow, hat⟩ := hholds
          have hzero := drop_stream_early ps tail hlow
          -- the only byte of the chunk is the zero that was made up for
          have hrecv : c.recv = [0] := by
            obtain ⟨b, hb⟩ := List.length_eq_one_iff.mp hone
            rw [hb, Pos.bytes, hzero] at hstream
            rw [hb, (List.cons.inj hstream).1]
          rw [hrecv, Pos.bytes, hzero, List.singleton_append] at hstream
          obtain ⟨s', hturn, hoff, hat'⟩ := hat.turn_late env (s := ⟨icbuf, c.len0, 0⟩) rfl
            hps.head.2
          have hturns : Turns env c.recv ⟨icbuf, c.len0, 0⟩ ([] ++ []) s' := by
            rw [hrecv]
            exact .step (by simp) hturn (.stop hoff)
          have hnext : cs.flatMap (·.recv) ++ later
              = (stream (p :: ps) ++ tail).drop (Pos.inside msgSize).bytes := by
            rw [(List.cons.inj hstream).2, Pos.bytes,
              drop_stream_of_ge (Nat.le_refl _) (by omega)]
            simp
          obtain ⟨pos', ps', icbuf', ds', hrec, heq, hclean', hholds', hlater⟩ :=
            ih hrest hat' hps hmax' hnext
          exact ⟨pos', ps', icbuf', ds', .cons hturns hrec, heq, hclean', hholds', hlater⟩

/-- The calls that bring a clean stream deliver it, and leave nothing behind. -/
theorem Clean.received {env : Env} {pos : Pos} {ps : List (List UInt8)} {calls : List Call}
    {icbuf : IncompleteBuf} (hclean : Clean env pos ps calls) (hholds : Holds pos ps icbuf)
    (hps : Texts ps) (hmax : ∀ c ∈ calls, c.recv.length ≤ MAXLINE)
    (hstream : calls.flatMap (·.recv) = (stream ps).drop pos.bytes) :
    Received env icbuf calls (ps.map .solve) {} := by
  rw [← List.append_nil calls] at hclean
  rw [← List.append_nil (calls.flatMap _), ← List.append_nil (stream ps)] at hstream
  obtain ⟨pos', ps', icbuf', ds, hrec, rfl, hclean', hholds', -⟩ :=
    hclean.received_append hholds hps hmax hstream
  cases hclean' with
  | nil =>
      obtain rfl := At.eq_empty hholds'
      rwa [List.append_nil]

end Ndsl.Proofs.Multiplexer
