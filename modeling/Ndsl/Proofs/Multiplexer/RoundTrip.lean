import Ndsl.Proofs.Multiplexer.Lost
import Mathlib.Tactic.IntervalCases

/-!
# `Ndsl.Proofs.Multiplexer.RoundTrip`: the framing law of control messages

`framing_iff`: the calls that bring the framed payloads deliver each payload once, in order,
and leave `incompleteBuf` empty, exactly when the stream is cut cleanly (`Clean`).
-/

set_option autoImplicit false

namespace Ndsl.Proofs.Multiplexer

open Ndsl.Lib
open Ndsl.Net (MAXLINE toInt toSize eq_of_toInt_eq toInt_of_lt toSize_of_nonneg)
open Ndsl.Net.Multiplexer

/-! ### Headers put together from the wrong bytes -/

/-- The length of a payload that the receive buffer has room for takes two bytes. -/
theorem header_of_le {p : List UInt8} (hmax : p.length ≤ MAXLINE) :
    header p = [0, 0, 0, 0, 0, 0, UInt8.ofNat (p.length / 2 ^ 8), UInt8.ofNat p.length] := by
  unfold MAXLINE at hmax
  have h24 : p.length / 2 ^ 24 = 0 := by omega
  have h16 : p.length / 2 ^ 16 = 0 := by omega
  rw [header, be32, be32, h24, h16]
  rfl

/-- A header whose end is missing and reads as zeros. -/
def cutOff (hd : List UInt8) (m : Nat) : List UInt8 := hd.take m ++ List.replicate (msgSize - m) 0

/-- A header with `n` zeros inserted after its first `m` bytes. -/
def shifted (hd : List UInt8) (m n : Nat) : List UInt8 :=
  hd.take m ++ (List.replicate n 0 ++ (hd.drop m).take (msgSize - (m + n)))

theorem length_cutOff {hd : List UInt8} {m : Nat} (hlen : hd.length = msgSize)
    (hm : m < msgSize) : (cutOff hd m).length = msgSize := by
  simp only [cutOff, List.length_append, List.length_take, List.length_replicate, hlen]
  omega

theorem length_shifted {hd : List UInt8} {m n : Nat} (hlen : hd.length = msgSize)
    (h : m + n < msgSize) : (shifted hd m n).length = msgSize := by
  simp only [shifted, List.length_append, List.length_take, List.length_replicate,
    List.length_drop, hlen]
  omega

section Slip
variable {recv later hd rest : List UInt8} {s : Loop}

/-- A chunk of at least a header's size that ends inside a header it did not begin in: the
header is completed with zeros. -/
theorem filled_of_slip (hic : s.icbuf = {})
    (hstream : recv.drop s.offset ++ later = hd ++ rest) (hlen : hd.length = msgSize)
    (hle : s.offset ≤ recv.length) (hslip : recv.length - s.offset < msgSize) :
    filled recv s = cutOff hd (recv.length - s.offset) := by
  obtain ⟨hwin, -⟩ := window_of_short hstream hle (by omega)
  have hm : s.offset + hd.length - recv.length = msgSize - (recv.length - s.offset) := by omega
  rw [hm, hlen] at hwin
  rw [filled, hic]
  exact hwin

/-- A shorter chunk that ends inside a header it did not begin in: zeros from behind the chunk
go into the header, and the bytes that are still to come go behind them. -/
theorem window_of_slip (hshort : recv.length < msgSize)
    (hstream : recv.drop s.offset ++ later = hd ++ rest) (hlen : hd.length = msgSize)
    (hlt : s.offset < recv.length) :
    window recv s.offset recv.length
        = (shifted hd (recv.length - s.offset) s.offset).take recv.length ∧
      later = (shifted hd (recv.length - s.offset) s.offset).drop recv.length
        ++ ((hd.drop (recv.length - s.offset)).drop (msgSize - recv.length) ++ rest) := by
  have hm : recv.length - s.offset + s.offset = recv.length := by omega
  have hdrop : (recv.drop s.offset).length = recv.length - s.offset := List.length_drop
  -- what the chunk still has is the front of the header, and zeros stand behind it
  obtain ⟨hfront, hlater⟩ := front_of_append hstream (by omega)
  rw [hdrop] at hfront hlater
  have hpre : (hd.take (recv.length - s.offset) ++ List.replicate s.offset 0).length
      = recv.length := by
    rw [List.length_append, List.length_take, List.length_replicate, hlen]
    omega
  have hsplit : shifted hd (recv.length - s.offset) s.offset
      = (hd.take (recv.length - s.offset) ++ List.replicate s.offset 0)
        ++ (hd.drop (recv.length - s.offset)).take (msgSize - recv.length) := by
    rw [shifted, hm, List.append_assoc]
  constructor
  · rw [hsplit, List.take_left' hpre, window_of_lt (by omega) (by omega), hfront,
      Nat.add_sub_cancel]
  · rw [hsplit, List.drop_left' hpre, ← List.append_assoc, List.take_append_drop, hlater]

end Slip

/-- The header of a control message whose end is missing and reads as zeros. -/
def cutHeader (p : List UInt8) (m : Nat) : List UInt8 := cutOff (header p) m

/-- The header of a control message with zeros inserted. -/
def shiftHeader (p : List UInt8) (m n : Nat) : List UInt8 := shifted (header p) m n

theorem cutHeader_id {p : List UInt8} {m : Nat} (hm : m < msgSize) :
    toInt (ofBE ((cutHeader p m).take 4)) = 0 := by
  have hzero : (cutHeader p m).take 4 = be32 0 := by
    unfold msgSize at hm
    interval_cases m <;> rfl
  rw [hzero]
  decide

theorem cutHeader_length {p : List UInt8} {m : Nat} (hm : m < msgSize) :
    (cutHeader p m).length = msgSize :=
  length_cutOff (length_header p) hm

theorem cutHeader_len {p : List UInt8} {m : Nat} (hm : m < msgSize) (hp : p ≠ [])
    (hmax : p.length ≤ MAXLINE) (h : toInt (ofBE ((cutHeader p m).drop 4)) = p.length) :
    m = 7 ∧ p.length % 256 = 0 := by
  have hpos : 0 < p.length := List.length_pos_iff.mpr hp
  have hval := eq_of_toInt_eq (ofBE_lt (by rw [List.length_drop, cutHeader_length hm]; rfl)) h
  rw [cutHeader, cutOff, header_of_le hmax] at hval
  unfold MAXLINE at hmax
  unfold msgSize at hm
  interval_cases m <;> simp [msgSize, ofBE, List.replicate] at hval <;> omega

theorem shiftHeader_length {p : List UInt8} {m n : Nat} (h : m + n < msgSize) :
    (shiftHeader p m n).length = msgSize := length_shifted (length_header p) h

theorem shiftHeader_id {p : List UInt8} {m n : Nat} (h : m + n < msgSize) :
    toInt (ofBE ((shiftHeader p m n).take 4)) = 0 := by
  have hzero : (shiftHeader p m n).take 4 = be32 0 := by
    unfold msgSize at h
    have hm : m < 8 := by omega
    have hn : n < 8 - m := by omega
    interval_cases m <;> interval_cases n <;> rfl
  rw [hzero]
  decide

theorem shiftHeader_len {p : List UInt8} {m n : Nat} (hn : 0 < n) (hmn : m + n < msgSize)
    (hp : p ≠ []) (hmax : p.length ≤ MAXLINE) :
    toInt (ofBE ((shiftHeader p m n).drop 4)) ≠ p.length := by
  intro h
  have hpos : 0 < p.length := List.length_pos_iff.mpr hp
  have hval :=
    eq_of_toInt_eq (ofBE_lt (by rw [List.length_drop, shiftHeader_length hmn]; rfl)) h
  rw [shiftHeader, shifted, header_of_le hmax] at hval
  unfold MAXLINE at hmax
  unfold msgSize at hmn
  have hm' : m < 8 := by omega
  have hn' : n < 8 - m := by omega
  interval_cases m <;> interval_cases n <;>
    simp [msgSize, ofBE, List.replicate] at hval <;> omega

/-! ### A delivered stream is clean -/

/-- An iteration has one outcome. -/
theorem Turn.unique {env : Env} {recv : List UInt8} {s s₁ s₂ : Loop} {ds₁ ds₂ : List Act}
    (hwf : Wf s.icbuf) (h₁ : Turn env recv s ds₁ s₁) (h₂ : Turn env recv s ds₂ s₂) :
    ds₁ = ds₂ ∧ s₁ = s₂ := by
  obtain ⟨es₁, hbody₁, rfl⟩ := h₁.body hwf
  obtain ⟨es₂, hbody₂, rfl⟩ := h₂.body hwf
  obtain ⟨rfl, rfl⟩ := hbody₁.unique hbody₂
  exact ⟨rfl, rfl⟩

section Step
variable {env : Env} {recv later tail p : List UInt8} {ps : List (List UInt8)} {s s' s'' : Loop}
  {ds ds' ds₂ : List Act} {cs : List Call} {k : Nat}

/-- A payload that arrives as a whole needs the zero behind its block. -/
theorem At.slack_of_turn (h : At k (p :: ps) s.icbuf)
    (hstream : recv.drop s.offset ++ later = (stream (p :: ps) ++ tail).drop k)
    (hp : 0 ∉ p ∧ p.length < 2 ^ 31)
    (hfit : s.offset + (msgSize + p.length - k) ≤ recv.length)
    (hturn : Turn env recv s ds s') : env.slack p.length = true := by
  have hlt := h.lt
  obtain ⟨hfill, hhead, -, -, -⟩ := h.ready hstream (by omega)
  obtain ⟨hblock, -⟩ := h.filledBlock_whole hstream hfit
  have hlen := header_len hp.2
  cases hturn with
  | short hshort => omega
  | direct _ _ _ hid => exact absurd (hhead ▸ header_id p) hid
  | pending size _ _ hsize _ hzero =>
      rw [hhead, hlen] at hsize
      obtain rfl : p.length = size := by exact_mod_cast hsize
      rw [hblock] at hzero
      exact absurd hzero hp.1
  | complete size _ _ hsize _ _ hslack =>
      rw [hhead, hlen] at hsize
      obtain rfl : p.length = size := by exact_mod_cast hsize
      exact hslack

/-- A payload that arrives in part fits the receive buffer. -/
theorem At.max_of_turn (h : At k (p :: ps) s.icbuf)
    (hstream : recv.drop s.offset ++ later = (stream (p :: ps) ++ tail).drop k)
    (hp : p.length < 2 ^ 31) (hready : msgSize ≤ k + (recv.length - s.offset))
    (hturn : Turn env recv s ds s') (hk : k < msgSize) :
    s.offset + (msgSize - k) + p.length ≤ MAXLINE := by
  obtain ⟨hfill, hhead, -, -, -⟩ := h.ready hstream hready
  have hend := h.blockEnd_eq hstream hready
  obtain ⟨size, hsize, hmax, -⟩ := hturn.first h.wf hfill hhead (header_id p)
  rw [header_len hp] at hsize
  obtain rfl : p.length = size := by exact_mod_cast hsize
  omega

/-- A chunk that ends inside the header it began in needs a `len` that is not zero. -/
theorem At.len_of_turn (h : At k (p :: ps) s.icbuf) (hstop : k + recv.length < msgSize)
    (hturn : Turn env recv s ds s') : s.len ≠ 0 := by
  have hle : s.icbuf.head.length ≤ k := by
    generalize s.icbuf = icbuf at h
    cases h with
    | head _ _ _ => exact List.length_take_le _ _
    | body _ _ _ _ hk => omega
  cases hturn with
  | short _ hlen _ => exact hlen
  | direct _ hfill => omega
  | pending _ hfill => omega
  | complete _ hfill => omega

/-- A chunk shorter than a header that ends inside one: zeros from behind the chunk have gone
into the header before its end, and the message is lost. -/
theorem not_delivered_of_shift {rest : List UInt8} {icbuf' : IncompleteBuf} {more : List Act}
    (hshift : recv.length < msgSize)
    (hstream : recv.drop s.offset ++ cs.flatMap (·.recv) = header p ++ rest)
    (hp : p ≠ []) (hpos : 0 < s.offset) (hlt : s.offset < recv.length)
    (hrest : Received env { head := window recv s.offset recv.length } cs ds₂ icbuf') :
    ds₂ ≠ .solve p :: more := by
  have hmn : recv.length - s.offset + s.offset < msgSize := by omega
  obtain ⟨hhead, hnext⟩ := window_of_slip hshift hstream (length_header p) hlt
  intro hds
  -- a run that delivers would announce a size, which the shifted header does not have
  rw [hhead] at hrest
  obtain ⟨q, ds₃, rfl, hq, hmax⟩ := hrest.first_of_partial (by rw [hds]; simp) recv.length _
    rfl (by omega) hshift (shiftHeader_length hmn) (shiftHeader_id hmn) hnext
  obtain rfl := Act.solve.inj (List.cons.inj hds).1
  exact shiftHeader_len hpos hmn hp hmax hq

/-- A longer chunk that ends inside a header it did not begin in: the header was completed
with zeros from behind the chunk. A run that still delivers the message has made up for the
last byte only, and that byte is a zero. -/
theorem early_of_cut {rest : List UInt8} {icbuf' : IncompleteBuf} {more : List Act}
    (hic : s.icbuf = {}) (hfill : msgSize ≤ recv.length)
    (hstream : recv.drop s.offset ++ later = header p ++ rest)
    (hp : p ≠ []) (hlt : s.offset < recv.length)
    (hslip : recv.length - s.offset < msgSize) (hturn : Turn env recv s ds s'')
    (hturns : Turns env recv s'' ds' s') (hrest : Received env s'.icbuf cs ds₂ icbuf')
    (hds : ds ++ ds' ++ ds₂ = .solve p :: more) :
    s.offset + 7 = recv.length ∧ p.length % 256 = 0 ∧
      s.offset + msgSize + p.length ≤ MAXLINE := by
  have hwf : Wf s.icbuf := hic ▸ wf_empty
  have hend : headEnd s = s.offset + msgSize := by rw [headEnd, hic]; rfl
  have hfilled : filled recv s = cutHeader p (recv.length - s.offset) :=
    filled_of_slip hic hstream (length_header p) (Nat.le_of_lt hlt) hslip
  have hlen := @cutHeader_length p (recv.length - s.offset) hslip
  have hid := @cutHeader_id p (recv.length - s.offset) hslip
  obtain ⟨size, hsize, hmax, hcase⟩ := hturn.first hwf
    (by rw [hic, List.length_nil, Nat.sub_zero]; exact hfill) hfilled hid
  have hbound : blockEnd s size = s.offset + msgSize + size := by
    rw [blockEnd, hend, hic]
    rfl
  -- what is delivered first has the size that the wrong header announces
  have hfirst : ∃ q ds₃, ds ++ ds' ++ ds₂ = .solve q :: ds₃ ∧ q.length = size := by
    have hcast : ∀ q : List UInt8,
        toInt (ofBE ((cutHeader p (recv.length - s.offset)).drop 4)) = q.length →
          q.length = size := by
      intro q hq
      rw [hsize] at hq
      exact_mod_cast hq.symm
    rcases hcase with ⟨rfl, hhd, -⟩ | ⟨q, rfl, hq, -⟩
    · rcases hturns.first_of_complete (hturn.wf hwf) hhd hlen hid with
        ⟨rfl, hhd'⟩ | ⟨q, ds₃, rfl, hq⟩
      · rcases hrest.first_of_complete (hturns.wf (hturn.wf hwf)) hhd' hlen hid with
          ⟨rfl, -⟩ | ⟨q, ds₃, rfl, hq⟩
        · exact absurd hds (by simp)
        · exact ⟨q, ds₃, rfl, hcast q hq⟩
      · exact ⟨q, _, rfl, hcast q hq⟩
    · exact ⟨q, _, rfl, hq⟩
  obtain ⟨q, ds₃, heq, hq⟩ := hfirst
  rw [heq] at hds
  obtain rfl := Act.solve.inj (List.cons.inj hds).1
  subst hq
  rw [hbound] at hmax
  obtain ⟨hseven, hlow⟩ :=
    cutHeader_len hslip hp (Nat.le_trans (Nat.le_add_left _ _) hmax) hsize
  clear hsize hid
  exact ⟨by omega, hlow, hmax⟩

/-- A chunk that ends inside a header it did not begin in, in a run that still delivers the
message. -/
theorem early_of_turn {rest : List UInt8} {icbuf' : IncompleteBuf} {more : List Act}
    (hic : s.icbuf = {})
    (hstream : recv.drop s.offset ++ cs.flatMap (·.recv) = header p ++ rest)
    (hp : p ≠ []) (hpos : 0 < s.offset) (hlt : s.offset < recv.length)
    (hslip : recv.length - s.offset < msgSize) (hturn : Turn env recv s ds s'')
    (hturns : Turns env recv s'' ds' s') (hrest : Received env s'.icbuf cs ds₂ icbuf')
    (hds : ds ++ ds' ++ ds₂ = .solve p :: more) :
    s.offset + 7 = recv.length ∧ p.length % 256 = 0 ∧
      s.offset + msgSize + p.length ≤ MAXLINE := by
  by_cases hfill : msgSize ≤ recv.length
  · exact early_of_cut hic hfill hstream hp hlt hslip hturn hturns hrest hds
  · have hno : ¬ msgSize - s.icbuf.head.length ≤ recv.length := by
      rw [hic, List.length_nil, Nat.sub_zero]
      exact hfill
    cases hturn with
    | direct _ hfill' => exact absurd hfill' hno
    | pending _ hfill' => exact absurd hfill' hno
    | complete _ hfill' => exact absurd hfill' hno
    | short _ _ _ =>
        obtain ⟨rfl, rfl⟩ := hturns.of_ge (Nat.le_add_left _ _)
        rw [hic] at hrest
        exact absurd hds
          (not_delivered_of_shift (Nat.lt_of_not_le hfill) hstream hp hpos hlt hrest)

/-- A cut never begins behind the end of its chunk. -/
theorem Cut.offset_le {size : Nat} {len0 : Int} {o : Nat} {ps ps' : List (List UInt8)} {pos : Pos}
    (h : Cut env size len0 o k ps pos ps') : o ≤ size := by
  cases h with
  | edge => exact Nat.le_refl _
  | whole _ _ _ _ _ _ hfit => omega
  | body _ _ _ _ hlt => exact Nat.le_of_lt hlt
  | head => exact Nat.zero_le _
  | early _ _ _ _ _ hstop => omega

/-- One call of a run that delivers the stream: it ends in it, or goes on with what is behind
it from the offset `front`. -/
theorem Turns.cut {len0 : Int} {icbuf' : IncompleteBuf} {more : List Act}
    (hturns : Turns env recv s ds s') (hrecv : recv.length ≤ MAXLINE) :
    ∀ {k : Nat} {ps : List (List UInt8)} {ds₂ : List Act}, At k ps s.icbuf →
      (0 < s.offset → k = 0) → (s.offset = 0 → s.len = len0) → s.offset ≤ recv.length →
      (s.offset = recv.length → k = 0) →
      recv.drop s.offset ++ cs.flatMap (·.recv) = (stream ps ++ tail).drop k → Payloads ps →
      Received env s'.icbuf cs ds₂ icbuf' → ds ++ ds₂ = ps.map .solve ++ more →
      (∃ pos ps', Cut env recv.length len0 s.offset k ps pos ps' ∧ Holds pos ps' s'.icbuf ∧
        ds₂ = ps'.map .solve ++ more ∧
        cs.flatMap (·.recv) = (stream ps' ++ tail).drop pos.bytes) ∨
      ∃ front len ds', front < recv.length ∧ Cut env front len0 s.offset k ps (.inside 0) [] ∧
        recv.drop front ++ cs.flatMap (·.recv) = tail ∧ Turns env recv ⟨{}, len, front⟩ ds' s' ∧
        ds' ++ ds₂ = more ∧ ((ps = [] ∧ len = s.len) ∨ ∃ p, ps.getLast? = some p ∧
          len = p.length ∧ s.offset < front) := by
  induction hturns with
  | @stop s hend =>
      intro k ps ds₂ hat _ _ hle hedge hstream _ _ hds
      -- the chunk is used up
      have ho : s.offset = recv.length := Nat.le_antisymm hle hend
      obtain rfl := hedge ho
      rw [ho, List.drop_length, List.nil_append] at hstream
      exact .inl ⟨.inside 0, ps, ho ▸ .edge ps, hat, hds, hstream⟩
  | @step s s₁ s' ds ds' hlt hturn hrest ih =>
      intro k ps ds₂ hat hk hlen0 hle _ hstream hps hrec hds
      cases ps with
      | nil =>
          -- the stream is at its end, but bytes of the chunk are left
          obtain ⟨rfl, hic⟩ := hat.of_nil
          refine .inr ⟨s.offset, s.len, ds ++ ds', hlt, .edge [], hstream, ?_, hds, .inl ⟨rfl, rfl⟩⟩
          rw [← hic]
          exact .step hlt hturn hrest
      | cons p ps =>
          -- the cases are where the chunk ends: behind the payload, in it, or in the header
          have hk' := hat.lt
          by_cases hready : msgSize ≤ k + (recv.length - s.offset)
          · by_cases hfit : s.offset + (msgSize + p.length - k) ≤ recv.length
            · -- the whole payload
              have hslack := hat.slack_of_turn hstream hps.head.2 hfit hturn
              have hend := hat.blockEnd_eq hstream hready
              obtain ⟨-, hlater⟩ := hat.filledBlock_whole hstream hfit
              obtain ⟨rfl, rfl⟩ := hturn.unique hat.wf
                (hat.turn_whole env hstream hrecv hps.head.2 hfit hslack)
              dsimp only at ih
              rw [hend] at ih hlater
              rw [List.append_assoc, List.singleton_append, List.map_cons, List.cons_append] at hds
              rcases ih (at_empty ps) (fun _ => rfl) (by omega) hfit (fun _ => rfl) hlater hps.tail
                hrec (List.cons.inj hds).2 with
                ⟨pos, ps', hcut, hholds, hds', hrest'⟩ | ⟨front, len, ds₃, hfront, hcut, hdrop,
                  hturns', hds', hlen⟩
              · exact .inl ⟨pos, ps', .whole _ _ p ps pos ps' hfit hslack hcut, hholds, hds',
                  hrest'⟩
              · refine .inr ⟨front, len, ds₃, hfront,
                  .whole _ _ p ps _ _ hcut.offset_le hslack hcut, hdrop, hturns', hds', .inr ?_⟩
                have hend' := hcut.offset_le
                rcases hlen with ⟨rfl, hlen⟩ | ⟨q, hq, hlen, -⟩
                · exact ⟨p, rfl, hlen, by omega⟩
                · refine ⟨q, ?_, hlen, by omega⟩
                  rw [List.getLast?_cons, hq]
                  rfl
            · -- a part of the payload
              have hmax := hat.max_of_turn hstream hps.head.2.2 hready hturn
              have hend := hat.blockEnd_eq hstream hready
              obtain ⟨s₂, hturn₂, hoff, hat₂⟩ := hat.turn_body env hstream hps.head.2 hk hlt hready
                (Nat.lt_of_not_le hfit) hmax
              obtain ⟨rfl, rfl⟩ := hturn.unique hat.wf hturn₂
              obtain ⟨rfl, rfl⟩ := hrest.of_ge (by omega)
              exact .inl ⟨_, p :: ps, .body _ _ p ps hlt hready (Nat.lt_of_not_le hfit) hmax, hat₂,
                hds, later_of_short hstream⟩
          · rcases Nat.eq_zero_or_pos s.offset with ho | hpos
            · -- a part of the header
              have hstop : k + recv.length < msgSize := by omega
              have hlen : s.len ≠ 0 := hat.len_of_turn hstop hturn
              rw [ho, List.drop_zero] at hstream
              obtain ⟨s₂, hturn₂, hoff, hat₂⟩ := hat.turn_head env ho hstream hstop hlen
              obtain ⟨rfl, rfl⟩ := hturn.unique hat.wf hturn₂
              obtain ⟨rfl, rfl⟩ := hrest.of_ge (by omega)
              refine .inl ⟨.inside (k + recv.length), p :: ps, ?_, hat₂, hds, ?_⟩
              · rw [ho]
                exact .head k p ps hstop (hlen0 ho ▸ hlen)
              simpa [Pos.bytes] using @later_of_short recv _ _ _ k 0 hstream
            · -- a part of a header that begins inside the chunk
              obtain rfl := hk hpos
              have hic : s.icbuf = {} := hat.eq_empty
              rw [List.drop_zero] at hstream
              obtain ⟨hseven, hlow, hmax⟩ := early_of_turn hic
                (hstream.trans (stream_cons_append ..)) hps.head.1 hpos hlt (by omega) hturn hrest
                hrec hds
              obtain ⟨s₂, hturn₂, hoff, hat₂⟩ := turn_early env hic hstream
                ⟨hps.head.1, hps.head.2.2⟩ hpos hseven hlow hmax
              obtain ⟨rfl, rfl⟩ := hturn.unique hat.wf hturn₂
              obtain ⟨rfl, rfl⟩ := hrest.of_ge hoff
              refine .inl ⟨.early, p :: ps, .early _ p ps hps.head.1 hpos hseven hlow hmax,
                ⟨p, ps, rfl, hlow, hat₂⟩, hds, ?_⟩
              have hpart : recv.length - s.offset = 7 := by omega
              have := @later_of_short recv _ tail (p :: ps) 0 s.offset hstream
              rwa [hpart] at this

end Step

/-- The turn after a header that was completed early: the missing byte goes to the front of
the payload block, so nothing of the payload is kept. -/
theorem At.turn_after_early {env : Env} {r p : List UInt8} {ps : List (List UInt8)}
    {s s' : Loop} {ds : List Act} (hat : At msgSize (p :: ps) s.icbuf) (hoff : s.offset = 0)
    (hp : p ≠ [] ∧ p.length < 2 ^ 31) (hturn : Turn env (0 :: r) s ds s') :
    (ds = [] ∧ s'.offset = p.length ∧ weight s'.icbuf = nonzero (header p)) ∨
      ∃ q, 0 ∈ q ∧ ds = [.solve q] := by
  obtain ⟨n, hn⟩ : ∃ n, p.length = n + 1 :=
    ⟨p.length - 1, (Nat.succ_pred_eq_of_pos (List.length_pos_iff.mpr hp.1)).symm⟩
  -- the header is there as a whole, and nothing of the payload
  have hhd : s.icbuf.head.length = msgSize ∧ filled (0 :: r) s = header p ∧ headEnd s = 0 ∧
      held s.icbuf = [] := by
    generalize hic : s.icbuf = icbuf at hat
    cases hat with
    | head _ hk => exact absurd hk (Nat.lt_irrefl _)
    | body _ _ _ _ _ _ hhead hheld _ =>
        refine ⟨by rw [hhead, length_header], ?_, ?_, by rw [hheld]; simp⟩
        · rw [filled_of_eq (by rw [hic, hhead, length_header]), hic, hhead]
        · rw [headEnd, hic, hhead, length_header, hoff, Nat.sub_self]
  obtain ⟨hfull, hfilled, hend, hheld⟩ := hhd
  -- the missing byte of the header is taken for the first of the block
  have hblock : filledBlock (0 :: r) s p.length = 0 :: window (0 :: r) 1 n := by
    rw [filledBlock, hheld, hend, List.nil_append, List.length_nil, Nat.sub_zero, hn,
      Nat.add_comm n 1, window_add]
    rfl
  have hbound : blockEnd s p.length = p.length := by
    rw [blockEnd, hheld, hend]
    simp
  have hlen := header_len hp.2
  cases hturn with
  | short hshort =>
      rw [hfull, Nat.sub_self] at hshort
      exact absurd hshort (Nat.not_lt_zero _)
  | direct _ _ _ hid => exact absurd (hfilled ▸ header_id p) hid
  | pending size _ _ hsize _ _ =>
      rw [hfilled, hlen] at hsize
      obtain rfl : p.length = size := by exact_mod_cast hsize
      refine .inl ⟨rfl, hbound, ?_⟩
      rw [hblock, hfilled]
      rfl
  | complete size _ _ hsize _ _ _ =>
      rw [hfilled, hlen] at hsize
      obtain rfl : p.length = size := by exact_mod_cast hsize
      exact .inr ⟨_, by rw [hblock]; exact List.mem_cons_self .., rfl⟩

/-- Behind a header that was completed early, a run that still delivers the stream receives
the missing byte as a chunk of its own. -/
theorem late_of_received {env : Env} {icbuf : IncompleteBuf} {c : Call} {cs : List Call}
    {p : List UInt8} {ps : List (List UInt8)} {ds ds₂ : List Act} {s : Loop}
    (hat : At msgSize (p :: ps) icbuf) (hps : Payloads (p :: ps)) (hlow : p.length % 256 = 0)
    (hne : c.recv ≠ []) (hstream : c.recv ++ cs.flatMap (·.recv) = 0 :: (p ++ stream ps))
    {icbuf' : IncompleteBuf} (hcall : Turns env c.recv ⟨icbuf, c.len0, 0⟩ ds s)
    (hrest : Received env s.icbuf cs ds₂ icbuf') (hds : ds ++ ds₂ = (p :: ps).map .solve) :
    c.recv = [0] := by
  obtain ⟨hpne, hzero, hlt⟩ := hps.head
  obtain ⟨x, p', hpx⟩ := List.exists_cons_of_ne_nil hpne
  obtain ⟨b, r, hrecv⟩ := List.exists_cons_of_ne_nil hne
  rw [hrecv] at hstream hcall ⊢
  obtain ⟨rfl, hnext⟩ := List.cons.inj hstream
  rw [List.append_eq] at hnext
  cases r with
  | nil => rfl
  | cons y r =>
      -- the first payload byte would be skipped
      exfalso
      have hy : y = x := by
        rw [hpx] at hnext
        exact (List.cons.inj hnext).1
      have hx : x ≠ 0 := fun h => hzero (by rw [hpx, h]; exact List.mem_cons_self ..)
      have hwf : Wf icbuf := hat.wf
      cases hcall with
      | stop hend => simp at hend
      | step _ hturn hturns =>
          rcases hat.turn_after_early rfl ⟨hpne, hlt⟩ hturn with ⟨rfl, hoff, hweight⟩ | ⟨q, hq, rfl⟩
          · have hturns' := hturns.weight (hturn.wf hwf)
            have hrest' := hrest.weight (hturns.wf (hturn.wf hwf))
            have hworth := worth_stream hps
            rw [← hds, List.nil_append, List.map_append, List.sum_append, stream_cons,
              nonzero_append, ← hnext, nonzero_append] at hworth
            obtain ⟨n, hn⟩ : ∃ n, p.length = n + 2 := ⟨p.length - 2, by
              have := List.length_pos_iff.mpr hpne
              omega⟩
            have hdrop : nonzero (r.drop n) ≤ nonzero r := by
              conv_rhs => rw [← List.take_append_drop n r, nonzero_append]
              exact Nat.le_add_left _ _
            have hcount : nonzero (y :: r) = nonzero r + 1 := by
              rw [nonzero, List.countP_cons_of_pos (by simpa [hy] using hx), ← nonzero]
            rw [hweight, hoff, hn, List.drop_succ_cons, List.drop_succ_cons] at hturns'
            omega
          · rw [List.singleton_append, List.cons_append, List.map_cons] at hds
            obtain rfl := Act.solve.inj (List.cons.inj hds).1
            exact hzero hq

/-- How a run that delivers the payloads comes to what is behind them, the bytes `tail` that turn
into the deliveries `more`. -/
inductive Behind (env : Env) (pos : Pos) (ps : List (List UInt8)) (tail : List UInt8)
    (more : List Act) : List Call → Prop
  /-- The stream ends with a call. -/
  | between (before after : List Call) (icbuf' : IncompleteBuf)
      (hclean : Clean env pos ps before) (htail : after.flatMap (·.recv) = tail)
      (hrest : Received env {} after more icbuf') : Behind env pos ps tail more (before ++ after)
  /-- The stream ends inside the chunk of a call. -/
  | inside (before after : List Call) (c : Call) (front : Nat) (len : Int) (ds ds' : List Act)
      (p : List UInt8) (s : Loop) (icbuf' : IncompleteBuf) (hpos : 0 < front)
      (hfront : front < c.recv.length)
      (hclean : Clean env pos ps (before ++ [{ c with recv := c.recv.take front }]))
      (htail : c.recv.drop front ++ after.flatMap (·.recv) = tail)
      (hturns : Turns env c.recv ⟨{}, len, front⟩ ds s)
      (hrest : Received env s.icbuf after ds' icbuf') (hmore : ds ++ ds' = more)
      (hlast : ps.getLast? = some p) (hlen : len = p.length) :
      Behind env pos ps tail more (before ++ c :: after)

/-- One more call in front, after which the payloads `ps'` are left. -/
theorem Behind.cons {env : Env} {pos pos' : Pos} {ps ps' : List (List UInt8)}
    {tail : List UInt8} {more : List Act} {c : Call} {cs : List Call}
    (hps : ∃ qs, ps = qs ++ ps')
    (hcons : ∀ cs, Clean env pos' ps' cs → Clean env pos ps (c :: cs))
    (h : Behind env pos' ps' tail more cs) : Behind env pos ps tail more (c :: cs) := by
  obtain ⟨qs, rfl⟩ := hps
  cases h with
  | between before after icbuf' hclean htail hrest =>
      exact .between (c :: before) after icbuf' (hcons _ hclean) htail hrest
  | inside before after c' front len ds ds' p s icbuf' hpos hfront hclean htail hturns hrest hmore
      hlast hlen =>
      refine .inside (c :: before) after c' front len ds ds' p s icbuf' hpos hfront
        (hcons _ hclean) htail hturns hrest hmore ?_ hlen
      rw [List.getLast?_append, hlast]
      rfl

/-- A run that delivers the stream and what is behind it is cut cleanly as far as the stream
goes. -/
theorem Received.behind {env : Env} {tail : List UInt8} {calls : List Call}
    {icbuf icbuf' : IncompleteBuf} {ds more : List Act} (h : Received env icbuf calls ds icbuf') :
    ∀ {pos : Pos} {ps : List (List UInt8)}, Holds pos ps icbuf → Payloads ps →
      (∀ c ∈ calls, c.recv ≠ [] ∧ c.recv.length ≤ MAXLINE) →
      calls.flatMap (·.recv) = (stream ps ++ tail).drop pos.bytes → ds = ps.map .solve ++ more →
      (tail = [] ∧ more = [] ∨ ∀ p ∈ ps, p.length % 256 ≠ 0) →
      Behind env pos ps tail more calls := by
  induction h with
  | @nil icbuf =>
      intro pos ps hholds _ _ hstream hds _
      -- the stream is at its end, so nothing is held back
      obtain ⟨hmap, rfl⟩ := List.append_eq_nil_iff.mp hds.symm
      obtain rfl : ps = [] := List.map_eq_nil_iff.mp hmap
      cases pos with
      | inside k =>
          obtain ⟨rfl, rfl⟩ := At.of_nil hholds
          exact .between [] [] {} .nil hstream .nil
      | early =>
          obtain ⟨_, _, hps, _⟩ := hholds
          exact absurd hps (by simp)
  | @cons icbuf icbuf' c cs ds ds₂ s hcall hrest ih =>
      intro pos ps hholds hps hcalls hstream hds hlate
      obtain ⟨hne, hmax⟩ := hcalls c (List.mem_cons_self ..)
      have hcalls' := fun c' hc' => hcalls c' (List.mem_cons_of_mem c hc')
      have hpos : 0 < c.recv.length := List.length_pos_iff.mpr hne
      cases pos with
      | inside k =>
          cases ps with
          | nil =>
              -- the run is at the end of the stream already
              obtain ⟨rfl, rfl⟩ := At.of_nil hholds
              obtain rfl : _ = more := hds
              exact .between [] (c :: cs) icbuf' .nil hstream (.cons hcall hrest)
          | cons p ps =>
              rw [List.flatMap_cons] at hstream
              -- the call is cut as its turns are, and the rest begins where it ended
              rcases hcall.cut hmax hholds (fun h => absurd h (Nat.lt_irrefl 0)) (fun _ => rfl)
                (Nat.zero_le _) (fun h => absurd h (Nat.ne_of_lt hpos)) hstream hps hrest hds with
                ⟨pos, ps', hcut, hholds', hds₂, hlater⟩ | ⟨front, len, ds', hfront, hcut, hdrop,
                  hturns, hmore, hlen⟩
              · obtain ⟨qs, hqs⟩ := hcut.suffix
                have hmem : ∀ q ∈ ps', q ∈ p :: ps := by
                  intro q hq
                  rw [hqs]
                  exact List.mem_append_right qs hq
                refine .cons ⟨qs, hqs⟩ (fun cs => .cons k (p :: ps) pos ps' c cs hcut)
                  (ih hholds' (fun q hq => hps q (hmem q hq)) hcalls' hlater hds₂ ?_)
                exact hlate.imp_right fun h q hq => h q (hmem q hq)
              · obtain ⟨q, hq, hlen, hfront₀⟩ := hlen.resolve_left (by simp)
                have hsize : (c.recv.take front).length = front := by
                  rw [List.length_take]
                  omega
                refine .inside [] cs c front len ds' ds₂ q s icbuf' hfront₀ hfront ?_ hdrop hturns
                  hrest hmore hq hlen
                exact .cons k (p :: ps) (.inside 0) [] _ [] (by rwa [hsize]) .nil
      | early =>
          obtain ⟨p, ps, rfl, hlow, hat⟩ := hholds
          -- the header was completed one byte early, and the missing byte is the next chunk
          obtain ⟨rfl, rfl⟩ :=
            hlate.resolve_right fun h => h p (List.mem_cons_self ..) hlow
          rw [List.append_nil] at hds
          rw [List.flatMap_cons, Pos.bytes, drop_stream_early ps _ hlow] at hstream
          have hrecv := late_of_received hat hps hlow hne
            (by rwa [List.append_nil] at hstream) hcall hrest hds
          rw [hrecv, List.singleton_append] at hstream
          rw [hrecv] at hcall
          obtain ⟨s', hturn, hoff, hat'⟩ := hat.turn_late env (s := ⟨icbuf, c.len0, 0⟩) rfl
            hps.head.2.2
          cases hcall with
          | stop hend => simp at hend
          | step _ hturn' hturns =>
              obtain ⟨rfl, rfl⟩ := hturn'.unique hat.wf hturn
              obtain ⟨rfl, rfl⟩ := hturns.of_ge hoff
              refine .cons ⟨[], rfl⟩ (fun cs => .late _ c cs (by rw [hrecv]; rfl))
                (ih hat' hps hcalls' ?_ (by rw [List.append_nil]; exact hds) (.inl ⟨rfl, rfl⟩))
              rw [(List.cons.inj hstream).2, Pos.bytes,
                drop_stream_of_ge (Nat.le_refl _) (by omega)]
              simp

/-- A run that delivers the stream is cut cleanly. -/
theorem Received.clean {env : Env} {calls : List Call} {icbuf icbuf' : IncompleteBuf}
    {pos : Pos} {ps : List (List UInt8)} (h : Received env icbuf calls (ps.map .solve) icbuf')
    (hholds : Holds pos ps icbuf) (hps : Payloads ps)
    (hcalls : ∀ c ∈ calls, c.recv ≠ [] ∧ c.recv.length ≤ MAXLINE)
    (hstream : calls.flatMap (·.recv) = (stream ps).drop pos.bytes) :
    Clean env pos ps calls := by
  rw [← List.append_nil (stream ps)] at hstream
  rw [← List.append_nil (ps.map Act.solve)] at h
  cases h.behind hholds hps hcalls hstream rfl (.inl ⟨rfl, rfl⟩) with
  | between before after _ hclean htail =>
      -- there is nothing behind the stream, so there is no call
      rw [eq_nil_of_flatMap (fun c hc => (hcalls c (List.mem_append_right _ hc)).1) htail,
        List.append_nil]
      exact hclean
  | inside before after c front _ _ _ _ _ _ _ hfront _ htail =>
      have := congrArg List.length htail
      rw [List.length_append, List.length_drop, List.length_nil] at this
      omega

/-! ### The framing law -/

/-- `sendMessage` sends the frame of every payload whose buffer size is an `int`. -/
theorem sendMessage_eq {id : Int} {p : List UInt8} (h : p.length + msgSize < 2 ^ 31) :
    sendMessage id p = some (frame id p) := by
  have hlen : toInt p.length = p.length := toInt_of_lt (by omega)
  have hsize : toSize (p.length : Int) = p.length := by
    rw [toSize_of_nonneg (by omega) (by omega), Int.toNat_natCast]
  rw [sendMessage, hlen, hsize, toInt_of_lt h, if_neg (by omega), Int.toNat_natCast,
    List.take_length]

/-- The calls, on a fresh `bufInfo`, hand over each of the payloads once and in order, and
leave `incompleteBuf` as it was in the beginning. -/
def Delivers (env : Env) (ps : List (List UInt8)) (calls : List Call) : Prop :=
  ∃ fuel log, (dispatchAll env fuel calls {}).Yields log {} ∧ deliveries log = ps.map .solve

/-- The framing law: a stream of control messages is delivered exactly when it is cut
cleanly. -/
theorem framing_iff {env : Env} {ps : List (List UInt8)} {calls : List Call}
    (hps : Payloads ps) (hcalls : ∀ c ∈ calls, c.recv ≠ [] ∧ c.recv.length ≤ MAXLINE)
    (hstream : calls.flatMap (·.recv) = stream ps) :
    Delivers env ps calls ↔ Clean env (.inside 0) ps calls := by
  have hholds : Holds (.inside 0) ps {} := at_empty ps
  rw [Delivers, ← received_iff wf_empty]
  constructor
  · intro h
    exact h.clean hholds hps hcalls hstream
  · intro h
    exact h.received hholds hps.texts (fun c hc => (hcalls c hc).2) hstream

/-- A chunk that ends in the first six bytes of a header it did not begin in cannot be
followed. -/
theorem Cut.not_slip {env : Env} {size o : Nat} {len0 : Int} {p : List UInt8}
    {ps ps' : List (List UInt8)} {pos : Pos} (hpos : 0 < o) (hlt : o < size)
    (hslip : size < o + 7) : ¬ Cut env size len0 o 0 (p :: ps) pos ps' := by
  have hmsg : msgSize = 8 := rfl
  intro h
  cases h with
  | edge => omega
  | whole _ _ _ _ _ _ hfit => omega
  | body _ _ _ _ _ hready => omega
  | head => omega
  | early _ _ _ _ _ hstop => omega

/-- No client is registered, and every payload block has a zero behind it. -/
def helloEnv : Env := { connMp_ := fun _ => none, conn := 0, slack := fun _ => true }

/-- `"helloworld"`. -/
def hello : List UInt8 := [104, 101, 108, 108, 111, 119, 111, 114, 108, 100]

/-- Two messages that arrive in one chunk, except for the second half of the second header and
what follows it. -/
def helloCalls : List Call :=
  [{ recv := (stream [hello, hello]).take 22, len0 := 1 },
    { recv := (stream [hello, hello]).drop 22, len0 := 1 }]

theorem framing_iff_hello :
    Delivers helloEnv [hello, hello] [{ recv := stream [hello, hello], len0 := 1 }] := by
  refine (framing_iff (by decide) (by decide) (by simp)).mpr ?_
  exact .cons 0 _ (.inside 0) [] _ []
    (.whole 0 0 hello [hello] _ _ (by decide) rfl
      (.whole 18 0 hello [] _ _ (by decide) rfl (.edge [])))
    .nil

/-- The two messages are not delivered: the first four bytes of the second header are taken
for a whole one. -/
theorem hello_not_delivered :
    Payloads [hello, hello] ∧
    (∀ c ∈ helloCalls, c.recv ≠ [] ∧ c.recv.length ≤ MAXLINE) ∧
    helloCalls.flatMap (·.recv) = stream [hello, hello] ∧
    ¬ Delivers helloEnv [hello, hello] helloCalls := by
  have hps : Payloads [hello, hello] := by decide
  have hcalls : ∀ c ∈ helloCalls, c.recv ≠ [] ∧ c.recv.length ≤ MAXLINE := by decide
  have hstream : helloCalls.flatMap (·.recv) = stream [hello, hello] := by decide
  refine ⟨hps, hcalls, hstream, fun h => ?_⟩
  have hholds : Holds (.inside 0) [hello, hello] {} := at_empty _
  have hclean := ((received_iff wf_empty).mpr h).clean hholds hps hcalls hstream
  cases hclean with
  | cons _ _ _ _ _ _ hcut _ =>
      cases hcut with
      | whole _ _ _ _ _ _ _ _ hrest =>
          exact Cut.not_slip (by decide) (by decide) (by decide) hrest
      | body _ _ _ _ _ _ hstop _ => exact absurd hstop (by decide)
      | head _ _ _ hstop _ => exact absurd hstop (by decide)
      | early _ _ _ _ hpos _ _ _ => exact absurd hpos (by decide)

end Ndsl.Proofs.Multiplexer
