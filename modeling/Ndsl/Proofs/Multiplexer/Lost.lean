import Ndsl.Proofs.Multiplexer.Cut

/-!
# `Ndsl.Proofs.Multiplexer.Lost`: what cannot be repaired any more

Two facts about every run of `dispatch`, whatever the stream is.

* Once the header of a control message is complete, the next message delivered has the size
  that the header announces (`Received.first_of_complete`, `Received.first_of_partial`). A
  header put together from the wrong bytes is never forgotten.
* A byte that is not zero is put to use at most once (`Received.weight`). Payload bytes that
  were skipped are missing at the end.
-/

set_option autoImplicit false

namespace Ndsl.Proofs.Multiplexer

open Ndsl.Lib
open Ndsl.Net (MAXLINE toInt eq_of_toInt_eq)
open Ndsl.Net.Multiplexer

/-! ### The announced size -/

section First
variable {env : Env} {hd : List UInt8}

/-- A turn with the header `hd` of a control message leaves the header as it is, or delivers a
message of the announced size. -/
theorem Turn.first {recv : List UInt8} {s s' : Loop} {ds : List Act}
    (hturn : Turn env recv s ds s') (hwf : Wf s.icbuf)
    (hfill : msgSize - s.icbuf.head.length ≤ recv.length) (hhd : filled recv s = hd)
    (hid : toInt (ofBE (hd.take 4)) = 0) :
    ∃ size : Nat, toInt (ofBE (hd.drop 4)) = size ∧ blockEnd s size ≤ MAXLINE ∧
      ((ds = [] ∧ s'.icbuf.head = hd ∧ 0 ∈ filledBlock recv s size) ∨
        ∃ q, ds = [.solve q] ∧ q.length = size ∧ q = filledBlock recv s size) := by
  cases hturn with
  | short hshort => omega
  | direct _ _ _ hid' => exact absurd (hhd ▸ hid) hid'
  | pending size _ _ hsize hmax hzero =>
      exact ⟨size, hhd ▸ hsize, hmax, .inl ⟨rfl, hhd, hzero⟩⟩
  | complete size _ _ hsize hmax hzero =>
      have hle := (hwf.block hsize).2.2
      rw [hwf.bufSize_eq] at hle
      refine ⟨size, hhd ▸ hsize, hmax, .inr ⟨_, rfl, ?_, rfl⟩⟩
      rw [filledBlock, List.length_append, length_window]
      omega

/-- The rest of a call with a complete header. -/
theorem Turns.first_of_complete {recv : List UInt8} {s s' : Loop} {ds : List Act}
    (hturns : Turns env recv s ds s') (hwf : Wf s.icbuf) (hhd : s.icbuf.head = hd)
    (hlen : hd.length = msgSize) (hid : toInt (ofBE (hd.take 4)) = 0) :
    (ds = [] ∧ s'.icbuf.head = hd) ∨
      ∃ q ds', ds = .solve q :: ds' ∧ toInt (ofBE (hd.drop 4)) = q.length := by
  induction hturns with
  | stop _ => exact .inl ⟨rfl, hhd⟩
  | @step s s' s'' ds ds' _ hturn _ ih =>
      have hfilled : filled recv s = s.icbuf.head := filled_of_eq (hhd ▸ hlen)
      obtain ⟨size, hsize, -, ⟨rfl, hhd', -⟩ | ⟨q, rfl, hq, -⟩⟩ := hturn.first hwf
        (by rw [hhd, hlen, Nat.sub_self]; exact Nat.zero_le _) (hfilled.trans hhd) hid
      · exact ih (hturn.wf hwf) hhd'
      · exact .inr ⟨q, _, rfl, by rw [hsize, hq]⟩

/-- The rest of a connection with a complete header. -/
theorem Received.first_of_complete {calls : List Call} {icbuf icbuf' : IncompleteBuf}
    {ds : List Act} (h : Received env icbuf calls ds icbuf') (hwf : Wf icbuf)
    (hhd : icbuf.head = hd) (hlen : hd.length = msgSize) (hid : toInt (ofBE (hd.take 4)) = 0) :
    (ds = [] ∧ icbuf'.head = hd) ∨
      ∃ q ds', ds = .solve q :: ds' ∧ toInt (ofBE (hd.drop 4)) = q.length := by
  induction h with
  | nil => exact .inl ⟨rfl, hhd⟩
  | cons hcall _ ih =>
      rcases hcall.first_of_complete hwf hhd hlen hid with ⟨rfl, hhd'⟩ | ⟨q, ds', rfl, hq⟩
      · exact ih (hcall.wf hwf) hhd'
      · exact .inr ⟨q, _, rfl, hq⟩

/-- A connection with a part of the header, the rest of which is next in the stream: when it
delivers anything, its first message has the announced size. -/
theorem Received.first_of_partial {calls : List Call} {icbuf icbuf' : IncompleteBuf}
    {ds : List Act} (h : Received env icbuf calls ds icbuf') (hne : ds ≠ []) :
    ∀ (j : Nat) (tail : List UInt8), icbuf = { head := hd.take j } → 0 < j → j < msgSize →
      hd.length = msgSize → toInt (ofBE (hd.take 4)) = 0 →
      calls.flatMap (·.recv) = hd.drop j ++ tail →
      ∃ q ds', ds = .solve q :: ds' ∧ toInt (ofBE (hd.drop 4)) = q.length ∧
        q.length ≤ MAXLINE := by
  induction h with
  | nil =>
      exact absurd rfl hne
  | @cons icbuf icbuf' c cs ds ds' s hcall hrest ih =>
      intro j tail hic hpos hj hlen hid hstream
      have hjlen : (hd.take j).length = j := by
        rw [List.length_take]
        omega
      have hdlen : (hd.drop j).length = msgSize - j := by rw [List.length_drop, hlen]
      have hiclen : icbuf.head.length = j := by rw [hic]; exact hjlen
      have hwf : Wf icbuf := by
        rw [hic]
        exact .short _ (by rwa [hjlen])
      rw [List.flatMap_cons] at hstream
      cases hcall with
      | stop hzero =>
          -- nothing at all in the chunk
          rw [List.eq_nil_of_length_eq_zero (Nat.le_zero.mp hzero), List.nil_append] at hstream
          exact ih hne j tail hic hpos hj hlen hid hstream
      | step hlt hturn hturns =>
          by_cases hfill : msgSize - j ≤ c.recv.length
          · -- the header is completed, with the right bytes
            rw [← List.drop_zero (l := c.recv)] at hstream
            obtain ⟨hwin, -⟩ := window_of_append hstream (by rw [hdlen]; omega)
            rw [hdlen] at hwin
            have hfilled : filled c.recv ⟨icbuf, c.len0, 0⟩ = hd := by
              rw [filled, hic]
              show hd.take j ++ window c.recv 0 (msgSize - (hd.take j).length) = hd
              rw [hjlen, hwin, List.take_append_drop]
            obtain ⟨size, hsize, hmax, hcase⟩ := hturn.first hwf
              (show msgSize - icbuf.head.length ≤ _ by rwa [hiclen]) hfilled hid
            have hle : size ≤ MAXLINE := by
              have hheld : held icbuf = [] := by rw [hic]; rfl
              have : blockEnd ⟨icbuf, c.len0, 0⟩ size
                  = headEnd ⟨icbuf, c.len0, 0⟩ + (size - (held icbuf).length) := rfl
              rw [hheld, List.length_nil] at this
              omega
            have hdone : ∀ q : List UInt8, toInt (ofBE (hd.drop 4)) = q.length →
                toInt (ofBE (hd.drop 4)) = q.length ∧ q.length ≤ MAXLINE := by
              intro q hq
              rw [hsize] at hq
              exact ⟨hsize.trans hq, by omega⟩
            rcases hcase with ⟨rfl, hhd', -⟩ | ⟨q, rfl, hq, -⟩
            · have hwf' := hturn.wf hwf
              rcases hturns.first_of_complete hwf' hhd' hlen hid with
                ⟨rfl, hhd''⟩ | ⟨q, ds₂, rfl, hq⟩
              · rcases hrest.first_of_complete (hturns.wf hwf') hhd'' hlen hid with
                  ⟨rfl, -⟩ | ⟨q, ds₂, rfl, hq⟩
                · exact absurd rfl hne
                · exact ⟨q, ds₂, rfl, hdone q hq⟩
              · exact ⟨q, _, rfl, hdone q hq⟩
            · exact ⟨q, _, rfl, hdone q (by rw [hsize, hq])⟩
          · -- a piece of the header, and the call is over
            obtain ⟨hrecv, hlater⟩ := front_of_append hstream (by rw [hdlen]; omega)
            rw [← hiclen] at hfill
            cases hturn with
            | direct _ hfill' => exact absurd hfill' hfill
            | pending _ hfill' => exact absurd hfill' hfill
            | complete _ hfill' => exact absurd hfill' hfill
            | short _ _ _ =>
                cases hturns with
                | step hlt' => exact absurd hlt' (by simp)
                | stop _ =>
                    refine ih hne (j + c.recv.length) tail ?_ (by omega) (by omega) hlen hid ?_
                    · have hwin : window c.recv 0 c.recv.length = c.recv := by
                        rw [window_of_le (by omega), List.drop_zero, List.take_length]
                      rw [hic, hwin, List.take_add, ← hrecv]
                    · rw [hlater, List.drop_drop]

end First

/-! ### Bytes that were skipped -/

/-- How many bytes that are not zero a state has kept. -/
def weight (icbuf : IncompleteBuf) : Nat := nonzero icbuf.head + (held icbuf).length

/-- How many bytes that are not zero a delivered control message and its header have. -/
def worth : Act → Nat
  | .solve q => nonzero (be32 q.length) + q.length
  | _ => 0

/-- A state without a payload block holds nothing of a payload. -/
@[simp] theorem held_head (head : List UInt8) : held { head := head } = [] := rfl

theorem nonzero_filled (recv : List UInt8) (s : Loop) :
    nonzero (filled recv s) + nonzero (recv.drop (headEnd s))
      = nonzero s.icbuf.head + nonzero (recv.drop s.offset) := by
  rw [filled, nonzero_append, headEnd, Nat.add_assoc, nonzero_window]

theorem nonzero_filledBlock (recv : List UInt8) {s : Loop} (size : Nat) (hwf : Wf s.icbuf) :
    nonzero (filledBlock recv s size) + nonzero (recv.drop (blockEnd s size))
      = (held s.icbuf).length + nonzero (recv.drop (headEnd s)) := by
  rw [filledBlock, nonzero_append, blockEnd, Nat.add_assoc, nonzero_window,
    nonzero_of_not_mem hwf.zero_not_mem_held]

/-- The header of a control message is as heavy as the length it announces. -/
theorem nonzero_be32_le {hd : List UInt8} {size : Nat} (hlen : hd.length = msgSize)
    (hsize : toInt (ofBE (hd.drop 4)) = size) : nonzero (be32 size) ≤ nonzero hd := by
  have hfour : (hd.drop 4).length = 4 := by rw [List.length_drop, hlen]; rfl
  rw [← eq_of_toInt_eq (ofBE_lt hfour) hsize, be32_ofBE hfour]
  conv_rhs => rw [← List.take_append_drop 4 hd, nonzero_append]
  exact Nat.le_add_left _ _

/-- A turn keeps and delivers no more than what it found. -/
theorem Turn.weight {env : Env} {recv : List UInt8} {s s' : Loop} {ds : List Act}
    (hturn : Turn env recv s ds s') (hwf : Wf s.icbuf) :
    weight s'.icbuf + (ds.map worth).sum + nonzero (recv.drop s'.offset)
      ≤ weight s.icbuf + nonzero (recv.drop s.offset) := by
  have hlen := @length_filled recv s hwf.head_le
  have hhead := nonzero_filled recv s
  cases hturn with
  | short hshort _ _ =>
      -- the header takes the rest of the chunk
      have hwin := nonzero_window recv s.offset recv.length
      simp only [Multiplexer.weight, held_head, nonzero_append, List.map_nil, List.sum_nil,
        List.length_nil]
      omega
  | direct client _ _ hid _ _ =>
      -- a direct message is worth nothing
      have hnone : ((callbackOf recv client).map worth).sum = 0 := by
        unfold callbackOf
        split <;> rfl
      simp only [Multiplexer.weight, held_head, hnone, List.length_nil]
      omega
  | pending size _ _ hsize _ _ =>
      -- of the block only the bytes before its first zero are kept
      have hblock := nonzero_filledBlock recv size hwf
      have hle := cstrlen_le_nonzero (filledBlock recv s size)
      have htake := cstrlen_le_length (filledBlock recv s size)
      simp only [Multiplexer.weight, List.map_nil, List.sum_nil]
      rw [held, Option.getD_some, List.length_take, Nat.min_eq_left htake]
      omega
  | complete size _ _ hsize _ hzero _ =>
      have hblock := nonzero_filledBlock recv size hwf
      -- the block is handed over whole, since no byte of it is zero
      rw [nonzero_of_not_mem hzero] at hblock
      have hle := (hwf.block hsize).2.2
      rw [hwf.bufSize_eq] at hle
      have hblen : (filledBlock recv s size).length = size := by
        rw [filledBlock, List.length_append, length_window]
        omega
      have hbe := nonzero_be32_le hlen hsize
      simp only [Multiplexer.weight, List.map_cons, List.map_nil, List.sum_cons, List.sum_nil,
        worth, hblen, held_head, nonzero_nil, List.length_nil]
      rw [hblen] at hblock
      omega

theorem Turns.weight {env : Env} {recv : List UInt8} {s s' : Loop} {ds : List Act}
    (hturns : Turns env recv s ds s') (hwf : Wf s.icbuf) :
    Multiplexer.weight s'.icbuf + (ds.map worth).sum
      ≤ Multiplexer.weight s.icbuf + nonzero (recv.drop s.offset) := by
  induction hturns with
  | stop _ => exact Nat.le_add_right _ _
  | step _ hturn _ ih =>
      have := ih (hturn.wf hwf)
      have := hturn.weight hwf
      rw [List.map_append, List.sum_append]
      omega

theorem Received.weight {env : Env} {calls : List Call} {icbuf icbuf' : IncompleteBuf}
    {ds : List Act} (h : Received env icbuf calls ds icbuf') (hwf : Wf icbuf) :
    Multiplexer.weight icbuf' + (ds.map worth).sum
      ≤ Multiplexer.weight icbuf + nonzero (calls.flatMap (·.recv)) := by
  induction h with
  | nil => exact Nat.le_add_right _ _
  | @cons icbuf icbuf' c cs ds ds' s hcall _ ih =>
      have hrest := ih (hcall.wf hwf)
      have hturns : Multiplexer.weight s.icbuf + (ds.map worth).sum
          ≤ Multiplexer.weight icbuf + nonzero (c.recv.drop 0) := hcall.weight hwf
      rw [List.drop_zero] at hturns
      rw [List.map_append, List.sum_append, List.flatMap_cons, nonzero_append]
      omega

/-- The stream of payloads without zeros is worth as much as their delivery. -/
theorem worth_stream {ps : List (List UInt8)} (hps : Payloads ps) :
    ((ps.map Act.solve).map worth).sum = nonzero (stream ps) := by
  induction ps with
  | nil => rfl
  | cons p ps ih =>
      rw [List.map_cons, List.map_cons, List.sum_cons, ih hps.tail, stream_cons, nonzero_append,
        nonzero_append, nonzero_of_not_mem hps.head.2.1, header, nonzero_append, worth]
      have hzero : nonzero (be32 0) = 0 := by decide
      omega

end Ndsl.Proofs.Multiplexer
