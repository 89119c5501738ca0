import Ndsl.Proofs.Multiplexer.Run

/-!
# `Ndsl.Proofs.Multiplexer.Stream`: a state of the parser as a place in the stream

`At k ps icbuf` says that `icbuf` holds exactly the first `k` bytes of the stream of the
payloads `ps`, where `k` lies inside the first frame. The lemmas compute, for an iteration
begun in such a state, the header and the payload block it fills, as pieces of the stream. Other
bytes, the `tail`, may come behind the stream.
-/

set_option autoImplicit false

namespace Ndsl.Proofs.Multiplexer

open Ndsl.Lib
open Ndsl.Net (MAXLINE toInt toInt_of_lt)
open Ndsl.Net.Multiplexer

/-! ### The stream -/

/-- The header of a control message. -/
def header (p : List UInt8) : List UInt8 := be32 0 ++ be32 p.length

/-- The bytes of the payloads, framed as control messages. -/
def stream (ps : List (List UInt8)) : List UInt8 := ps.flatMap (frame 0)

@[simp] theorem stream_nil : stream [] = [] := rfl

@[simp] theorem length_header (p : List UInt8) : (header p).length = msgSize := by
  rw [header, List.length_append, length_be32, length_be32, msgSize]

theorem stream_cons (p : List UInt8) (ps : List (List UInt8)) :
    stream (p :: ps) = header p ++ (p ++ stream ps) := by
  rw [stream, List.flatMap_cons, ← stream, ← List.append_assoc]
  rfl

/-- The stream with something behind it. -/
theorem stream_cons_append (p : List UInt8) (ps : List (List UInt8)) (tail : List UInt8) :
    stream (p :: ps) ++ tail = header p ++ (p ++ (stream ps ++ tail)) := by
  rw [stream_cons, List.append_assoc, List.append_assoc]

theorem header_id (p : List UInt8) : toInt (ofBE ((header p).take 4)) = 0 := by
  have htake : (header p).take 4 = be32 0 := rfl
  rw [htake]
  decide

theorem header_len {p : List UInt8} (h : p.length < 2 ^ 31) :
    toInt (ofBE ((header p).drop 4)) = p.length := by
  have hdrop : (header p).drop 4 = be32 p.length := rfl
  rw [hdrop, ofBE_be32, Nat.mod_eq_of_lt (by omega), toInt_of_lt h]

/-- The stream from a place inside the first header on. -/
theorem drop_stream_of_le {p tail : List UInt8} {ps : List (List UInt8)} {k : Nat}
    (h : k ≤ msgSize) :
    (stream (p :: ps) ++ tail).drop k = (header p).drop k ++ (p ++ (stream ps ++ tail)) := by
  rw [stream_cons_append, List.drop_append_of_le_length (by rwa [length_header])]

/-- The stream from a place inside the first payload on. -/
theorem drop_stream_of_ge {p tail : List UInt8} {ps : List (List UInt8)} {k : Nat}
    (h : msgSize ≤ k) (h' : k ≤ msgSize + p.length) :
    (stream (p :: ps) ++ tail).drop k = p.drop (k - msgSize) ++ (stream ps ++ tail) := by
  obtain ⟨m, rfl⟩ : ∃ m, k = msgSize + m := ⟨k - msgSize, by omega⟩
  rw [stream_cons_append, Nat.add_sub_cancel_left, ← List.drop_drop,
    List.drop_left' (length_header p), List.drop_append_of_le_length (by omega)]

/-! ### Places in the stream -/

/-- `icbuf` holds the first `k` bytes of the stream of `ps`. -/
inductive At (k : Nat) : List (List UInt8) → IncompleteBuf → Prop
  | head (ps : List (List UInt8)) (hk : k < msgSize) (hps : ps = [] → k = 0) :
      At k ps { head := (stream ps).take k }
  | body (p : List UInt8) (ps : List (List UInt8)) (icbuf : IncompleteBuf)
      (hwf : Wf icbuf) (hk : msgSize ≤ k) (hlt : k < msgSize + p.length)
      (hhead : icbuf.head = header p) (hheld : held icbuf = p.take (k - msgSize))
      (hmax : p.length ≤ MAXLINE) : At k (p :: ps) icbuf

theorem At.wf {k : Nat} {ps : List (List UInt8)} {icbuf : IncompleteBuf} (h : At k ps icbuf) :
    Wf icbuf := by
  cases h with
  | head ps hk hps => exact .short _ (Nat.lt_of_le_of_lt (List.length_take_le _ _) hk)
  | body p ps icbuf hwf => exact hwf

theorem at_empty (ps : List (List UInt8)) : At 0 ps {} := .head ps (by decide) (fun _ => rfl)

/-- Between two frames nothing is held. -/
theorem At.eq_empty {ps : List (List UInt8)} {icbuf : IncompleteBuf} (h : At 0 ps icbuf) :
    icbuf = {} := by
  cases h with
  | head _ _ _ => rfl
  | body _ _ _ _ hk => exact absurd hk (by decide)

/-- At the end of the stream nothing is held. -/
theorem At.of_nil {k : Nat} {icbuf : IncompleteBuf} (h : At k [] icbuf) : k = 0 ∧ icbuf = {} := by
  generalize hnil : ([] : List (List UInt8)) = ps at h
  cases h with
  | body => exact absurd hnil (by simp)
  | head _ _ hk =>
      subst hnil
      exact ⟨hk rfl, by simp⟩

/-- Inside the first frame. -/
theorem At.lt {k : Nat} {p : List UInt8} {ps : List (List UInt8)} {icbuf : IncompleteBuf}
    (h : At k (p :: ps) icbuf) : k < msgSize + p.length := by
  cases h with
  | head ps hk hps => omega
  | body p ps icbuf hwf hk hlt => exact hlt

/-- A place in the stream is not behind its end. -/
theorem At.le_length {k : Nat} {ps : List (List UInt8)} {icbuf : IncompleteBuf}
    (h : At k ps icbuf) : k ≤ (stream ps).length := by
  cases ps with
  | nil => exact Nat.le_of_eq h.of_nil.1
  | cons p ps =>
      have hlt := h.lt
      rw [stream_cons, List.length_append, length_header, List.length_append]
      omega

section Ready
variable {recv later tail p : List UInt8} {ps : List (List UInt8)} {s : Loop} {k : Nat}

/-- The iteration that completes a header with bytes of the stream, or finds it complete. -/
theorem At.ready (h : At k (p :: ps) s.icbuf)
    (hstream : recv.drop s.offset ++ later = (stream (p :: ps) ++ tail).drop k)
    (hready : msgSize ≤ k + (recv.length - s.offset)) :
    msgSize - s.icbuf.head.length ≤ recv.length ∧ filled recv s = header p ∧
      held s.icbuf = p.take (k - msgSize) ∧ headEnd s = s.offset + (msgSize - k) ∧
      recv.drop (headEnd s) ++ later = p.drop (k - msgSize) ++ (stream ps ++ tail) := by
  generalize hic : s.icbuf = icbuf at h
  cases h with
  | head ps' hk hps =>
      have hhead : (stream (p :: ps)).take k = (header p).take k := by
        rw [stream_cons, List.take_append_of_le_length (by rw [length_header]; omega)]
      have hlen : ((header p).take k).length = k := by
        rw [List.length_take, length_header]
        omega
      rw [drop_stream_of_le (Nat.le_of_lt hk)] at hstream
      have hx : ((header p).drop k).length = msgSize - k := by
        rw [List.length_drop, length_header]
      obtain ⟨hwin, hrest⟩ := window_of_append hstream (by rw [hx]; omega)
      rw [hx] at hwin hrest
      have hend : headEnd s = s.offset + (msgSize - k) := by
        rw [headEnd, hic, hhead, hlen]
      refine ⟨?_, ?_, ?_, hend, ?_⟩
      · rw [hhead, hlen]
        omega
      · rw [filled, hic, hhead, hlen, hwin, List.take_append_drop]
      · simp [held, Nat.sub_eq_zero_of_le (Nat.le_of_lt hk)]
      · rw [hend, hrest, Nat.sub_eq_zero_of_le (Nat.le_of_lt hk), List.drop_zero]
  | body p' ps' icbuf' hwf hk hlt hhead hheld hmax =>
      have hend : headEnd s = s.offset := by
        rw [headEnd, hic, hhead, length_header, Nat.sub_self, Nat.add_zero]
      refine ⟨?_, ?_, hheld, ?_, ?_⟩
      · rw [hhead, length_header, Nat.sub_self]
        exact Nat.zero_le _
      · rw [filled_of_eq (by rw [hic, hhead, length_header]), hic, hhead]
      · rw [hend, Nat.sub_eq_zero_of_le hk, Nat.add_zero]
      · rw [hend, hstream, drop_stream_of_ge hk (Nat.le_of_lt hlt)]

/-- How far a payload reaches. -/
theorem At.blockEnd_eq (h : At k (p :: ps) s.icbuf)
    (hstream : recv.drop s.offset ++ later = (stream (p :: ps) ++ tail).drop k)
    (hready : msgSize ≤ k + (recv.length - s.offset)) :
    blockEnd s p.length = s.offset + (msgSize + p.length - k) := by
  obtain ⟨-, -, hheld, hend, -⟩ := h.ready hstream hready
  have hlt := h.lt
  rw [blockEnd, hend, hheld, List.length_take]
  omega

/-- The whole payload has arrived. -/
theorem At.filledBlock_whole (h : At k (p :: ps) s.icbuf)
    (hstream : recv.drop s.offset ++ later = (stream (p :: ps) ++ tail).drop k)
    (hfit : s.offset + (msgSize + p.length - k) ≤ recv.length) :
    filledBlock recv s p.length = p ∧
      recv.drop (blockEnd s p.length) ++ later = stream ps ++ tail := by
  have hlt := h.lt
  obtain ⟨-, -, hheld, hend, hrest⟩ := h.ready hstream (by omega)
  have hlen : p.length - (held s.icbuf).length = (p.drop (k - msgSize)).length := by
    rw [hheld, List.length_take, List.length_drop]
    omega
  obtain ⟨hwin, hdrop⟩ := window_of_append hrest (by rw [List.length_drop]; omega)
  rw [filledBlock, blockEnd, hlen, hwin, hheld, List.take_append_drop]
  exact ⟨rfl, hdrop⟩

/-- Only a part of the payload has arrived. -/
theorem At.filledBlock_part (h : At k (p :: ps) s.icbuf)
    (hstream : recv.drop s.offset ++ later = (stream (p :: ps) ++ tail).drop k)
    (hle : s.offset ≤ recv.length) (hready : msgSize ≤ k + (recv.length - s.offset))
    (hstop : recv.length < s.offset + (msgSize + p.length - k)) :
    ∃ n, filledBlock recv s p.length
        = p.take (k + (recv.length - s.offset) - msgSize) ++ List.replicate (n + 1) 0 ∧
      later = (stream (p :: ps) ++ tail).drop (k + (recv.length - s.offset)) := by
  have hlt := h.lt
  obtain ⟨-, -, hheld, hend, hrest⟩ := h.ready hstream hready
  have hlen : p.length - (held s.icbuf).length = (p.drop (k - msgSize)).length := by
    rw [hheld, List.length_take, List.length_drop]
    omega
  obtain ⟨hwin, hlater⟩ := window_of_short hrest (by omega) (by rw [List.length_drop]; omega)
  have htake : p.take (k - msgSize) ++ (p.drop (k - msgSize)).take (recv.length - headEnd s)
      = p.take (k + (recv.length - s.offset) - msgSize) := by
    rw [← List.take_add]
    congr 1
    omega
  obtain ⟨n, hn⟩ : ∃ n, headEnd s + (p.drop (k - msgSize)).length - recv.length = n + 1 := by
    refine ⟨headEnd s + (p.drop (k - msgSize)).length - recv.length - 1, ?_⟩
    rw [List.length_drop]
    omega
  refine ⟨n, ?_, ?_⟩
  · rw [filledBlock, hlen, hwin, hn, hheld, ← List.append_assoc, htake]
  · rw [hlater, drop_stream_of_ge hready (by omega), List.drop_drop]
    congr 2
    omega

end Ready

end Ndsl.Proofs.Multiplexer
