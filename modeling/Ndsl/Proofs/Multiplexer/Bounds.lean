import Ndsl.Proofs.Multiplexer.Progress

/-!
# `Ndsl.Proofs.Multiplexer.Bounds`: when a call of `dispatch` stays in bounds

`InBounds` is what the memory of one access allows, and `StaysInBounds` asks it of every access
of a call, also of one that never returns. `staysInBounds_iff` says that a call stays in bounds
exactly when its chunk `Fits` for that: the headers and payloads are whole, every payload block
has a zero in it, and a direct message has a client, whatever stands behind its header. A control
message without zeros that has arrived as a whole never fits.
-/

set_option autoImplicit false

namespace Ndsl.Proofs.Multiplexer

open Ndsl.Lib
open Ndsl.Net (MAXLINE toInt toSize toSize_of_neg toSize_of_nonneg)
open Ndsl.Net.Multiplexer

/-- An access of a call that received `recvLen` bytes stays inside its object: the received
bytes, the header, the payload block. -/
def InBounds (recvLen : Nat) : Act → Prop
  | .readRecv pos n => ∀ i < n, pos + i < recvLen
  | .writeHead pos n => ∀ i < n, pos + i < msgSize
  | .writeBuf pos n size => ∀ i < n, pos + i < size
  | .readString stop size => stop < size
  | .readNull => False
  | .readEnd => False
  | .solve _ => True
  | .dataCallback .. => True

/-- Every access of the call is in bounds, however long it runs. -/
def StaysInBounds (env : Env) (icbuf : IncompleteBuf) (c : Call) : Prop :=
  ∀ fuel, ∀ a ∈ (dispatch env fuel icbuf c).log, InBounds c.recv.length a

/-- What an iteration needs to find to stay in bounds. -/
abbrev IterationInBounds (env : Env) (recv : List UInt8) (s : Loop) : Prop :=
  Finds (fun _ => False) (fun _ => True) env recv s

/-! ### The accesses of one iteration -/

section Log
variable {env : Env} {recv : List UInt8} {s : Loop}

/-- An iteration begins with the copy into the header. -/
theorem mem_log_fillHead {a : Act}
    (ha : a ∈ [Act.readRecv s.offset (fillSize recv s.icbuf.head),
      .writeHead s.icbuf.head.length (fillSize recv s.icbuf.head)]) :
    a ∈ (body env recv s).log := by
  unfold body
  refine Traced.mem_log_bind _ ?_
  rw [fillHead]
  exact Traced.mem_log_tell_bind _ ha

/-- The rest of an iteration that completes the header. -/
theorem log_body_filled (hfill : msgSize - s.icbuf.head.length ≤ recv.length)
    (hmax : headEnd s ≤ MAXLINE) :
    (body env recv s).log
      = headActs s ++ (fillData env recv (withHead recv s) >>= finish env).log := by
  have hhead : (fillHead recv s).Yields (headActs s) (withHead recv s) := by
    rw [fillHead_yields, fillSize_of_le hfill]
    exact ⟨hmax, rfl, rfl⟩
  exact hhead.log_bind _

/-- Without a payload block and with a `len` of zero, an iteration ends at a `NULL` string. -/
theorem readNull_mem_finish (head : List UInt8) (offset : Nat) :
    Act.readNull ∈ (finish env { icbuf := { head := head }, len := 0, offset := offset }).log := by
  show _ ∈ ((solve env none) >>= _).log
  refine Traced.mem_log_bind _ ?_
  simp [solve]

/-- The trace of an iteration whose chunk is shorter than what the header lacks. -/
theorem readNull_mem_short (hwf : Wf s.icbuf) (hmax : s.offset + recv.length ≤ MAXLINE)
    (hshort : recv.length < msgSize - s.icbuf.head.length) (hlen : s.len = 0) :
    Act.readNull ∈ (body env recv s).log := by
  have hic := hwf.of_short (by omega)
  have hhead : (fillHead recv s).Yields _ _ :=
    fillHead_yields.mpr ⟨by rwa [fillSize_of_lt hshort], rfl, rfl⟩
  unfold body
  rw [hhead.log_bind]
  refine List.mem_append_right _ ?_
  have hdata : fillData env recv
      { s with
        icbuf := { s.icbuf with
          head := s.icbuf.head ++ window recv s.offset (fillSize recv s.icbuf.head) }
        offset := s.offset + fillSize recv s.icbuf.head } = pure _ := if_neg (by
      rw [List.length_append, length_window, fillSize_of_lt hshort]
      omega)
  rw [hdata, Traced.pure_bind, hlen, hic]
  exact readNull_mem_finish _ _

/-- The trace of an iteration for a registered client with a `len` of zero. -/
theorem readNull_mem_direct (hwf : Wf s.icbuf)
    (hfill : msgSize - s.icbuf.head.length ≤ recv.length) (hmax : headEnd s ≤ MAXLINE)
    (hid : toInt (ofBE ((filled recv s).take 4)) ≠ 0) {client : DTPClient}
    (hclient : lookup env (toInt (ofBE ((filled recv s).take 4))) = some client)
    (hlen : s.len = 0) : Act.readNull ∈ (body env recv s).log := by
  have hdata : (fillData env recv (withHead recv s)).Yields (callbackOf recv client)
      (withHead recv s) := by
    rw [fillData_withHead hwf, if_pos hid, Traced.bind_yields]
    exact ⟨_, (), [], direct_yields.mpr ⟨client, hclient, rfl⟩, ⟨rfl, rfl⟩, by simp⟩
  have hhead : withHead recv s =
      { icbuf := { head := filled recv s }, len := 0, offset := headEnd s } := by
    rw [withHead, hwf.of_direct (.inl hid), hlen]
  rw [log_body_filled hfill hmax, hdata.log_bind, hhead]
  exact List.mem_append_right _ (List.mem_append_right _ (readNull_mem_finish _ _))

/-- The look-up of an id without a client comes to the end of a map, and reads there. -/
theorem log_direct_of_none {id : Int} (hclient : lookup env id = none) :
    (direct env recv id).log = [.readEnd] := by
  unfold lookup at hclient
  unfold direct
  cases hconn : env.connMp_ env.conn with
  | none => rfl
  | some mp =>
      rw [hconn, Option.bind_some] at hclient
      simp [hclient]

/-- The trace of an iteration for an id without a client. -/
theorem readEnd_mem_nobody (hwf : Wf s.icbuf)
    (hfill : msgSize - s.icbuf.head.length ≤ recv.length) (hmax : headEnd s ≤ MAXLINE)
    (hid : toInt (ofBE ((filled recv s).take 4)) ≠ 0)
    (hclient : lookup env (toInt (ofBE ((filled recv s).take 4))) = none) :
    Act.readEnd ∈ (body env recv s).log := by
  rw [log_body_filled hfill hmax, fillData_withHead hwf, if_pos hid]
  refine List.mem_append_right _ (Traced.mem_log_bind _ (Traced.mem_log_bind _ ?_))
  rw [log_direct_of_none hclient]
  exact List.mem_cons_self ..

theorem readRecv_mem_fillBuf (env : Env) (recv : List UInt8) (s : Loop) :
    Act.readRecv s.offset (toSize (s.icbuf.len - s.icbuf.bufSize))
      ∈ (fillBuf env recv s).log := by
  rw [fillBuf]
  exact Traced.mem_log_tell_bind _ (List.mem_cons_self ..)

/-- The copy of a payload part is in the trace, whether it is possible or not. -/
theorem readRecv_mem_control (hwf : Wf s.icbuf)
    (hfill : msgSize - s.icbuf.head.length ≤ recv.length) (hmax : headEnd s ≤ MAXLINE)
    (hid : toInt (ofBE ((filled recv s).take 4)) = 0) :
    Act.readRecv (headEnd s)
      (toSize (toInt (ofBE ((filled recv s).drop 4)) - (held s.icbuf).length))
      ∈ (body env recv s).log := by
  have hmem := readRecv_mem_fillBuf env recv (withHead recv s)
  have hlen : (withHead recv s).icbuf.len = toInt (ofBE ((filled recv s).drop 4)) := rfl
  have hbs : (withHead recv s).icbuf.bufSize = (held s.icbuf).length := hwf.bufSize_eq
  have hoff : (withHead recv s).offset = headEnd s := rfl
  rw [hlen, hbs, hoff] at hmem
  rw [log_body_filled hfill hmax, fillData_withHead hwf, if_neg (not_not.mpr hid)]
  exact List.mem_append_right _ (Traced.mem_log_bind _ hmem)

/-- The measuring of a payload block is in the trace once the copy was possible. -/
theorem readString_mem_control {size : Nat} (hwf : Wf s.icbuf)
    (hfill : msgSize - s.icbuf.head.length ≤ recv.length)
    (hid : toInt (ofBE ((filled recv s).take 4)) = 0)
    (hsize : toInt (ofBE ((filled recv s).drop 4)) = size) (hmax : blockEnd s size ≤ MAXLINE) :
    Act.readString (cstrlen (filledBlock recv s size)) size ∈ (body env recv s).log := by
  rw [log_body_filled hfill (Nat.le_trans (Nat.le_add_right _ _) hmax)]
  refine List.mem_append_right _ (Traced.mem_log_bind _ ?_)
  rw [fillData_withHead hwf, if_neg (not_not.mpr hid), fillBuf_withHead hwf hsize,
    Traced.log_tell_bind, if_neg (Nat.not_lt_of_le hmax)]
  refine List.mem_append_right _ (Traced.mem_log_bind _ ?_)
  unfold strlen
  rw [Traced.log_tell_bind, length_filledBlock hwf hsize]
  exact List.mem_append_left _ (List.mem_cons_self ..)

end Log

/-! ### When an iteration stays in bounds -/

section Needs
variable {env : Env} {recv : List UInt8} {s : Loop}

/-- A copy into the header that stays in bounds finds the whole header. -/
theorem headEnd_le_of_log (hlt : s.offset < recv.length)
    (hfill : msgSize - s.icbuf.head.length ≤ recv.length)
    (h : ∀ a ∈ (body env recv s).log, InBounds recv.length a) : headEnd s ≤ recv.length := by
  have hhead := h _ (mem_log_fillHead (List.mem_cons_self ..))
  rw [InBounds, fillSize_of_le hfill] at hhead
  unfold headEnd
  by_cases hfull : msgSize - s.icbuf.head.length = 0
  · omega
  · have := hhead (msgSize - s.icbuf.head.length - 1) (by omega)
    omega

/-- A copy of a payload part that stays in bounds is one of a possible length: a negative
length is a copy without an end. -/
theorem length_nonneg_of_log (hwf : Wf s.icbuf)
    (hfill : msgSize - s.icbuf.head.length ≤ recv.length) (hmax : recv.length ≤ MAXLINE)
    (hend : headEnd s ≤ recv.length) (hid : toInt (ofBE ((filled recv s).take 4)) = 0)
    (h : ∀ a ∈ (body env recv s).log, InBounds recv.length a) :
    0 ≤ toInt (ofBE ((filled recv s).drop 4)) := by
  have hcopy := h _ (readRecv_mem_control hwf hfill (Nat.le_trans hend hmax) hid)
  rw [InBounds] at hcopy
  by_contra hneg
  rw [Int.not_le] at hneg
  have hheld : (held s.icbuf).length = 0 := by
    rw [hwf.of_direct (.inr hneg)]
    rfl
  have hint := neg_le_toInt (ofBE ((filled recv s).drop 4))
  generalize toInt (ofBE ((filled recv s).drop 4)) = len at hcopy hneg hint
  rw [hheld, Int.natCast_zero, Int.sub_zero] at hcopy
  have hhuge := toSize_of_neg hneg (by omega)
  have hpast := hcopy recv.length
    (Nat.lt_of_lt_of_le (Nat.lt_of_le_of_lt hmax (by decide)) hhuge)
  omega

/-- A copy of a payload part that stays in bounds finds the rest of the payload. -/
theorem blockEnd_le_of_log {size : Nat} (hwf : Wf s.icbuf)
    (hfill : msgSize - s.icbuf.head.length ≤ recv.length) (hmax : recv.length ≤ MAXLINE)
    (hend : headEnd s ≤ recv.length) (hid : toInt (ofBE ((filled recv s).take 4)) = 0)
    (hsize : toInt (ofBE ((filled recv s).drop 4)) = size)
    (h : ∀ a ∈ (body env recv s).log, InBounds recv.length a) :
    blockEnd s size ≤ recv.length := by
  have hcopy := h _ (readRecv_mem_control hwf hfill (Nat.le_trans hend hmax) hid)
  obtain ⟨-, -, hle⟩ := hwf.block hsize
  rw [hwf.bufSize_eq] at hle
  have hbound := lt_of_toInt_eq hsize
  rw [InBounds, hsize, toSize_of_nonneg (by omega) (by omega)] at hcopy
  unfold blockEnd
  by_cases hfull : size - (held s.icbuf).length = 0
  · omega
  · have := hcopy (size - (held s.icbuf).length - 1) (by omega)
    omega

/-- A string read that stays in bounds finds a zero. -/
theorem zero_mem_of_log {size : Nat} (hwf : Wf s.icbuf)
    (hfill : msgSize - s.icbuf.head.length ≤ recv.length) (hmax : blockEnd s size ≤ MAXLINE)
    (hid : toInt (ofBE ((filled recv s).take 4)) = 0)
    (hsize : toInt (ofBE ((filled recv s).drop 4)) = size)
    (h : ∀ a ∈ (body env recv s).log, InBounds recv.length a) :
    0 ∈ filledBlock recv s size := by
  have hstop := h _ (readString_mem_control hwf hfill hid hsize hmax)
  by_contra hzero
  rw [InBounds, cstrlen_of_not_mem hzero, length_filledBlock hwf hsize] at hstop
  exact Nat.lt_irrefl _ hstop

/-- An iteration that stays in bounds has found what it needs. -/
theorem IterationInBounds.of_log (hwf : Wf s.icbuf) (hmax : recv.length ≤ MAXLINE)
    (hlt : s.offset < recv.length) (h : ∀ a ∈ (body env recv s).log, InBounds recv.length a) :
    IterationInBounds env recv s := by
  rcases Nat.lt_or_ge recv.length (msgSize - s.icbuf.head.length) with hshort | hfill
  · -- the copy of `recvLen` bytes begins at the front of the chunk
    have hhead := h _ (mem_log_fillHead (List.mem_cons_self ..))
    rw [InBounds, fillSize_of_lt hshort] at hhead
    have hoff : s.offset = 0 := by
      have := hhead (recv.length - 1) (by omega)
      omega
    refine .short hshort hoff fun hlen => ?_
    exact h _ (readNull_mem_short hwf (by omega) hshort hlen)
  · have hend := headEnd_le_of_log hlt hfill h
    rcases eq_or_ne (toInt (ofBE ((filled recv s).take 4))) 0 with hid | hid
    · obtain ⟨size, hsize⟩ :=
        Int.eq_ofNat_of_zero_le (length_nonneg_of_log hwf hfill hmax hend hid h)
      have hblock := blockEnd_le_of_log hwf hfill hmax hend hid hsize h
      exact .control size hfill hid hsize hblock
        (.inl (zero_mem_of_log hwf hfill (Nat.le_trans hblock hmax) hid hsize h))
    · have hendMax := Nat.le_trans hend hmax
      rcases hclient : lookup env (toInt (ofBE ((filled recv s).take 4))) with _ | client
      · exact absurd (h _ (readEnd_mem_nobody hwf hfill hendMax hid hclient)) id
      · refine .direct client hfill hend hid hclient (fun hlen => ?_) trivial
        exact h _ (readNull_mem_direct hwf hfill hendMax hid hclient hlen)

/-- The two accesses by which an iteration completes the header. -/
theorem inBounds_headActs (hwf : Wf s.icbuf) (hend : headEnd s ≤ recv.length) {a : Act}
    (ha : a ∈ headActs s) : InBounds recv.length a := by
  have hhead := hwf.head_le
  unfold headEnd at hend
  simp only [headActs, List.mem_cons, List.not_mem_nil, or_false] at ha
  rcases ha with rfl | rfl
  · intro i hi
    omega
  · intro i hi
    omega

theorem inBounds_callbackOf {client : DTPClient} {n : Nat} {a : Act}
    (ha : a ∈ callbackOf recv client) : InBounds n a := by
  unfold callbackOf at ha
  split at ha
  · exact absurd ha (List.not_mem_nil)
  · obtain rfl := List.mem_singleton.mp ha
    trivial

/-- The accesses to the payload. -/
theorem inBounds_control {size : Nat} (hwf : Wf s.icbuf)
    (hsize : toInt (ofBE ((filled recv s).drop 4)) = size)
    (hend : blockEnd s size ≤ recv.length) (hzero : 0 ∈ filledBlock recv s size) {a : Act}
    (ha : a ∈ [Act.readRecv (headEnd s) (size - (held s.icbuf).length),
      .writeBuf (held s.icbuf).length (size - (held s.icbuf).length) size,
      .readString (cstrlen (filledBlock recv s size)) size]) : InBounds recv.length a := by
  obtain ⟨-, -, hle⟩ := hwf.block hsize
  rw [hwf.bufSize_eq] at hle
  unfold blockEnd at hend
  simp only [List.mem_cons, List.not_mem_nil, or_false] at ha
  rcases ha with rfl | rfl | rfl
  · intro i hi
    omega
  · intro i hi
    omega
  · have hlen := length_filledBlock hwf hsize
    refine Nat.lt_of_le_of_ne (Nat.le_trans (cstrlen_le_length _) (Nat.le_of_eq hlen)) fun h => ?_
    exact (cstrlen_eq_length_iff _).mp (h.trans hlen.symm) hzero

/-- An iteration that finds what it needs stays in bounds. -/
theorem IterationInBounds.log (hwf : Wf s.icbuf) (hmax : recv.length ≤ MAXLINE)
    (hok : IterationInBounds env recv s) {a : Act} (ha : a ∈ (body env recv s).log) :
    InBounds recv.length a := by
  cases hok with
  | short hshort hoff hlen =>
      have hbody := (@body_short_yields env recv s _ _ hwf hshort).mpr
        ⟨by omega, hlen, rfl, rfl⟩
      rw [hbody.1, hoff] at ha
      simp only [List.mem_cons, List.not_mem_nil, or_false] at ha
      rcases ha with rfl | rfl
      · intro i hi
        omega
      · intro i hi
        omega
  | direct client hfill hend hid hclient hlen _ =>
      have hbody := (body_direct_yields hwf hfill hid).mpr
        ⟨Nat.le_trans hend hmax, hlen, client, hclient, rfl, rfl⟩
      rw [hbody.1, List.mem_append] at ha
      rcases ha with ha | ha
      · exact inBounds_headActs hwf hend ha
      · exact inBounds_callbackOf ha
  | control size hfill hid hsize hend hblock =>
      have hzero := hblock.resolve_right id
      have hbody := (@body_control_yields env recv s _ _ size hwf hfill hid hsize).mpr
        ⟨Nat.le_trans hend hmax, .inl ⟨hzero, rfl, rfl⟩⟩
      rw [hbody.1, List.mem_append] at ha
      rcases ha with ha | ha
      · exact inBounds_headActs hwf (Nat.le_trans (Nat.le_add_right _ _) hend) ha
      · exact inBounds_control hwf hsize hend hzero ha

end Needs

/-! ### A whole call -/

/-- What a call does is what its iterations do. -/
theorem log_dispatch (env : Env) (fuel : Nat) (icbuf : IncompleteBuf) (c : Call) :
    (dispatch env fuel icbuf c).log
      = (Traced.whileFuel (hasMore c.recv) (body env c.recv) fuel (start icbuf c)).log := by
  unfold dispatch start
  cases hval : (Traced.whileFuel (hasMore c.recv) (body env c.recv) fuel
      { icbuf := icbuf, len := c.len0, offset := 0 }).value with
  | none => rw [Traced.bind_of_none _ hval]
  | some s =>
      rw [Traced.bind_of_some _ hval]
      split <;> simp

/-- A call of `dispatch` stays in bounds exactly when every iteration it begins finds what it
needs. -/
theorem staysInBounds_iff_iterations {env : Env} {icbuf : IncompleteBuf} {c : Call}
    (hwf : Wf icbuf) (hmax : c.recv.length ≤ MAXLINE) :
    StaysInBounds env icbuf c ↔
      ∀ s, Begins env icbuf c s → IterationInBounds env c.recv s := by
  constructor
  · intro hbounds s hbegins
    obtain ⟨⟨n, hvisits⟩, hmore⟩ := hbegins
    have hwf' : Wf s.icbuf := Begins.wf ⟨⟨n, hvisits⟩, hmore⟩ hwf
    refine .of_log hwf' hmax (hasMore_iff.mp hmore) fun a ha => ?_
    refine hbounds (n + 1) a ?_
    rw [log_dispatch]
    exact hvisits.log_subset hmore ha
  · intro hok fuel a ha
    rw [log_dispatch] at ha
    obtain ⟨n, s, hvisits, hmore, ha⟩ := Traced.mem_log_whileFuel ha
    have hbegins : Begins env icbuf c s := ⟨⟨n, hvisits⟩, hmore⟩
    exact (hok s hbegins).log (hbegins.wf hwf) hmax ha

/-- A call of `dispatch` on a state that can be reached stays in bounds exactly when its chunk
fits: it is a piece of a header, or whole headers and payloads follow each other in it, each
payload block with a zero in it, up to its end or to the header of a direct message with a
client. -/
theorem staysInBounds_iff {env : Env} {icbuf : IncompleteBuf} {c : Call}
    (hreach : Reachable icbuf) (hmax : c.recv.length ≤ MAXLINE) :
    StaysInBounds env icbuf c ↔ Fits (fun _ => False) (fun _ => True) env icbuf c :=
  (staysInBounds_iff_iterations hreach.wf hmax).trans
    (fits_iff (fun _ h => h.elim) hreach.wf hmax)

/-- A chunk that ends in the middle of a header, and a `len` that is not zero. -/
theorem staysInBounds_iff_half :
    StaysInBounds pingEnv {} { recv := (frame 1 []).take 5, len0 := 5 } :=
  (staysInBounds_iff .init (by decide)).mpr (.inl ⟨by decide, by decide⟩)

/-- A control message of two bytes, the second of which is still to come: the copy takes both
from the receive buffer. -/
theorem split_out_of_bounds :
    Reachable {} ∧
    ¬ StaysInBounds pingEnv {} { recv := (frame 0 [104, 105]).take 9, len0 := 1 } := by
  refine ⟨.init, fun hbounds => ?_⟩
  have hread : Act.readRecv 8 2
      ∈ (dispatch pingEnv 1 {} { recv := (frame 0 [104, 105]).take 9, len0 := 1 }).log := by
    decide +kernel
  exact absurd (hbounds 1 _ hread 1 (by decide)) (by decide)

end Ndsl.Proofs.Multiplexer
