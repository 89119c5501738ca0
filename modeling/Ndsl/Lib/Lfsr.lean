import Mathlib.Data.List.GetD
import Mathlib.Logic.Function.Iterate
import Mathlib.Tactic.Common

/-!
# `Ndsl.Lib.Lfsr`: a shift register with feedback

The register of a cyclic redundancy check of width `w`: a shift moves the bits up by one and adds
the polynomial when a one falls out at the top, and each bit of a message is added at the top before
a shift. The register is linear in the message (`feed_zipWith`), and a polynomial with a constant
term makes the shift injective. So two messages whose differences lie within `w` bits leave
different registers (`feed_ne_of_burst`).
-/

set_option autoImplicit false

namespace Ndsl.Lib.Lfsr

variable {w : Nat} {poly r r' : BitVec w}

/-- One shift. -/
def shift (poly r : BitVec w) : BitVec w := if r.msb then (r <<< 1) ^^^ poly else r <<< 1

/-- The bits of a list, the first one at the top of the register. -/
def word (w : Nat) : List Bool → BitVec w
  | [] => 0#w
  | d :: bits => (if d then BitVec.twoPow w (w - 1) else 0#w) ^^^ (word w bits >>> 1)

/-- The register behind the bits of a message. -/
def feed (poly : BitVec w) (r : BitVec w) (bits : List Bool) : BitVec w :=
  bits.foldl (fun r d => shift poly (r ^^^ if d then BitVec.twoPow w (w - 1) else 0#w)) r

/-! ### The shift -/

theorem shift_xor (poly r r' : BitVec w) :
    shift poly (r ^^^ r') = shift poly r ^^^ shift poly r' := by
  have hcancel : ∀ a b : BitVec w, a ^^^ poly ^^^ (b ^^^ poly) = a ^^^ b := by
    intro a b
    rw [BitVec.xor_assoc, BitVec.xor_comm b poly, ← BitVec.xor_assoc poly, BitVec.xor_self,
      BitVec.zero_xor]
  unfold shift
  rw [BitVec.msb_xor, BitVec.shiftLeft_xor_distrib]
  cases r.msb <;> cases r'.msb
  · rfl
  · show r <<< 1 ^^^ r' <<< 1 ^^^ poly = r <<< 1 ^^^ (r' <<< 1 ^^^ poly)
    exact BitVec.xor_assoc ..
  · show r <<< 1 ^^^ r' <<< 1 ^^^ poly = r <<< 1 ^^^ poly ^^^ r' <<< 1
    rw [BitVec.xor_assoc, BitVec.xor_assoc, BitVec.xor_comm (r' <<< 1)]
  · exact (hcancel _ _).symm

@[simp] theorem shift_zero (poly : BitVec w) : shift poly 0#w = 0#w := by
  simp [shift]

/-- With a constant term only the empty register becomes empty. -/
theorem shift_eq_zero_iff (hw : 0 < w) (hpoly : poly.getLsbD 0 = true) :
    shift poly r = 0#w ↔ r = 0#w := by
  constructor
  · intro h
    cases hmsb : r.msb with
    | true =>
        -- the lowest bit is the one of the polynomial
        have hlow := congrArg (BitVec.getLsbD · 0) h
        simp [shift, hmsb, hpoly] at hlow
    | false =>
        rw [shift, hmsb, if_neg Bool.false_ne_true] at h
        apply BitVec.eq_of_getLsbD_eq
        intro i hi
        by_cases htop : i = w - 1
        · rw [htop]
          simpa [BitVec.msb, BitVec.getMsbD, hw] using hmsb
        · have hnext := congrArg (BitVec.getLsbD · (i + 1)) h
          have hlt : i + 1 < w := by omega
          rw [BitVec.getLsbD_shiftLeft] at hnext
          simpa [hlt] using hnext
  · rintro rfl
    exact shift_zero poly

/-! ### Bits -/

/-- A bit of a word. -/
theorem getLsbD_word (bits : List Bool) : ∀ i, i < w →
    (word w bits).getLsbD i = bits.getD (w - 1 - i) false := by
  induction bits with
  | nil => simp [word]
  | cons d bits ih =>
      intro i hi
      have hpoint : (if d then BitVec.twoPow w (w - 1) else 0#w).getLsbD i =
          (d && decide (i = w - 1)) := by
        cases d with
        | false => simp
        | true =>
            rw [if_pos rfl, BitVec.getLsbD_twoPow, Bool.true_and]
            have hiff : (w - 1 < w ∧ w - 1 = i) ↔ i = w - 1 := by omega
            rw [← Bool.decide_and, decide_eq_decide]
            exact hiff
      rw [word, BitVec.getLsbD_xor, BitVec.getLsbD_ushiftRight, hpoint]
      by_cases htop : i = w - 1
      · have hout : (word w bits).getLsbD (1 + i) = false := BitVec.getLsbD_of_ge _ _ (by omega)
        rw [hout, htop, Nat.sub_self, List.getD_cons_zero]
        simp
      · rw [ih (1 + i) (by omega)]
        have hindex : w - 1 - i = (w - 1 - (1 + i)) + 1 := by omega
        rw [hindex, List.getD_cons_succ]
        simp [htop]

/-- A word with a bit in it. -/
theorem word_ne_zero {bits : List Bool} (hlength : bits.length ≤ w) (hmem : true ∈ bits) :
    word w bits ≠ 0#w := by
  intro hzero
  obtain ⟨k, hk, hbit⟩ := List.mem_iff_getElem.mp hmem
  have hindex : w - 1 - (w - 1 - k) = k := by omega
  have hget := getLsbD_word (w := w) bits (w - 1 - k) (by omega)
  rw [hzero, hindex, List.getD_eq_getElem _ _ hk, hbit] at hget
  simp at hget

/-- The bits of a word that is not full move up when it is shifted. -/
theorem shift_word {bits : List Bool} (hlength : bits.length < w) :
    shift poly (word w bits >>> 1) = word w bits := by
  have hmsb : (word w bits >>> 1).msb = false := by
    simp [BitVec.msb, BitVec.getMsbD]
    intro
    exact BitVec.getLsbD_of_ge _ _ (by omega)
  rw [shift, hmsb, if_neg Bool.false_ne_true]
  apply BitVec.eq_of_getLsbD_eq
  intro i hi
  rw [BitVec.getLsbD_shiftLeft, BitVec.getLsbD_ushiftRight]
  by_cases hzero : i = 0
  · -- the lowest bit of the word is not used
    rw [hzero, getLsbD_word bits 0 (by omega), List.getD_eq_default _ _ (by omega)]
    simp
  · have hone : 1 + (i - 1) = i := by omega
    rw [hone]
    simp [hi, hzero]

/-! ### Messages -/

theorem feed_append (poly r : BitVec w) (bits more : List Bool) :
    feed poly r (bits ++ more) = feed poly (feed poly r bits) more :=
  List.foldl_append

/-- As many bits as the register has, or fewer, may be added before the shifts. -/
theorem feed_eq_iterate (poly : BitVec w) (bits : List Bool) : ∀ r : BitVec w, bits.length ≤ w →
    feed poly r bits = (shift poly)^[bits.length] (r ^^^ word w bits) := by
  induction bits with
  | nil =>
      intro r _
      show r = r ^^^ 0#w
      rw [BitVec.xor_zero]
  | cons d bits ih =>
      intro r hlength
      have hshort : bits.length < w := hlength
      show feed poly (shift poly (r ^^^ if d then BitVec.twoPow w (w - 1) else 0#w)) bits = _
      rw [ih _ (Nat.le_of_lt hshort), List.length_cons, Function.iterate_succ_apply, word,
        ← BitVec.xor_assoc, shift_xor _ (r ^^^ _), shift_word hshort]

/-- The register is linear in the message. -/
theorem feed_zipWith (poly : BitVec w) (bits : List Bool) : ∀ (bits' : List Bool)
    (r r' : BitVec w), bits.length = bits'.length →
    feed poly (r ^^^ r') (List.zipWith xor bits bits') =
      feed poly r bits ^^^ feed poly r' bits' := by
  induction bits with
  | nil =>
      intro bits' r r' hlength
      obtain rfl := List.length_eq_zero_iff.mp hlength.symm
      rfl
  | cons d bits ih =>
      intro bits' r r' hlength
      cases bits' with
      | nil => exact absurd hlength (Nat.succ_ne_zero _)
      | cons d' bits' =>
          have hpoint : ∀ x : BitVec w, (if xor d d' then x else 0#w) =
              (if d then x else 0#w) ^^^ if d' then x else 0#w := by
            intro x
            cases d <;> cases d' <;> simp
          have hswap : ∀ a b x y : BitVec w, a ^^^ b ^^^ (x ^^^ y) = a ^^^ x ^^^ (b ^^^ y) := by
            intro a b x y
            rw [BitVec.xor_assoc, ← BitVec.xor_assoc b, BitVec.xor_comm b x, BitVec.xor_assoc x,
              ← BitVec.xor_assoc]
          rw [List.zipWith_cons_cons]
          show feed poly (shift poly (r ^^^ r' ^^^ if xor d d' then _ else 0#w)) _ =
            feed poly (shift poly (r ^^^ _)) bits ^^^ feed poly (shift poly (r' ^^^ _)) bits'
          rw [hpoint, hswap, shift_xor, ih bits' _ _ (Nat.succ.inj hlength)]

/-- Zeros are shifts. -/
theorem feed_replicate (poly : BitVec w) (n : Nat) (r : BitVec w) :
    feed poly r (List.replicate n false) = (shift poly)^[n] r := by
  induction n generalizing r with
  | zero => rfl
  | succ n ih =>
      rw [List.replicate_succ, Function.iterate_succ_apply, ← ih]
      show feed poly (shift poly (r ^^^ 0#w)) _ = _
      rw [BitVec.xor_zero]

theorem iterate_shift_eq_zero_iff (hw : 0 < w) (hpoly : poly.getLsbD 0 = true) (n : Nat) :
    (shift poly)^[n] r = 0#w ↔ r = 0#w := by
  induction n generalizing r with
  | zero => exact Iff.rfl
  | succ n ih => rw [Function.iterate_succ_apply, ih, shift_eq_zero_iff hw hpoly]

/-- A message of zeros around some bits that are not all zeros. -/
theorem feed_ne_zero (hw : 0 < w) (hpoly : poly.getLsbD 0 = true)
    {front burst behind : List Bool} (hfront : ∀ d ∈ front, d = false)
    (hbehind : ∀ d ∈ behind, d = false) (hlength : burst.length ≤ w) (hmem : true ∈ burst) :
    feed poly 0#w (front ++ (burst ++ behind)) ≠ 0#w := by
  have hzeros : ∀ {l : List Bool}, (∀ d ∈ l, d = false) → l = List.replicate l.length false :=
    fun hl => List.eq_replicate_iff.mpr ⟨rfl, hl⟩
  rw [feed_append, feed_append, hzeros hfront, hzeros hbehind, feed_replicate, feed_replicate,
    (iterate_shift_eq_zero_iff hw hpoly _).mpr rfl, feed_eq_iterate poly burst _ hlength,
    BitVec.zero_xor]
  intro hzero
  rw [iterate_shift_eq_zero_iff hw hpoly, iterate_shift_eq_zero_iff hw hpoly] at hzero
  exact word_ne_zero hlength hmem hzero

/-- Two messages of one length whose differences lie within the width of the register. -/
theorem feed_ne_of_burst (hw : 0 < w) (hpoly : poly.getLsbD 0 = true) {bits bits' : List Bool}
    (hlength : bits.length = bits'.length)
    (hne : bits ≠ bits') (p : Nat)
    (hburst : ∀ i, bits[i]? ≠ bits'[i]? → p ≤ i ∧ i < p + w) (r : BitVec w) :
    feed poly r bits ≠ feed poly r bits' := by
  intro heq
  let errors := List.zipWith xor bits bits'
  -- by linearity the register of the differences is zero
  have herrors : feed poly 0#w errors = 0#w := by
    have hlinear := feed_zipWith poly bits bits' r r hlength
    rwa [BitVec.xor_self, heq, BitVec.xor_self] at hlinear
  -- the differences lie in the window
  have hget : ∀ i (h : i < errors.length), errors[i] = true → p ≤ i ∧ i < p + w := by
    intro i h hbit
    have hi : i < bits.length ∧ i < bits'.length := by
      rw [List.length_zipWith] at h
      omega
    refine hburst i fun hsame => ?_
    rw [List.getElem?_eq_getElem hi.1, List.getElem?_eq_getElem hi.2] at hsame
    have hxor : xor bits[i] bits'[i] = true := by simpa [errors] using hbit
    rw [Option.some.inj hsame, Bool.xor_self] at hxor
    exact Bool.false_ne_true hxor
  -- zeros, the window, and zeros: such a message leaves a register that is not zero
  have hsplit : errors = errors.take p ++ ((errors.drop p).take w ++ (errors.drop p).drop w) := by
    rw [List.take_append_drop, List.take_append_drop]
  rw [hsplit] at herrors
  refine feed_ne_zero hw hpoly (fun d hd => ?_) (fun d hd => ?_) (List.length_take_le _ _) ?_
    herrors
  · obtain ⟨i, hi, rfl⟩ := List.mem_iff_getElem.mp hd
    rw [List.getElem_take]
    rw [List.length_take] at hi
    have hin : i < errors.length := by omega
    cases hbit : errors[i] with
    | false => rfl
    | true =>
        have := (hget i hin hbit).1
        omega
  · obtain ⟨i, hi, rfl⟩ := List.mem_iff_getElem.mp hd
    rw [List.getElem_drop, List.getElem_drop]
    rw [List.length_drop, List.length_drop] at hi
    have hin : p + (w + i) < errors.length := by omega
    cases hbit : errors[p + (w + i)] with
    | false => rfl
    | true =>
        have := (hget (p + (w + i)) hin hbit).2
        omega
  · -- the messages differ somewhere, and the place is in the window
    obtain ⟨i, hi⟩ : ∃ i, bits[i]? ≠ bits'[i]? := by
      by_contra hsame
      exact hne (List.ext_getElem? fun i => not_not.mp fun h => hsame ⟨i, h⟩)
    obtain ⟨hp, hlt⟩ := hburst i hi
    have hin : i < bits.length := by
      by_contra hout
      rw [List.getElem?_eq_none (by omega), List.getElem?_eq_none (by omega)] at hi
      exact hi rfl
    have hbit : errors[i]? = some true := by
      have hin' : i < bits'.length := hlength ▸ hin
      rw [List.getElem?_zipWith, List.getElem?_eq_getElem hin, List.getElem?_eq_getElem hin']
      rw [List.getElem?_eq_getElem hin, List.getElem?_eq_getElem hin'] at hi
      have hdiff : bits[i] ≠ bits'[i] := fun h => hi (congrArg some h)
      exact congrArg some (bne_iff_ne.mpr hdiff)
    refine List.mem_iff_getElem?.mpr ⟨i - p, ?_⟩
    rw [List.getElem?_take_of_lt (by omega), List.getElem?_drop, Nat.add_sub_cancel' hp]
    exact hbit

end Ndsl.Lib.Lfsr
