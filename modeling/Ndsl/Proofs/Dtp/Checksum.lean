import Ndsl.Lib.CyclicCode
import Ndsl.Proofs.Dtp.Bursts

/-!
# `Ndsl.Proofs.Dtp.Checksum`: what the checksum of a data block is

The register of `getCRC16_CCITT` holds the remainder of the block, as a polynomial over the field of
two elements that is moved up by 16, by `x^16 + x^12 + x^5 + 1`. The result is the register turned
around. `rightShiftingCRC` is the same check in its usual other form, which turns nothing around:
its register is the one of the code, held the other way.
-/

set_option autoImplicit false

namespace Ndsl.Proofs.Crc

open Polynomial
open Ndsl.Lib Ndsl.Lib.CyclicCode
open Ndsl.Net.Dtp

/-! ### The definitions -/

/-- `x^16 + x^12 + x^5 + 1`. -/
noncomputable def crc16Polynomial : (ZMod 2)[X] := X ^ 16 + X ^ 12 + X ^ 5 + 1

/-- The remainder that the checksum of a block is to be. The first bit of the block, the lowest one
of its first byte, is its leading coefficient. -/
noncomputable def crc16Remainder (buf : List UInt8) : (ZMod 2)[X] :=
  (message (bits buf) * X ^ 16) %ₘ crc16Polynomial

/-- One shift of the register that shifts to the right. -/
def rightShift (crc : UInt16) : UInt16 :=
  if crc &&& 1 ≠ 0 then (crc >>> 1) ^^^ 0x8408 else crc >>> 1

/-- Its turn for one byte. -/
def rightShiftingByte (crc : UInt16) (byte : UInt8) : UInt16 :=
  (List.range 8).foldl (fun crc _ => rightShift crc) (crc ^^^ byte.toUInt16)

/-- The check with it: it begins with zero, and nothing is added at the end. -/
def rightShiftingCRC (buf : List UInt8) : UInt16 := buf.foldl rightShiftingByte 0

/-! ### The remainder -/

theorem generator_eq : generator 0x1021#16 = crc16Polynomial := by
  have hpoly : ofRegister 0x1021#16 = X ^ 12 + X ^ 5 + 1 := by
    simp [ofRegister, Finset.sum_range_succ, coefficient]
    ring
  rw [generator, hpoly, crc16Polynomial]
  ring

/-- The loop over the bytes leaves the remainder. -/
theorem ofRegister_foldl_crcByte (buf : List UInt8) :
    ofRegister (buf.foldl crcByte 0).toBitVec = crc16Remainder buf := by
  rw [foldl_crcByte, crc16Remainder, ← generator_eq]
  exact ofRegister_feed (by decide) 0x1021#16 (bits buf)

/-- `InvertUint16` turns the bits around. -/
theorem invertUint16_toBitVec (src : UInt16) :
    (invertUint16 src).toBitVec = src.toBitVec.reverse := by
  apply BitVec.eq_of_getLsbD_eq
  intro i hi
  rw [invertUint16, getLsbD_invert src 16 (Nat.le_refl 16) i hi, BitVec.getLsbD_reverse,
    BitVec.getMsbD_eq_getLsbD, decide_eq_true hi, decide_eq_true (by omega)]

/-! ### The register that shifts to the right -/

theorem rightShift_toBitVec (crc : UInt16) :
    (rightShift crc).toBitVec = shiftDown 0x8408#16 crc.toBitVec := by
  have hlow : crc &&& 1 ≠ 0 ↔ crc.toBitVec.getLsbD 0 = true :=
    and_bit_ne_zero crc (by decide) (by decide)
  unfold rightShift shiftDown
  by_cases hbit : crc.toBitVec.getLsbD 0 = true
  · rw [if_pos (hlow.mpr hbit), if_pos hbit, UInt16.toBitVec_xor]
    rfl
  · rw [if_neg (fun h => hbit (hlow.mp h)), if_neg hbit]
    rfl

theorem foldl_rightShift (n : Nat) (crc : UInt16) :
    ((List.range n).foldl (fun crc _ => rightShift crc) crc).toBitVec =
      (shiftDown 0x8408#16)^[n] crc.toBitVec := by
  induction n with
  | zero => rfl
  | succ n ih =>
      rw [List.range_succ, List.foldl_append, Function.iterate_succ_apply', ← ih]
      exact rightShift_toBitVec _

/-- A byte stands in the lower half, its lowest bit at the bottom. -/
theorem reverse_word_bitsOf (byte : UInt8) :
    (Lfsr.word 16 (bitsOf byte)).reverse = byte.toUInt16.toBitVec := by
  apply BitVec.eq_of_getLsbD_eq
  intro i hi
  rw [getLsbD_reverse_word _ hi, UInt8.toBitVec_toUInt16, BitVec.getLsbD_setWidth,
    decide_eq_true hi, Bool.true_and, bitsOf]
  rcases Nat.lt_or_ge i 8 with hlt | hge
  · rw [List.getD_eq_getElem _ _ (by simpa using hlt)]
    simp
  · rw [List.getD_eq_default _ _ (by simpa using hge), BitVec.getLsbD_of_ge _ i hge]

/-- The one register is the other one turned around. -/
theorem rightShiftingByte_toBitVec {crc wCRCin : UInt16} (byte : UInt8)
    (h : crc.toBitVec = wCRCin.toBitVec.reverse) :
    (rightShiftingByte crc byte).toBitVec = (crcByte wCRCin byte).toBitVec.reverse := by
  have hpoly : (0x1021#16).reverse = 0x8408#16 := by decide
  rw [rightShiftingByte, foldl_rightShift, crcByte, foldl_crcShift, reverse_iterate, hpoly,
    UInt16.toBitVec_xor, UInt16.toBitVec_xor, invertUint8_word, reverse_xor, reverse_word_bitsOf, h]

theorem foldl_rightShiftingByte (buf : List UInt8) : ∀ {crc wCRCin : UInt16},
    crc.toBitVec = wCRCin.toBitVec.reverse →
    (buf.foldl rightShiftingByte crc).toBitVec = (buf.foldl crcByte wCRCin).toBitVec.reverse := by
  induction buf with
  | nil => exact fun h => h
  | cons byte buf ih =>
      intro crc wCRCin h
      rw [List.foldl_cons, List.foldl_cons]
      exact ih (rightShiftingByte_toBitVec byte h)

/-! ### The result -/

/-- The checksum is the remainder turned around, bit by bit, and it is what the register that shifts
to the right computes. -/
theorem checksum_eq_remainder (buf : List UInt8) :
    (crc16Remainder buf).degree < 16 ∧
      (∀ i < 16, coefficient ((getCRC16_CCITT buf).toBitVec.getLsbD i) =
        (crc16Remainder buf).coeff (15 - i)) ∧
      getCRC16_CCITT buf = rightShiftingCRC buf := by
  refine ⟨?_, ?_, ?_⟩
  · rw [← ofRegister_foldl_crcByte]
    exact degree_ofRegister_lt _
  · intro i hi
    rw [← ofRegister_foldl_crcByte, coeff_ofRegister, getCRC16_CCITT, invertUint16_toBitVec,
      BitVec.getLsbD_reverse, BitVec.getMsbD_eq_getLsbD, decide_eq_true hi, Bool.true_and]
  · apply UInt16.toBitVec_inj.mp
    rw [getCRC16_CCITT, invertUint16_toBitVec, rightShiftingCRC]
    exact (foldl_rightShiftingByte buf (by decide)).symm

end Ndsl.Proofs.Crc
