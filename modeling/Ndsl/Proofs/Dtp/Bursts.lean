import Ndsl.Lib.Lfsr
import Ndsl.Net.Crc

/-!
# `Ndsl.Proofs.Dtp.Bursts`: what the checksum of a data block detects

`getCRC16_CCITT` turns each byte around and adds it to the upper half of a register of 16 bits, and
shifts the register eight times. That is the shift register of `Ndsl.Lib.Lfsr`, fed with the bits of
the message from the lowest bit of each byte on (`foldl_crcByte`). Its polynomial has a constant
term, so two blocks whose differences lie within 16 bits have different checksums
(`detects_bursts`).
-/

set_option autoImplicit false

namespace Ndsl.Proofs.Crc

open Ndsl.Lib
open Ndsl.Net.Dtp

/-- The bits of a byte, the lowest one first. -/
def bitsOf (byte : UInt8) : List Bool := (List.range 8).map byte.toBitVec.getLsbD

/-- The bits of a buffer. -/
def bits (buf : List UInt8) : List Bool := buf.flatMap bitsOf

/-! ### The register -/

/-- A test of one bit. -/
theorem and_bit_ne_zero (src : UInt16) {bit : UInt16} {i : Nat}
    (hbit : bit.toBitVec = BitVec.twoPow 16 i) (hi : i < 16) :
    src &&& bit ≠ 0 ↔ src.toBitVec.getLsbD i = true := by
  have hne : BitVec.twoPow 16 i ≠ 0#16 := by
    intro hzero
    have hget := congrArg (BitVec.getLsbD · i) hzero
    simp [hi] at hget
  rw [Ne, ← UInt16.toBitVec_inj, UInt16.toBitVec_and, hbit, BitVec.and_twoPow]
  cases src.toBitVec.getLsbD i with
  | false => simp
  | true =>
      rw [if_pos rfl]
      exact ⟨fun _ => rfl, fun _ => hne⟩

theorem crcShift_toBitVec (wCRCin : UInt16) :
    (crcShift wCRCin).toBitVec = Lfsr.shift 0x1021#16 wCRCin.toBitVec := by
  have htop : wCRCin &&& 0x8000 ≠ 0 ↔ wCRCin.toBitVec.getLsbD 15 = true :=
    and_bit_ne_zero wCRCin (by decide) (by decide)
  have hmsb : wCRCin.toBitVec.msb = wCRCin.toBitVec.getLsbD 15 := by
    simp [BitVec.msb, BitVec.getMsbD]
  unfold crcShift Lfsr.shift
  rw [hmsb]
  by_cases hbit : wCRCin.toBitVec.getLsbD 15 = true
  · rw [if_pos (htop.mpr hbit), if_pos hbit, UInt16.toBitVec_xor]
    rfl
  · rw [if_neg (fun h => hbit (htop.mp h)), if_neg hbit]
    rfl

theorem foldl_crcShift (n : Nat) (wCRCin : UInt16) :
    ((List.range n).foldl (fun wCRCin _ => crcShift wCRCin) wCRCin).toBitVec =
      (Lfsr.shift 0x1021#16)^[n] wCRCin.toBitVec := by
  induction n with
  | zero => rfl
  | succ n ih =>
      rw [List.range_succ, List.foldl_append, Function.iterate_succ_apply', ← ih]
      exact crcShift_toBitVec _

/-- A byte stands in the upper half of the register, its lowest bit at the top. -/
theorem invertUint8_word (byte : UInt8) :
    ((invertUint8 byte).toUInt16 <<< 8).toBitVec = Lfsr.word 16 (bitsOf byte) := by
  have hall : ∀ n : Fin 256, ((invertUint8 (UInt8.ofNat n)).toUInt16 <<< 8).toBitVec =
      Lfsr.word 16 (bitsOf (UInt8.ofNat n)) := by
    decide +kernel
  have hbyte := hall ⟨byte.toNat, byte.toNat_lt⟩
  rwa [UInt8.ofNat_toNat] at hbyte

/-- The register behind a byte. -/
theorem crcByte_toBitVec (wCRCin : UInt16) (byte : UInt8) :
    (crcByte wCRCin byte).toBitVec =
      Lfsr.feed 0x1021#16 wCRCin.toBitVec (bitsOf byte) := by
  have hlength : (bitsOf byte).length = 8 := rfl
  rw [crcByte, foldl_crcShift, UInt16.toBitVec_xor, invertUint8_word,
    Lfsr.feed_eq_iterate _ _ _ (by rw [hlength]; decide), hlength]

/-- The register behind a buffer. -/
theorem foldl_crcByte (buf : List UInt8) : ∀ wCRCin : UInt16,
    (buf.foldl crcByte wCRCin).toBitVec = Lfsr.feed 0x1021#16 wCRCin.toBitVec (bits buf) := by
  induction buf with
  | nil => exact fun _ => rfl
  | cons byte buf ih =>
      intro wCRCin
      rw [List.foldl_cons, ih, crcByte_toBitVec, ← Lfsr.feed_append]
      rfl

/-! ### The result -/

/-- The first turns of the loop that turns the bits of a register around. -/
theorem getLsbD_invert (src : UInt16) (n : Nat) : n ≤ 16 → ∀ j, j < 16 →
    ((List.range n).foldl (fun tmp i =>
      if src &&& (1 <<< UInt16.ofNat i) ≠ 0 then tmp ||| (1 <<< UInt16.ofNat (15 - i)) else tmp)
      (0 : UInt16)).toBitVec.getLsbD j =
        (decide (15 - j < n) && src.toBitVec.getLsbD (15 - j)) := by
  have hbits : ∀ i : Fin 16, (1 <<< UInt16.ofNat i : UInt16).toBitVec = BitVec.twoPow 16 i := by
    decide
  induction n with
  | zero =>
      intro _ j _
      simp
  | succ n ih =>
      intro hn j hj
      have hstep := ih (by omega) j hj
      rw [List.range_succ, List.foldl_append, List.foldl_cons, List.foldl_nil]
      generalize (List.range n).foldl _ (0 : UInt16) = tmp at hstep
      -- the turn looks at bit `n` and sets bit `15 - n`, so `j` changes when `15 - j` is `n`
      have htest := and_bit_ne_zero src (hbits ⟨n, hn⟩) hn
      have hplace := hbits ⟨15 - n, by omega⟩
      by_cases hbit : src.toBitVec.getLsbD n = true
      · rw [if_pos (htest.mpr hbit), UInt16.toBitVec_or, BitVec.getLsbD_or, hstep, hplace,
          BitVec.getLsbD_twoPow]
        by_cases hlast : 15 - j = n
        · have hsame : 15 - n = j := by omega
          simp [hlast, hbit, hsame, hj]
        · have hother : 15 - n ≠ j := by omega
          have hiff : 15 - j < n + 1 ↔ 15 - j < n := by omega
          simp [hother, hiff]
      · rw [if_neg (fun h => hbit (htest.mp h)), hstep]
        by_cases hlast : 15 - j = n
        · simp [hlast, hbit]
        · have hiff : 15 - j < n + 1 ↔ 15 - j < n := by omega
          simp [hiff]

theorem invertUint16_injective : Function.Injective invertUint16 := by
  intro src src' heq
  apply UInt16.toBitVec_inj.mp
  apply BitVec.eq_of_getLsbD_eq
  intro i hi
  have hback : 15 - (15 - i) = i := by omega
  have hget := congrArg (fun x : UInt16 => x.toBitVec.getLsbD (15 - i)) heq
  simp only [invertUint16] at hget
  rw [getLsbD_invert src 16 (Nat.le_refl _) _ (by omega),
    getLsbD_invert src' 16 (Nat.le_refl _) _ (by omega), hback] at hget
  simpa [hi] using hget

theorem length_bits (buf : List UInt8) : (bits buf).length = 8 * buf.length := by
  induction buf with
  | nil => rfl
  | cons byte buf ih =>
      show (bitsOf byte ++ bits buf).length = 8 * (buf.length + 1)
      rw [List.length_append, ih]
      show 8 + 8 * buf.length = _
      omega

theorem bitsOf_injective : Function.Injective bitsOf := by
  intro byte byte' heq
  apply UInt8.toBitVec_inj.mp
  apply BitVec.eq_of_getLsbD_eq
  intro i hi
  exact List.map_inj_left.mp heq i (List.mem_range.mpr hi)

theorem bits_injective : Function.Injective bits := by
  intro buf
  induction buf with
  | nil =>
      intro buf' heq
      cases buf' with
      | nil => rfl
      | cons byte buf' => exact absurd heq (by simp [bits, bitsOf])
  | cons byte buf ih =>
      intro buf' heq
      cases buf' with
      | nil => exact absurd heq (by simp [bits, bitsOf])
      | cons byte' buf' =>
          have hparts : bitsOf byte ++ bits buf = bitsOf byte' ++ bits buf' := heq
          obtain ⟨hbyte, hrest⟩ := List.append_inj hparts rfl
          rw [bitsOf_injective hbyte, ih hrest]

/-- Two buffers of one length that differ, and whose differences lie within 16 bits, have different
checksums. -/
theorem detects_bursts {buf buf' : List UInt8} (hlength : buf.length = buf'.length)
    (hne : buf ≠ buf') (p : Nat)
    (hburst : ∀ i, (bits buf)[i]? ≠ (bits buf')[i]? → p ≤ i ∧ i < p + 16) :
    getCRC16_CCITT buf ≠ getCRC16_CCITT buf' := by
  intro heq
  have hregister := congrArg UInt16.toBitVec (invertUint16_injective heq)
  rw [foldl_crcByte, foldl_crcByte] at hregister
  refine Lfsr.feed_ne_of_burst (by decide) (by decide) ?_ (fun hbits => hne (bits_injective hbits))
    p hburst _ hregister
  rw [length_bits, length_bits, hlength]

/-- A burst that begins in the first byte and ends in the second. -/
theorem detects_bursts_two :
    getCRC16_CCITT [0x31, 0x32, 0x33] ≠ getCRC16_CCITT [0x81, 0x72, 0x33] := by
  refine detects_bursts rfl (by decide) 4 fun i hi => ?_
  have hsame : ∀ i, i < 4 → (bits [0x31, 0x32, 0x33])[i]? = (bits [0x81, 0x72, 0x33])[i]? := by
    decide
  by_contra hout
  rcases Nat.lt_or_ge i 4 with hlt | hge
  · exact hi (hsame i hlt)
  · have hrest : (bits [0x31, 0x32, 0x33]).drop 20 = (bits [0x81, 0x72, 0x33]).drop 20 := by
      decide
    have hindex : 20 + (i - 20) = i := by omega
    have hget := congrArg (fun l : List Bool => l[i - 20]?) hrest
    simp only [List.getElem?_drop, hindex] at hget
    exact hi hget

end Ndsl.Proofs.Crc
