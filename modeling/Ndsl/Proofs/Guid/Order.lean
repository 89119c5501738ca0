import Ndsl.Proofs.Guid.RoundTrip

/-!
# `Ndsl.Proofs.Guid.Order`: the order of guids

`operator<` and `operator>` go through the bits of the bytes, the highest one first. `bitLoop_eq`
says that this compares the bytes, so the loops are the lexicographic order of the bytes
(`byteLoop_eq`), and two digits for each byte do not change it (`text_lt_iff`).
-/

set_option autoImplicit false

namespace Ndsl.Proofs.Guid

open Ndsl.Lib.Numerals
open Ndsl.Utils Ndsl.Utils.Guid

/-- The numbers of some bytes. -/
def numbers (bytes : List UInt8) : List Nat := bytes.map UInt8.toNat

/-- What the mask leaves of a number. -/
theorem and_two_pow (a j : Nat) : a &&& 2 ^ j = if a.testBit j then 2 ^ j else 0 := by
  refine Nat.eq_of_testBit_eq fun i => ?_
  rw [Nat.testBit_and, Nat.testBit_two_pow]
  by_cases hij : j = i
  · subst hij
    cases hbit : a.testBit j <;> simp
  · cases hbit : a.testBit j <;> simp [hij]

/-- A bit above a number. -/
theorem mod_two_pow_succ (a j : Nat) :
    a % 2 ^ (j + 1) = a % 2 ^ j + if a.testBit j then 2 ^ j else 0 := by
  rw [Nat.mod_pow_succ, Nat.testBit_eq_decide_div_mod_eq]
  rcases Nat.mod_two_eq_zero_or_one (a / 2 ^ j) with h | h <;> simp [h]

/-- The loop over the last `j` bits compares the numbers that they are. -/
theorem bitLoop_eq (a b : UInt8) (j : Nat) :
    bitLoop (fun x y => x < y) a b j (2 ^ j / 2) =
      if a.toNat % 2 ^ j < b.toNat % 2 ^ j then some true
      else if b.toNat % 2 ^ j < a.toNat % 2 ^ j then some false
      else none := by
  induction j with
  | zero => simp [bitLoop, Nat.mod_one]
  | succ j ih =>
      have hmask : 2 ^ (j + 1) / 2 = 2 ^ j := by rw [Nat.pow_succ, Nat.mul_div_cancel _ (by decide)]
      have hpos := Nat.two_pow_pos j
      have hmoda := Nat.mod_lt a.toNat hpos
      have hmodb := Nat.mod_lt b.toNat hpos
      rw [hmask, bitLoop, ih, and_two_pow, and_two_pow, mod_two_pow_succ, mod_two_pow_succ]
      -- the highest bits decide, or they are the same
      cases a.toNat.testBit j <;> cases b.toNat.testBit j
      · simp
      · have hlt : a.toNat % 2 ^ j < b.toNat % 2 ^ j + 2 ^ j := by omega
        simp [hlt]
      · have hlt : b.toNat % 2 ^ j + 0 < a.toNat % 2 ^ j + 2 ^ j := by omega
        have hge : ¬ a.toNat % 2 ^ j + 2 ^ j < b.toNat % 2 ^ j + 0 := by omega
        simp only [if_true, if_false, Bool.false_eq_true, hlt, hge, hpos, decide_true,
          Nat.not_lt_zero, decide_false]
      · simp

/-- `operator>` goes through the bits as `operator<` does, with the bytes the other way round. -/
theorem bitLoop_swap (a b : UInt8) (j n : Nat) :
    bitLoop (fun x y => x > y) a b j n = bitLoop (fun x y => x < y) b a j n := by
  induction j generalizing n with
  | zero => rfl
  | succ j ih =>
      rw [bitLoop, bitLoop, ih]

theorem byteLoop_swap (as bs : List UInt8) (n : Nat) :
    byteLoop (fun x y => x > y) as bs n = byteLoop (fun x y => x < y) bs as n := by
  induction as generalizing bs n with
  | nil => cases bs <;> rfl
  | cons a as ih =>
      cases bs with
      | nil => rfl
      | cons b bs => rw [byteLoop, byteLoop, bitLoop_swap, ih]

/-- The loops are the lexicographic order of the bytes. -/
theorem byteLoop_eq {as bs : List UInt8} (hlength : as.length = bs.length) :
    byteLoop (fun x y => x < y) as bs 128 = decide (numbers as < numbers bs) := by
  induction as generalizing bs with
  | nil =>
      rw [List.length_eq_zero_iff.mp hlength.symm]
      rfl
  | cons a as ih =>
      cases bs with
      | nil => exact absurd hlength (Nat.succ_ne_zero _)
      | cons b bs =>
          have hbits := bitLoop_eq a b 8
          have hmod : ∀ c : UInt8, c.toNat % 2 ^ 8 = c.toNat := fun c => Nat.mod_eq_of_lt c.toNat_lt
          rw [hmod, hmod] at hbits
          have hcons : numbers (a :: as) < numbers (b :: bs) ↔
              a.toNat < b.toNat ∨ a.toNat = b.toNat ∧ numbers as < numbers bs :=
            List.cons_lt_cons_iff
          rw [byteLoop, ih (Nat.succ.inj hlength), show (128 : Nat) = 2 ^ 8 / 2 from rfl, hbits]
          rcases Nat.lt_trichotomy a.toNat b.toNat with hlt | heq | hgt
          · simp [hlt, hcons]
          · simp [heq, hcons]
          · simp [Nat.not_lt_of_gt hgt, hgt, hcons, Nat.ne_of_gt hgt]

/-! ### The order laws -/

section Laws
variable {g guid : Guid}

theorem less_iff : g.less guid = true ↔ numbers g.gu < numbers guid.gu := by
  unfold Guid.less
  rw [byteLoop_eq (g.size.trans guid.size.symm), decide_eq_true_iff]

theorem greater_iff : g.greater guid = true ↔ numbers guid.gu < numbers g.gu := by
  unfold Guid.greater
  rw [byteLoop_swap, byteLoop_eq (guid.size.trans g.size.symm), decide_eq_true_iff]

theorem equal_iff : g.equal guid = true ↔ numbers g.gu = numbers guid.gu := by
  unfold Guid.equal
  rw [decide_eq_true_iff]
  constructor
  · exact congrArg numbers
  · exact fun h => (List.map_injective_iff.mpr fun a b => UInt8.toNat_inj.mp) h

theorem upperHexChar_lt_iff (c d : Nat) (hc : c < 16) (hd : d < 16) :
    (upperHexChar c < upperHexChar d ↔ c < d) ∧ (upperHexChar c = upperHexChar d ↔ c = d) := by
  have h : ∀ c < 16, ∀ d < 16, (upperHexChar c < upperHexChar d ↔ c < d) ∧
      (upperHexChar c = upperHexChar d ↔ c = d) := by decide
  exact h c hc d hd

/-- The two digits of bytes are ordered as the bytes are. -/
theorem digits_lt_iff (a b : UInt8) :
    (zeroPaddedHex 2 a.toNat < zeroPaddedHex 2 b.toNat ↔ a.toNat < b.toNat) ∧
      (zeroPaddedHex 2 a.toNat = zeroPaddedHex 2 b.toNat ↔ a.toNat = b.toNat) := by
  have hlt : ∀ c : UInt8, c.toNat < 16 ^ (1 + 1) := fun c => c.toNat_lt
  have hdigits : ∀ n, ∀ d ∈ fixed 16 (1 + 1) n, d < 16 := fun n d hd =>
    lt_of_mem_fixed (by decide) hd
  have hsame : ∀ {a b : UInt8}, zeroPaddedHex 2 a.toNat < zeroPaddedHex 2 b.toNat ↔
      a.toNat < b.toNat := by
    intro a b
    rw [zeroPaddedHex_of_lt (hlt a), zeroPaddedHex_of_lt (hlt b),
      map_lt_map_iff upperHexChar_lt_iff (hdigits _) (hdigits _),
      fixed_lt_fixed_iff (by decide) (hlt a) (hlt b)]
  refine ⟨hsame, fun heq => ?_, fun heq => by rw [heq]⟩
  -- neither is before the other
  have hle := hsame.mpr.mt (heq ▸ hsame.mp.mt (Nat.lt_irrefl _) : ¬ zeroPaddedHex 2 a.toNat <
    zeroPaddedHex 2 b.toNat)
  have hge := hsame.mpr.mt (heq ▸ hsame.mp.mt (Nat.lt_irrefl _) : ¬ zeroPaddedHex 2 b.toNat <
    zeroPaddedHex 2 a.toNat)
  omega

/-- The texts of some bytes are ordered as the bytes are. -/
theorem text_lt_iff {as bs : List UInt8} (hlength : as.length = bs.length) :
    as.flatMap (fun b => zeroPaddedHex 2 b.toNat) < bs.flatMap (fun b => zeroPaddedHex 2 b.toNat) ↔
      numbers as < numbers bs := by
  induction as generalizing bs with
  | nil =>
      rw [List.length_eq_zero_iff.mp hlength.symm]
      simp [numbers]
  | cons a as ih =>
      cases bs with
      | nil => exact absurd hlength (Nat.succ_ne_zero _)
      | cons b bs =>
          obtain ⟨hlt, heq⟩ := digits_lt_iff a b
          have htwo : (zeroPaddedHex 2 a.toNat).length = (zeroPaddedHex 2 b.toNat).length := by
            rw [zeroPaddedHex_byte, zeroPaddedHex_byte]
            rfl
          rw [List.flatMap_cons, List.flatMap_cons, append_lt_append_iff htwo, hlt, heq,
            ih (Nat.succ.inj hlength)]
          exact List.cons_lt_cons_iff.symm

end Laws

/-- The comparisons are a total order, and the order of the texts. -/
theorem total_order (a b c : Guid) :
    ((a.less b = true ∧ a.equal b = false ∧ a.greater b = false) ∨
      (a.less b = false ∧ a.equal b = true ∧ a.greater b = false) ∨
      (a.less b = false ∧ a.equal b = false ∧ a.greater b = true)) ∧
    (a.greater b = true ↔ b.less a = true) ∧
    (a.less b = true → b.less c = true → a.less c = true) ∧
    (a.less b = true ↔ a.toString.2 < b.toString.2) := by
  refine ⟨?_, ?_, ?_, ?_⟩
  · simp only [← Bool.not_eq_true, less_iff, equal_iff, greater_iff]
    rcases lt_trichotomy (numbers a.gu) (numbers b.gu) with hlt | heq | hgt
    · exact .inl ⟨hlt, ne_of_lt hlt, lt_asymm hlt⟩
    · exact .inr (.inl ⟨by rw [heq]; exact lt_irrefl _, heq, by rw [heq]; exact lt_irrefl _⟩)
    · exact .inr (.inr ⟨lt_asymm hgt, ne_of_gt hgt, hgt⟩)
  · rw [greater_iff, less_iff]
  · rw [less_iff, less_iff, less_iff]
    exact lt_trans
  · rw [less_iff]
    exact (text_lt_iff (a.size.trans b.size.symm)).symm

end Ndsl.Proofs.Guid
