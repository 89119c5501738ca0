import Mathlib.Algebra.CharP.Two
import Mathlib.Algebra.Field.ZMod
import Mathlib.Algebra.Polynomial.Div
import Mathlib.Algebra.Polynomial.Monic
import Mathlib.Tactic.LinearCombination
import Ndsl.Lib.Lfsr

/-!
# `Ndsl.Lib.CyclicCode`: the polynomial behind a shift register

A register of `w` bits is a polynomial over the field of two elements with a degree below `w`, and a
message is one whose leading coefficient is its first bit. `ofRegister_feed` says what a shift
register computes: the remainder of the message, moved up by `w`, by the polynomial of the feedback.

The same register may be held the other way around and be shifted down. `reverse_shift` carries the
one over to the other.
-/

set_option autoImplicit false

namespace Ndsl.Lib.CyclicCode

open Polynomial
open Lfsr

variable {w : Nat}

/-! ### Polynomials -/

/-- A coefficient. -/
def coefficient (d : Bool) : ZMod 2 := if d then 1 else 0

theorem coefficient_xor (d d' : Bool) :
    coefficient (xor d d') = coefficient d + coefficient d' := by
  cases d <;> cases d' <;> rfl

/-- The polynomial of a message. -/
noncomputable def message : List Bool → (ZMod 2)[X]
  | [] => 0
  | d :: bits => C (coefficient d) * X ^ bits.length + message bits

/-- The polynomial of a register. -/
noncomputable def ofRegister (r : BitVec w) : (ZMod 2)[X] :=
  ∑ i ∈ Finset.range w, C (coefficient (r.getLsbD i)) * X ^ i

/-- The polynomial that a register of `w` bits divides by. -/
noncomputable def generator (poly : BitVec w) : (ZMod 2)[X] := X ^ w + ofRegister poly

@[simp] theorem coeff_ofRegister (r : BitVec w) (n : Nat) :
    (ofRegister r).coeff n = coefficient (r.getLsbD n) := by
  rw [ofRegister, finsetSum_coeff]
  simp only [coeff_C_mul, coeff_X_pow, mul_ite, mul_one, mul_zero]
  rw [Finset.sum_ite_eq]
  split
  next => rfl
  next hout =>
    rw [Finset.mem_range, not_lt] at hout
    rw [BitVec.getLsbD_of_ge r n hout]
    rfl

theorem degree_ofRegister_lt (r : BitVec w) : (ofRegister r).degree < w := by
  rw [degree_lt_iff_coeff_zero]
  intro n hn
  rw [coeff_ofRegister, BitVec.getLsbD_of_ge r n hn]
  rfl

theorem ofRegister_xor (r r' : BitVec w) :
    ofRegister (r ^^^ r') = ofRegister r + ofRegister r' := by
  ext n
  rw [coeff_add, coeff_ofRegister, coeff_ofRegister, coeff_ofRegister, BitVec.getLsbD_xor,
    coefficient_xor]

theorem ofRegister_zero : ofRegister (0#w) = 0 := by
  ext n
  rw [coeff_ofRegister, BitVec.getLsbD_zero, coeff_zero]
  rfl

theorem generator_monic (poly : BitVec w) : (generator poly).Monic :=
  monic_X_pow_add (degree_ofRegister_lt poly)

theorem degree_generator (poly : BitVec w) : (generator poly).degree = w := by
  rw [generator, degree_add_eq_left_of_degree_lt, degree_X_pow]
  rw [degree_X_pow]
  exact degree_ofRegister_lt poly

/-! ### The register -/

/-- The bits move up by one power, and the one that falls out is that power. -/
theorem ofRegister_shiftLeft (r : BitVec w) :
    ofRegister (r <<< 1) + C (coefficient r.msb) * X ^ w = ofRegister r * X := by
  ext n
  rw [coeff_add, coeff_ofRegister, coeff_C_mul_X_pow, BitVec.getLsbD_shiftLeft]
  cases n with
  | zero =>
      rw [coeff_mul_X_zero]
      by_cases hw : 0 = w
      · subst hw
        simp [coefficient, BitVec.msb, BitVec.getMsbD]
      · simp [coefficient, hw]
  | succ n =>
      rw [coeff_mul_X, coeff_ofRegister]
      rcases lt_trichotomy (n + 1) w with hlt | rfl | hgt
      · simp [hlt, ne_of_lt hlt]
      · -- the bit at the top
        have hmsb : r.msb = r.getLsbD n := by simp [BitVec.msb, BitVec.getMsbD]
        simp [hmsb, coefficient]
      · have hout : r.getLsbD n = false := BitVec.getLsbD_of_ge r n (Nat.le_of_lt_succ hgt)
        simp [hout, ne_of_gt hgt, coefficient]

/-- A shift is a multiplication, up to a multiple of the generator. -/
theorem ofRegister_shift (poly r : BitVec w) :
    ofRegister (shift poly r) + C (coefficient r.msb) * generator poly = ofRegister r * X := by
  rw [← ofRegister_shiftLeft, shift]
  cases r.msb with
  | false => simp [coefficient]
  | true =>
      rw [if_pos rfl, ofRegister_xor, generator]
      -- the polynomial is added twice
      have htwice := CharTwo.add_self_eq_zero (ofRegister poly)
      simp only [coefficient, if_true, map_one, one_mul]
      linear_combination htwice

/-- A bit at the top of the register. -/
theorem ofRegister_top (hw : 0 < w) (d : Bool) :
    ofRegister (if d then BitVec.twoPow w (w - 1) else 0#w) =
      C (coefficient d) * X ^ (w - 1) := by
  ext n
  rw [coeff_ofRegister, coeff_C_mul_X_pow]
  cases d with
  | false => simp [coefficient]
  | true =>
      have htop : w - 1 < w := Nat.sub_lt hw Nat.one_pos
      simp [coefficient, BitVec.getLsbD_twoPow, htop, eq_comm]

/-- The register behind a message, up to a multiple of the generator. -/
theorem ofRegister_feed_eq (hw : 0 < w) (poly : BitVec w) (bits : List Bool) (r : BitVec w) :
    ∃ q, ofRegister (feed poly r bits) + generator poly * q =
      ofRegister r * X ^ bits.length + message bits * X ^ w := by
  induction bits generalizing r with
  | nil => exact ⟨0, by simp [feed, message]⟩
  | cons d bits ih =>
      let top := if d then BitVec.twoPow w (w - 1) else 0#w
      obtain ⟨q, hq⟩ := ih (shift poly (r ^^^ top))
      have hshift := ofRegister_shift poly (r ^^^ top)
      rw [ofRegister_xor, ofRegister_top hw] at hshift
      have hpower : (X : (ZMod 2)[X]) ^ (w - 1) * X = X ^ w := by
        rw [← pow_succ, Nat.sub_add_cancel hw]
      refine ⟨q + C (coefficient (r ^^^ top).msb) * X ^ bits.length, ?_⟩
      show ofRegister (feed poly (shift poly (r ^^^ top)) bits) + _ = _
      rw [message, List.length_cons]
      linear_combination hq + X ^ bits.length * hshift +
        C (coefficient d) * X ^ bits.length * hpower

/-- An empty register and a message leave the remainder. -/
theorem ofRegister_feed (hw : 0 < w) (poly : BitVec w) (bits : List Bool) :
    ofRegister (feed poly 0#w bits) = (message bits * X ^ w) %ₘ generator poly := by
  obtain ⟨q, hq⟩ := ofRegister_feed_eq hw poly bits 0#w
  rw [ofRegister_zero, zero_mul, zero_add] at hq
  refine (div_modByMonic_unique q _ (generator_monic poly) ⟨hq, ?_⟩).2.symm
  rw [degree_generator]
  exact degree_ofRegister_lt _

/-! ### The other way around -/

/-- One shift of a register that is held the other way around. -/
def shiftDown (poly r : BitVec w) : BitVec w :=
  if r.getLsbD 0 then (r >>> 1) ^^^ poly else r >>> 1

theorem reverse_xor (r r' : BitVec w) : (r ^^^ r').reverse = r.reverse ^^^ r'.reverse := by
  apply BitVec.eq_of_getLsbD_eq
  intro i hi
  rw [BitVec.getLsbD_xor, BitVec.getLsbD_reverse, BitVec.getLsbD_reverse, BitVec.getLsbD_reverse,
    BitVec.getMsbD_xor]

theorem reverse_shift (poly r : BitVec w) :
    (shift poly r).reverse = shiftDown poly.reverse r.reverse := by
  have hdown : (r <<< 1).reverse = r.reverse >>> 1 := by
    apply BitVec.eq_of_getLsbD_eq
    intro i hi
    rw [BitVec.getLsbD_reverse, BitVec.getLsbD_ushiftRight, BitVec.getLsbD_reverse,
      BitVec.getMsbD_shiftLeft, Nat.add_comm]
  have hbit : r.reverse.getLsbD 0 = r.msb := BitVec.getLsbD_reverse
  unfold shift shiftDown
  rw [hbit]
  cases r.msb with
  | false => exact hdown
  | true =>
      rw [if_pos rfl, if_pos rfl, reverse_xor, hdown]

theorem reverse_iterate (poly : BitVec w) (n : Nat) (r : BitVec w) :
    ((shift poly)^[n] r).reverse = (shiftDown poly.reverse)^[n] r.reverse := by
  have hsemi : Function.Semiconj BitVec.reverse (shift poly) (shiftDown poly.reverse) :=
    reverse_shift poly
  exact (hsemi.iterate_right n) r

/-- The bits of a list, the first one at the bottom of the register. -/
theorem getLsbD_reverse_word (bits : List Bool) {i : Nat} (hi : i < w) :
    (word w bits).reverse.getLsbD i = bits.getD i false := by
  rw [BitVec.getLsbD_reverse, BitVec.getMsbD_eq_getLsbD, getLsbD_word bits _ (by omega),
    decide_eq_true hi, Bool.true_and]
  congr 1
  omega

end Ndsl.Lib.CyclicCode
