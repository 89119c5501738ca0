import Mathlib.Algebra.Group.Int.Defs
import Mathlib.Algebra.Ring.Nat
import Mathlib.Tactic.Common

/-!
# `Ndsl.Net.Basic`: the constants and the integer types of the network code

`Error.h`, `config.h.in`, and the conversions between `int` and `size_t` that the network code
makes without saying so.
-/

set_option autoImplicit false

namespace Ndsl.Net

/-- `S_OK`. -/
def S_OK : Int := 0

/-- `S_FALSE`. -/
def S_FALSE : Int := -1

/-- `MAXLINE`: the size of every receive buffer. -/
def MAXLINE : Nat := 16384

/-- The greatest `int`. -/
def INT_MAX : Int := 2 ^ 31 - 1

/-- A number converted to `int`. -/
def toInt (n : Nat) : Int := ((n : Int) + 2 ^ 31) % 2 ^ 32 - 2 ^ 31

/-- An integer converted to `size_t`. -/
def toSize (i : Int) : Nat := (i % 2 ^ 64).toNat

theorem toInt_of_lt {n : Nat} (h : n < 2 ^ 31) : toInt n = n := by
  unfold toInt
  omega

/-- An `int` that is not negative is the number it was converted from. -/
theorem eq_of_toInt_eq {m n : Nat} (hm : m < 2 ^ 32) (h : toInt m = n) : m = n := by
  unfold toInt at h
  omega

theorem toSize_of_nonneg {i : Int} (h : 0 ≤ i) (h' : i < 2 ^ 64) : toSize i = i.toNat := by
  unfold toSize
  omega

/-- An `int` survives the way through `size_t` and its low 32 bits. -/
theorem toInt_toSize {i : Int} (h : -2 ^ 31 ≤ i) (h' : i < 2 ^ 31) :
    toInt (toSize i % 2 ^ 32) = i := by
  unfold toInt toSize
  omega

/-- A negative integer becomes a size that no object has. -/
theorem toSize_of_neg {i : Int} (h : i < 0) (h' : -2 ^ 63 ≤ i) : 2 ^ 63 ≤ toSize i := by
  unfold toSize
  omega

end Ndsl.Net
