import Mathlib.Algebra.Group.Int.Defs
import Mathlib.Algebra.Group.Nat.Defs
import Mathlib.Tactic.Common

/-!
# `Ndsl.Lib.Wire`: fields of a serialised message

The wire format of `proto3` messages: varints, the tags of fields, and fields that are numbers or
bytes. A field with its default value is left out. That leaves no way to write a zero byte, except
inside the bytes that a field holds.
-/

set_option autoImplicit false

namespace Ndsl.Lib.Wire

/-- A varint: seven bits in each byte, the lowest ones first, and a bit more in each byte that
another one follows. -/
def varint (n : Nat) : List UInt8 :=
  if n < 128 then [UInt8.ofNat n] else UInt8.ofNat (n % 128 + 128) :: varint (n / 128)
termination_by n
decreasing_by omega

/-- The tag of a field. -/
def tag (field wireType : Nat) : List UInt8 := varint (8 * field + wireType)

/-- A field that is a number. -/
def number (field value : Nat) : List UInt8 :=
  if value = 0 then [] else tag field 0 ++ varint value

/-- An `int32` field. A negative value is extended to 64 bits. -/
def int32 (field : Nat) (value : Int) : List UInt8 :=
  number field ((BitVec.ofInt 32 value).signExtend 64).toNat

/-- A `uint32` field. -/
def uint32 (field value : Nat) : List UInt8 := number field (value % 2 ^ 32)

/-- A `string` or `bytes` field. -/
def bytes (field : Nat) (value : List UInt8) : List UInt8 :=
  if value = [] then [] else tag field 2 ++ (varint value.length ++ value)

/-- A value of an `int32`. -/
def IsInt32 (value : Int) : Prop := -2 ^ 31 ≤ value ∧ value < 2 ^ 31

instance (value : Int) : Decidable (IsInt32 value) := inferInstanceAs (Decidable (_ ∧ _))

/-! ### Sizes -/

theorem length_varint_le (k : Nat) : ∀ {n : Nat}, n < 128 ^ (k + 1) →
    (varint n).length ≤ k + 1 := by
  induction k with
  | zero =>
      intro n hn
      rw [varint, if_pos (by omega)]
      exact Nat.le_refl 1
  | succ k ih =>
      intro n hn
      rw [varint]
      split
      next => exact Nat.le_add_left 1 (k + 1)
      next =>
        rw [List.length_cons]
        refine Nat.succ_le_succ (ih (Nat.div_lt_of_lt_mul ?_))
        rwa [Nat.mul_comm, ← Nat.pow_succ]

/-- The fields with the numbers up to 15 have a tag of one byte. -/
theorem length_tag {field wireType : Nat} (hfield : field < 16) (htype : wireType < 8) :
    (tag field wireType).length = 1 := by
  rw [tag, varint, if_pos (by omega)]
  rfl

theorem length_number_le {field value : Nat} (hfield : field < 16) (hvalue : value < 2 ^ 64) :
    (number field value).length ≤ 11 := by
  unfold number
  split
  next => exact Nat.zero_le 11
  next =>
    have hvarint : (varint value).length ≤ 9 + 1 := length_varint_le 9 (by omega)
    rw [List.length_append, length_tag hfield (by omega)]
    omega

theorem length_int32_le {field : Nat} (hfield : field < 16) (value : Int) :
    (int32 field value).length ≤ 11 :=
  length_number_le hfield (BitVec.isLt _)

theorem length_uint32_le {field : Nat} (hfield : field < 16) (value : Nat) :
    (uint32 field value).length ≤ 11 :=
  length_number_le hfield (by omega)

theorem length_bytes_le {field : Nat} (hfield : field < 16) {value : List UInt8}
    (hvalue : value.length < 2 ^ 31) : (bytes field value).length ≤ 6 + value.length := by
  unfold bytes
  split
  next => exact Nat.zero_le _
  next =>
    have hvarint : (varint value.length).length ≤ 4 + 1 := length_varint_le 4 (by omega)
    rw [List.length_append, List.length_append, length_tag hfield (by omega)]
    omega

/-! ### What is left out -/

theorem varint_ne_nil (n : Nat) : varint n ≠ [] := by
  rw [varint]
  split <;> exact List.cons_ne_nil _ _

section
variable {field : Nat}

theorem eq_zero_of_number {value : Nat} (h : number field value = []) : value = 0 := by
  by_contra hne
  rw [number, if_neg hne] at h
  exact varint_ne_nil _ (List.append_eq_nil_iff.mp h).1

theorem eq_zero_of_int32 {value : Int} (hvalue : IsInt32 value) (h : int32 field value = []) :
    value = 0 := by
  have hbits : (BitVec.ofInt 32 value).signExtend 64 = 0#64 :=
    BitVec.eq_of_toNat_eq (eq_zero_of_number h)
  have hint := congrArg BitVec.toInt hbits
  unfold IsInt32 at hvalue
  rw [BitVec.toInt_signExtend_of_le (by decide), BitVec.toInt_ofInt,
    Int.bmod_eq_of_le (by omega) (by omega)] at hint
  exact hint

theorem eq_zero_of_uint32 {value : Nat} (hvalue : value < 2 ^ 32) (h : uint32 field value = []) :
    value = 0 := by
  rw [← Nat.mod_eq_of_lt hvalue]
  exact eq_zero_of_number h

theorem eq_nil_of_bytes {value : List UInt8} (h : bytes field value = []) : value = [] := by
  by_contra hne
  rw [bytes, if_neg hne] at h
  exact varint_ne_nil _ (List.append_eq_nil_iff.mp h).1

end

/-! ### Zero bytes -/

theorem ofNat_ne_zero {n : Nat} (hpos : 0 < n) (hlt : n < 256) : UInt8.ofNat n ≠ 0 := by
  intro hzero
  have htoNat := congrArg UInt8.toNat hzero
  rw [UInt8.toNat_ofNat', Nat.mod_eq_of_lt hlt] at htoNat
  exact absurd htoNat (Nat.ne_of_gt hpos)

/-- The last byte of a varint holds its highest bits, and the others have a bit more. -/
theorem zero_not_mem_varint {n : Nat} (h : 0 < n) : 0 ∉ varint n := by
  induction n using varint.induct with
  | case1 n hlt =>
      rw [varint, if_pos hlt, List.mem_singleton]
      exact (ofNat_ne_zero h (by omega)).symm
  | case2 n hge ih =>
      rw [varint, if_neg hge, List.mem_cons, not_or]
      exact ⟨(ofNat_ne_zero (by omega) (by omega)).symm, ih (by omega)⟩

variable {field : Nat} (hfield : 0 < field)
include hfield

theorem zero_not_mem_tag (wireType : Nat) : 0 ∉ tag field wireType :=
  zero_not_mem_varint (by omega)

theorem zero_not_mem_number (value : Nat) : 0 ∉ number field value := by
  unfold number
  split
  next => exact List.not_mem_nil
  next hne =>
    rw [List.mem_append, not_or]
    exact ⟨zero_not_mem_tag hfield 0, zero_not_mem_varint (Nat.pos_of_ne_zero hne)⟩

theorem zero_not_mem_bytes {value : List UInt8} (hvalue : 0 ∉ value) : 0 ∉ bytes field value := by
  unfold bytes
  split
  next => exact List.not_mem_nil
  next hne =>
    rw [List.mem_append, List.mem_append, not_or, not_or]
    exact ⟨zero_not_mem_tag hfield 2, zero_not_mem_varint (List.length_pos_iff.mpr hne), hvalue⟩

end Ndsl.Lib.Wire
