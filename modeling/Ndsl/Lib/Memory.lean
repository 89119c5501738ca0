import Mathlib.Data.List.GetD
import Mathlib.Tactic.Common

/-!
# `Ndsl.Lib.Memory`: bytes by address

A memory has a byte at every address. `read` takes bytes from it and `write` puts bytes there. An
address that lies outside the block a program allocated is an address like any other, so that
what a program does beyond its blocks can be described.
-/

set_option autoImplicit false

namespace Ndsl.Lib

/-- The bytes, by address. -/
def Memory : Type := Int → UInt8

namespace Memory

/-- The `n` bytes at `pos`. -/
def read (mem : Memory) (pos : Int) (n : Nat) : List UInt8 :=
  (List.range n).map fun i : Nat => mem (pos + (i : Int))

/-- The memory with `bytes` at `pos`. -/
def write (mem : Memory) (pos : Int) (bytes : List UInt8) : Memory := fun a =>
  if pos ≤ a ∧ a < pos + bytes.length then bytes.getD (a - pos).toNat 0 else mem a

@[simp] theorem length_read (mem : Memory) (pos : Int) (n : Nat) : (mem.read pos n).length = n := by
  rw [read, List.length_map, List.length_range]

/-- What was written is read. -/
@[simp] theorem read_write (mem : Memory) (pos : Int) (bytes : List UInt8) :
    (mem.write pos bytes).read pos bytes.length = bytes := by
  refine List.ext_getElem (length_read ..) ?_
  intro i h h'
  have hin : pos ≤ pos + (i : Int) ∧ pos + (i : Int) < pos + bytes.length := by omega
  have hindex : (pos + (i : Int) - pos).toNat = i := by omega
  simp only [read, write, List.getElem_map, List.getElem_range, if_pos hin, hindex]
  exact List.getD_eq_getElem _ _ h'

end Memory

end Ndsl.Lib
