import Ndsl.Lib.Bytes
import Ndsl.Lib.Traced

/-!
# `Ndsl.Lib.Blocks`: blocks of memory that are allocated and written

`Store ω` is one step of a program on its blocks, which go by the names `ω`: it allocates a block of
a size, or writes bytes of a block. `Inside` says of a program that it asks for no negative size and
writes no byte outside the block. It goes through the stores one by one, with the sizes of the
blocks that there are, and `inside_append` splits a longer program into its parts.

`calloc`, `memset`, `strcpy` and `strcat` are the functions of C by that name, as the stores that
they make. What a block holds is the string that they return.
-/

set_option autoImplicit false

namespace Ndsl.Lib

/-- What a program does with its blocks. -/
inductive Store (ω : Type)
  | alloc (block : ω) (size : Int)
  /-- Writes `n` bytes, from the byte `pos` of the block on. -/
  | write (block : ω) (pos n : Nat)
  deriving Repr, DecidableEq

namespace Store

variable {ω : Type} [DecidableEq ω]

/-- The sizes of the blocks behind a program. -/
def sizesAfter (sizes : ω → Option Int) (log : List (Store ω)) : ω → Option Int :=
  log.foldl (fun sizes x => match x with
    | alloc block size => Function.update sizes block (some size)
    | write _ _ _ => sizes) sizes

/-- The bytes of a store belong to its block. -/
def Ok (sizes : ω → Option Int) : Store ω → Prop
  | alloc _ size => 0 ≤ size
  | write block pos n => ∃ size, sizes block = some size ∧ (pos : Int) + n ≤ size

/-- All stores of a program that begins with blocks of these sizes are inside their blocks. -/
def Inside (sizes : ω → Option Int) : List (Store ω) → Prop
  | [] => True
  | x :: log => Ok sizes x ∧ Inside (sizesAfter sizes [x]) log

@[simp] theorem sizesAfter_nil (sizes : ω → Option Int) : sizesAfter sizes [] = sizes := rfl

@[simp] theorem sizesAfter_alloc (sizes : ω → Option Int) (block : ω) (size : Int) :
    sizesAfter sizes [alloc block size] = Function.update sizes block (some size) := rfl

@[simp] theorem sizesAfter_write (sizes : ω → Option Int) (block : ω) (pos n : Nat) :
    sizesAfter sizes [write block pos n] = sizes := rfl

@[simp] theorem inside_nil (sizes : ω → Option Int) : Inside sizes [] := trivial

@[simp] theorem inside_alloc_cons (sizes : ω → Option Int) (block : ω) (size : Int)
    (log : List (Store ω)) : Inside sizes (alloc block size :: log) ↔
      0 ≤ size ∧ Inside (Function.update sizes block (some size)) log := Iff.rfl

/-- A write into a block of a known size. -/
theorem inside_write_cons {sizes : ω → Option Int} {block : ω} {size : Int}
    (hsize : sizes block = some size) (pos n : Nat) (log : List (Store ω)) :
    Inside sizes (write block pos n :: log) ↔ (pos : Int) + n ≤ size ∧ Inside sizes log := by
  have hok : Ok sizes (write block pos n) ↔ (pos : Int) + n ≤ size := by
    constructor
    · rintro ⟨size', hsize', hle⟩
      rwa [Option.some.inj (hsize.symm.trans hsize')]
    · exact fun hle => ⟨size, hsize, hle⟩
  rw [Inside, hok, sizesAfter_write]

/-- Two parts of a program, one after the other. -/
theorem inside_append {sizes : ω → Option Int} {log log' : List (Store ω)} :
    Inside sizes (log ++ log') ↔ Inside sizes log ∧ Inside (sizesAfter sizes log) log' := by
  induction log generalizing sizes with
  | nil => exact ⟨fun h => ⟨trivial, h⟩, fun h => h.2⟩
  | cons x log ih =>
      have hsizes : sizesAfter sizes (x :: log) = sizesAfter (sizesAfter sizes [x]) log := rfl
      rw [List.cons_append, Inside, Inside, ih, hsizes, and_assoc]

/-- A list of writes into one block of a known size. -/
theorem inside_writes {sizes : ω → Option Int} {block : ω} {size : Int}
    (hsize : sizes block = some size) (writes : List (Nat × Nat)) :
    Inside sizes (writes.map fun x => write block x.1 x.2) ↔
      ∀ x ∈ writes, (x.1 : Int) + x.2 ≤ size := by
  induction writes with
  | nil => exact ⟨fun _ x hx => absurd hx List.not_mem_nil, fun _ => trivial⟩
  | cons x writes ih =>
      rw [List.map_cons, inside_write_cons hsize, ih, List.forall_mem_cons]

/-! ### Functions of C -/

/-- `block = calloc(size, 1)`, and `new` of that many bytes. -/
def calloc (block : ω) (size : Int) : Traced (Store ω) Unit := .tell [.alloc block size]

/-- `memset` of the first `n` bytes. -/
def memset (block : ω) (n : Nat) : Traced (Store ω) Unit := .tell [.write block 0 n]

/-- `strcpy(block, src)`. -/
def strcpy (block : ω) (src : List UInt8) : Traced (Store ω) (List UInt8) :=
  ⟨[.write block 0 ((cstring src).length + 1)], some (cstring src)⟩

/-- `strcat(block, src)`, where the block holds the string `dst`. -/
def strcat (block : ω) (dst src : List UInt8) : Traced (Store ω) (List UInt8) :=
  ⟨[.write block dst.length ((cstring src).length + 1)], some (dst ++ cstring src)⟩

end Store

end Ndsl.Lib
