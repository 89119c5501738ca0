import Mathlib.Algebra.Group.Nat.Defs
import Mathlib.Tactic.Common
import Mathlib.Data.List.Basic
import Mathlib.Data.List.GetD
import Mathlib.Data.List.TakeWhile

/-!
# `Ndsl.Lib.Bytes`: bytes in memory

What C code does with a byte buffer, on lists of bytes.

* `window src pos n`: the `n` bytes at `pos` of a buffer that holds `src` and is zero behind
  it. `window_of_append` and `window_of_short` read off the window of a buffer whose content
  is known from `pos` on.
* `overwrite dst pos src`: `memcpy` into the middle of a block.
* `cstrlen`: `strlen` inside a block, which is the length of the block when it holds no zero.
* `terminated`: the string of a block that ends inside it, and when copied bytes are that string.
* `nonzero`: how many bytes are not zero.
* `be16`, `be32`, `ofBE`: two and four bytes big endian, and the number that such bytes stand for.
-/

set_option autoImplicit false

namespace Ndsl.Lib

/-! ### Windows -/

/-- The `n` bytes at `pos` of a buffer that holds `src` and zeros behind it. -/
def window (src : List UInt8) (pos n : Nat) : List UInt8 :=
  (List.range n).map fun i => src.getD (pos + i) 0

@[simp] theorem length_window (src : List UInt8) (pos n : Nat) :
    (window src pos n).length = n := by
  simp [window]

@[simp] theorem getElem_window (src : List UInt8) (pos n i : Nat)
    (h : i < (window src pos n).length) : (window src pos n)[i] = src.getD (pos + i) 0 := by
  simp [window]

/-- A window is empty only when its length is zero. -/
@[simp] theorem window_zero (src : List UInt8) (pos : Nat) : window src pos 0 = [] := rfl

/-- Two windows, one behind the other. -/
theorem window_add (src : List UInt8) (pos m n : Nat) :
    window src pos (m + n) = window src pos m ++ window src (pos + m) n := by
  simp only [window, List.range_add, List.map_append, List.map_map, Nat.add_assoc]
  rfl

/-- A window inside the buffer. -/
theorem window_of_le {src : List UInt8} {pos n : Nat} (h : pos + n ≤ src.length) :
    window src pos n = (src.drop pos).take n := by
  refine List.ext_getElem (by simp; omega) ?_
  intro i h₁ h₂
  have hi : i < n := by simpa using h₁
  rw [getElem_window, List.getElem_take, List.getElem_drop, List.getD_eq_getElem]

/-- A window that starts at or behind the end. -/
theorem window_of_ge {src : List UInt8} {pos : Nat} (n : Nat) (h : src.length ≤ pos) :
    window src pos n = List.replicate n 0 := by
  refine List.ext_getElem (by simp) ?_
  intro i h₁ h₂
  rw [getElem_window, List.getElem_replicate, List.getD_eq_default]
  omega

/-- A window that reaches past the end is what is left, and zeros. -/
theorem window_of_lt {src : List UInt8} {pos n : Nat} (hpos : pos ≤ src.length)
    (h : src.length ≤ pos + n) :
    window src pos n = src.drop pos ++ List.replicate (pos + n - src.length) 0 := by
  obtain ⟨m, rfl⟩ : ∃ m, n = (src.length - pos) + m := ⟨n - (src.length - pos), by omega⟩
  rw [window_add, window_of_le (by omega), window_of_ge m (by omega), List.take_of_length_le]
  · congr 2
    omega
  · simp

/-- The window over content that is known: it has arrived as a whole. -/
theorem window_of_append {src rest x y : List UInt8} {pos : Nat}
    (h : src.drop pos ++ rest = x ++ y) (hle : pos + x.length ≤ src.length) :
    window src pos x.length = x ∧ src.drop (pos + x.length) ++ rest = y := by
  have hlen : x.length ≤ (src.drop pos).length := by
    rw [List.length_drop]
    omega
  have hx : (src.drop pos).take x.length = x := by
    have := congrArg (List.take x.length) h
    rwa [List.take_append_of_le_length hlen, List.take_left'  rfl] at this
  refine ⟨by rw [window_of_le hle, hx], ?_⟩
  have hy := congrArg (List.drop x.length) h
  rwa [List.drop_append_of_le_length hlen, List.drop_left' rfl, List.drop_drop] at hy

/-- The window over content that is known: only the part before the end has arrived. -/
theorem window_of_short {src rest x y : List UInt8} {pos : Nat}
    (h : src.drop pos ++ rest = x ++ y) (hpos : pos ≤ src.length)
    (hle : src.length ≤ pos + x.length) :
    window src pos x.length = x.take (src.length - pos)
        ++ List.replicate (pos + x.length - src.length) 0 ∧
      rest = x.drop (src.length - pos) ++ y := by
  have hlen : (src.drop pos).length = src.length - pos := List.length_drop
  have hx : src.drop pos = x.take (src.length - pos) := by
    have := congrArg (List.take (src.length - pos)) h
    rwa [List.take_left' hlen, List.take_append_of_le_length (by omega)] at this
  refine ⟨by rw [window_of_lt hpos hle, hx], ?_⟩
  have hy := congrArg (List.drop (src.length - pos)) h
  rwa [List.drop_left' hlen, List.drop_append_of_le_length (by omega)] at hy

/-- A chunk that ends inside a known piece of a stream is the front of that piece. -/
theorem front_of_append {chunk rest x y : List UInt8} (h : chunk ++ rest = x ++ y)
    (hle : chunk.length ≤ x.length) :
    chunk = x.take chunk.length ∧ rest = x.drop chunk.length ++ y := by
  constructor
  · have := congrArg (List.take chunk.length) h
    rwa [List.take_left, List.take_append_of_le_length hle] at this
  · have := congrArg (List.drop chunk.length) h
    rwa [List.drop_left, List.drop_append_of_le_length hle] at this

/-- Known content stays known behind `pos` as far as the bytes are the same ones. -/
theorem drop_of_front {src dst x y : List UInt8} {pos : Nat} (h : src.drop pos = x ++ y)
    (hfront : dst.take (pos + x.length) = src.take (pos + x.length)) :
    dst.drop pos = x ++ dst.drop (pos + x.length) := by
  have hx : (dst.drop pos).take x.length = x := by
    rw [List.take_drop, hfront, ← List.take_drop, h, List.take_left]
  rw [← List.drop_drop]
  exact (List.take_append_drop x.length (dst.drop pos)).symm.trans
    (congrArg (· ++ (dst.drop pos).drop x.length) hx)

/-! ### `memcpy` into a block -/

/-- The block `dst` after `src` has been copied to its position `pos`. -/
def overwrite (dst : List UInt8) (pos : Nat) (src : List UInt8) : List UInt8 :=
  dst.take pos ++ src ++ dst.drop (pos + src.length)

theorem length_overwrite {dst src : List UInt8} {pos : Nat}
    (h : pos + src.length ≤ dst.length) : (overwrite dst pos src).length = dst.length := by
  simp only [overwrite, List.length_append, List.length_take, List.length_drop]
  omega

/-- What lies before the position stays. -/
theorem take_overwrite {dst src : List UInt8} {pos k : Nat} (hk : k ≤ pos)
    (hpos : pos ≤ dst.length) : (overwrite dst pos src).take k = dst.take k := by
  have hle : k ≤ (dst.take pos ++ src).length := by
    rw [List.length_append, List.length_take]
    omega
  rw [overwrite, List.take_append_of_le_length hle,
    List.take_append_of_le_length (by rw [List.length_take]; omega), List.take_take, min_eq_left hk]

/-- What lies behind the copy stays. -/
theorem drop_overwrite {dst src : List UInt8} {pos k : Nat} (hk : pos + src.length ≤ k)
    (hpos : pos ≤ dst.length) : (overwrite dst pos src).drop k = dst.drop k := by
  have hlength : (dst.take pos ++ src).length = pos + src.length := by
    rw [List.length_append, List.length_take, min_eq_left hpos]
  rw [overwrite, List.drop_append, hlength, List.drop_drop,
    List.drop_eq_nil_of_le (by rw [hlength]; exact hk), List.nil_append]
  congr 1
  omega

/-- What has been copied. -/
theorem take_drop_overwrite {dst src : List UInt8} {pos : Nat} (hpos : pos ≤ dst.length) :
    ((overwrite dst pos src).drop pos).take src.length = src := by
  have hlength : (dst.take pos).length = pos := by rw [List.length_take, min_eq_left hpos]
  rw [overwrite, List.append_assoc, List.drop_left' hlength, List.take_left]

/-- A copy that ends where the block ends. -/
theorem overwrite_of_eq {dst src : List UInt8} {pos : Nat}
    (h : pos + src.length = dst.length) : overwrite dst pos src = dst.take pos ++ src := by
  rw [overwrite, h, List.drop_length, List.append_nil]

/-! ### Strings -/

/-- `strlen` inside a block: the number of bytes before the first zero. -/
def cstrlen (block : List UInt8) : Nat := (block.takeWhile (· ≠ 0)).length

/-- The string a block holds. -/
def cstring (block : List UInt8) : List UInt8 := block.take (cstrlen block)

theorem cstrlen_le_length (block : List UInt8) : cstrlen block ≤ block.length :=
  (List.takeWhile_sublist _).length_le

@[simp] theorem cstrlen_nil : cstrlen [] = 0 := rfl

@[simp] theorem cstrlen_zero_cons (block : List UInt8) : cstrlen (0 :: block) = 0 := rfl

theorem cstrlen_cons {b : UInt8} (h : b ≠ 0) (block : List UInt8) :
    cstrlen (b :: block) = cstrlen block + 1 := by
  have hb : decide (b ≠ 0) = true := decide_eq_true h
  simp only [cstrlen, List.takeWhile_cons, hb, if_true, List.length_cons]

/-- Behind a string there is its zero. -/
theorem getElem_cstrlen {block : List UInt8} (h : cstrlen block < block.length) :
    block[cstrlen block] = 0 := by
  induction block with
  | nil => exact absurd h (Nat.not_lt_zero _)
  | cons b block ih =>
      by_cases hb : b = 0
      · subst hb
        rfl
      · have hlen : cstrlen (b :: block) = cstrlen block + 1 := cstrlen_cons hb block
        simp only [hlen, List.getElem_cons_succ]
        exact ih (by rwa [hlen, List.length_cons, Nat.add_lt_add_iff_right] at h)

/-- What follows does not change a string that is ended by a zero. -/
theorem cstrlen_append_of_lt {block : List UInt8} (h : cstrlen block < block.length)
    (more : List UInt8) : cstrlen (block ++ more) = cstrlen block := by
  induction block with
  | nil => exact absurd h (Nat.not_lt_zero _)
  | cons b block ih =>
      by_cases hb : b = 0
      · subst hb
        rfl
      · rw [cstrlen_cons hb, List.length_cons] at h
        rw [List.cons_append, cstrlen_cons hb, cstrlen_cons hb, ih (Nat.lt_of_succ_lt_succ h)]

/-- A block without a zero in front of another block. -/
theorem cstrlen_append {block : List UInt8} (h : 0 ∉ block) (more : List UInt8) :
    cstrlen (block ++ more) = block.length + cstrlen more := by
  have hall : ∀ b ∈ block, decide (b ≠ 0) = true := by
    intro b hb
    exact decide_eq_true (fun hz => h (hz ▸ hb))
  rw [cstrlen, List.takeWhile_append_of_pos hall, List.length_append, cstrlen]

/-- A block without a zero is read to its end. -/
theorem cstrlen_of_not_mem {block : List UInt8} (h : 0 ∉ block) :
    cstrlen block = block.length := by
  have := cstrlen_append h []
  rwa [List.append_nil] at this

@[simp] theorem cstrlen_replicate_zero (n : Nat) : cstrlen (List.replicate n 0) = 0 := by
  cases n with
  | zero => rfl
  | succ n => simp [cstrlen, List.replicate_succ]

/-- Only a block without a zero is read to its end. -/
theorem cstrlen_eq_length_iff (block : List UInt8) :
    cstrlen block = block.length ↔ 0 ∉ block := by
  refine ⟨fun h hmem => ?_, cstrlen_of_not_mem⟩
  have hself : block.takeWhile (· ≠ 0) = block :=
    (List.takeWhile_prefix _).eq_of_length h
  have := List.mem_takeWhile_imp (hself ▸ hmem)
  simp at this

/-- A string holds no zero. -/
theorem zero_not_mem_cstring (block : List UInt8) : (0 : UInt8) ∉ cstring block := by
  intro hmem
  have hpre : block.take (cstrlen block) = block.takeWhile (· ≠ 0) :=
    (List.prefix_iff_eq_take.mp (List.takeWhile_prefix _)).symm
  rw [cstring, hpre] at hmem
  have := List.mem_takeWhile_imp hmem
  simp at this

/-- Only a block without a zero is a string as a whole. -/
theorem cstring_eq_self_iff (block : List UInt8) : cstring block = block ↔ 0 ∉ block := by
  constructor
  · intro h
    rw [← h]
    exact zero_not_mem_cstring block
  · intro h
    rw [cstring, cstrlen_of_not_mem h, List.take_length]

/-- A string is the string of itself. -/
@[simp] theorem cstring_cstring (block : List UInt8) : cstring (cstring block) = cstring block := by
  rw [cstring, cstrlen_of_not_mem (zero_not_mem_cstring block), List.take_length]

/-- The string of a block that begins with one. -/
theorem cstring_append {block : List UInt8} (h : 0 ∉ block) (more : List UInt8) :
    cstring (block ++ more) = block ++ cstring more := by
  rw [cstring, cstrlen_append h, List.take_length_add_append, cstring]

/-- The string a block holds, where a zero ends it inside the block. -/
def terminated (block : List UInt8) : Option (List UInt8) :=
  if 0 ∈ block then some (cstring block) else none

/-- Such a string holds no zero, and its length is what `strlen` finds. -/
theorem of_terminated {block s : List UInt8} (h : terminated block = some s) :
    0 ∉ s ∧ cstrlen block = s.length ∧ block.take s.length = s := by
  obtain ⟨-, rfl⟩ : 0 ∈ block ∧ cstring block = s := by
    simpa only [terminated, Option.ite_none_right_eq_some, Option.some_inj] using h
  have hlength : (cstring block).length = cstrlen block :=
    List.length_take_of_le (cstrlen_le_length block)
  exact ⟨zero_not_mem_cstring block, hlength.symm, by rw [hlength, cstring]⟩

/-- Bytes that were copied are the string of their block exactly where a zero was left behind
them. -/
theorem terminated_append_iff {s : List UInt8} (h : 0 ∉ s) (rest : List UInt8) :
    terminated (s ++ rest) = some s ↔ rest.head? = some 0 := by
  rw [terminated, Option.ite_none_right_eq_some, Option.some_inj, cstring_append h,
    List.append_right_eq_self]
  cases rest with
  | nil => simp [h]
  | cons b rest =>
      by_cases hb : b = 0
      · simp [hb, cstring]
      · simp [hb, cstring, cstrlen_cons hb]

/-! ### Chunks -/

/-- `chunks` are a block cut into parts of 1 to `max` bytes. -/
structure Cutting (max : Nat) (block : List UInt8) (chunks : List (List UInt8)) : Prop where
  flatten : chunks.flatten = block
  nonempty : ∀ chunk ∈ chunks, chunk ≠ []
  length_le : ∀ chunk ∈ chunks, chunk.length ≤ max

namespace Cutting

variable {max : Nat} {block chunk : List UInt8} {chunks : List (List UInt8)}

/-- The block is one chunk. -/
theorem eq_of_singleton (h : Cutting max block [chunk]) : chunk = block := by
  have := h.flatten
  rwa [List.flatten_cons, List.flatten_nil, List.append_nil] at this

/-- A chunk that more chunks follow is not the whole block. -/
theorem length_lt (h : Cutting max block (chunk :: chunks)) (hmore : chunks ≠ []) :
    chunk.length < block.length := by
  obtain ⟨next, chunks, rfl⟩ := List.exists_cons_of_ne_nil hmore
  have hnext : 0 < next.length :=
    List.length_pos_iff.mpr (h.nonempty next (List.mem_cons_of_mem _ (List.mem_cons_self ..)))
  rw [← h.flatten, List.flatten_cons, List.flatten_cons, List.length_append, List.length_append]
  omega

/-- There is a chunk. -/
theorem ne_nil (h : Cutting max block chunks) (hblock : block ≠ []) : chunks ≠ [] := by
  rintro rfl
  exact hblock h.flatten.symm

end Cutting

/-! ### Counting the bytes that are not zero -/

/-- The number of bytes that are not zero. -/
def nonzero (bytes : List UInt8) : Nat := bytes.countP (· ≠ 0)

@[simp] theorem nonzero_nil : nonzero [] = 0 := rfl

@[simp] theorem nonzero_append (xs ys : List UInt8) :
    nonzero (xs ++ ys) = nonzero xs + nonzero ys := List.countP_append

@[simp] theorem nonzero_replicate_zero (n : Nat) : nonzero (List.replicate n 0) = 0 := by
  simp [nonzero, List.countP_replicate]

theorem nonzero_of_not_mem {bytes : List UInt8} (h : 0 ∉ bytes) :
    nonzero bytes = bytes.length := by
  rw [nonzero, List.countP_eq_length]
  intro b hb
  exact decide_eq_true (fun hz => h (hz ▸ hb))

/-- A string is no longer than the bytes of its block that are not zero. -/
theorem cstrlen_le_nonzero (block : List UInt8) : cstrlen block ≤ nonzero block := by
  rw [cstrlen, nonzero, List.countP_eq_length_filter]
  have hself : (block.takeWhile (· ≠ 0)).filter (· ≠ 0) = block.takeWhile (· ≠ 0) :=
    List.filter_eq_self.mpr fun b hb => List.mem_takeWhile_imp (p := fun b => decide (b ≠ 0)) hb
  rw [← hself]
  exact ((List.takeWhile_prefix _).filter _).sublist.length_le

/-! ### Big-endian numbers -/

/-- The number that big-endian bytes stand for. -/
def ofBE (bytes : List UInt8) : Nat := bytes.foldl (fun n b => 256 * n + b.toNat) 0

/-- The low 32 bits of a number, big endian. -/
def be32 (n : Nat) : List UInt8 :=
  [UInt8.ofNat (n / 2 ^ 24), UInt8.ofNat (n / 2 ^ 16), UInt8.ofNat (n / 2 ^ 8), UInt8.ofNat n]

@[simp] theorem length_be32 (n : Nat) : (be32 n).length = 4 := rfl

/-- The low 16 bits of a number, big endian. -/
def be16 (n : Nat) : List UInt8 := [UInt8.ofNat (n / 2 ^ 8), UInt8.ofNat n]

@[simp] theorem length_be16 (n : Nat) : (be16 n).length = 2 := rfl

theorem ofBE_be16 (n : Nat) : ofBE (be16 n) = n % 2 ^ 16 := by
  simp only [ofBE, be16, List.foldl_cons, List.foldl_nil, UInt8.toNat_ofNat']
  omega

theorem ofBE_be32 (n : Nat) : ofBE (be32 n) = n % 2 ^ 32 := by
  simp only [ofBE, be32, List.foldl_cons, List.foldl_nil, UInt8.toNat_ofNat']
  omega

theorem exists_eq_of_length_four {bytes : List UInt8} (h : bytes.length = 4) :
    ∃ a b c d, bytes = [a, b, c, d] := by
  match bytes, h with
  | [a, b, c, d], _ => exact ⟨a, b, c, d, rfl⟩

/-- Four bytes are what their number is written as. -/
theorem be32_ofBE {bytes : List UInt8} (h : bytes.length = 4) : be32 (ofBE bytes) = bytes := by
  obtain ⟨a, b, c, d, rfl⟩ := exists_eq_of_length_four h
  have ha := a.toNat_lt
  have hb := b.toNat_lt
  have hc := c.toNat_lt
  have hd := d.toNat_lt
  simp only [be32, ofBE, List.foldl_cons, List.foldl_nil, List.cons.injEq, and_true,
    ← UInt8.toNat_inj, UInt8.toNat_ofNat']
  omega

theorem ofBE_lt {bytes : List UInt8} (h : bytes.length = 4) : ofBE bytes < 2 ^ 32 := by
  obtain ⟨a, b, c, d, rfl⟩ := exists_eq_of_length_four h
  have ha := a.toNat_lt
  have hb := b.toNat_lt
  have hc := c.toNat_lt
  have hd := d.toNat_lt
  simp only [ofBE, List.foldl_cons, List.foldl_nil]
  omega

/-- What a window shows and what lies behind it are the bytes from its start on. -/
theorem nonzero_window (src : List UInt8) (pos n : Nat) :
    nonzero (window src pos n) + nonzero (src.drop (pos + n)) = nonzero (src.drop pos) := by
  rcases Nat.le_total (pos + n) src.length with hle | hge
  · rw [window_of_le hle, ← nonzero_append, ← List.drop_drop, List.take_append_drop]
  · rw [List.drop_eq_nil_of_le hge, nonzero_nil, Nat.add_zero]
    rcases Nat.le_total pos src.length with hpos | hpos
    · rw [window_of_lt hpos hge, nonzero_append, nonzero_replicate_zero, Nat.add_zero]
    · rw [window_of_ge n hpos, List.drop_eq_nil_of_le hpos, nonzero_replicate_zero, nonzero_nil]

end Ndsl.Lib
