import Ndsl.Lib.Numerals

/-!
# `Ndsl.Utils.Guid`: identifiers of 16 bytes

`Guid.cc`. A string is its characters without the zero behind them, and reads that zero at its end.
-/

set_option autoImplicit false

namespace Ndsl.Utils

open Ndsl.Lib.Numerals

/-- `Guid`. -/
@[ext]
structure Guid where
  gu : List UInt8
  size : gu.length = 16
  deriving DecidableEq

namespace Guid

/-- `Guid::toString`, and what is in `str`. -/
def toString (g : Guid) : Int × List UInt8 := (0, g.gu.flatMap fun b => zeroPaddedHex 2 b.toNat)

/-- The value of a character in `toGuid_t`. -/
def nibble (c : UInt8) : Option Nat :=
  if c ≤ 0x39 ∧ c ≥ 0x30 then some (c.toNat - 48)
  else if c = 0x41 ∨ c = 0x61 then some 10
  else if c = 0x42 ∨ c = 0x62 then some 11
  else if c = 0x43 ∨ c = 0x63 then some 12
  else if c = 0x44 ∨ c = 0x64 then some 13
  else if c = 0x45 ∨ c = 0x65 then some 14
  else if c = 0x46 ∨ c = 0x66 then some 15
  else none

/-- The first loop of `toGuid_t`, with `n` characters to go. Where it returns there is no `tmp`. -/
def readLoop : Nat → List UInt8 → Option (List Nat)
  | 0, _ => some []
  | n + 1, str => do
    let d ← nibble (str.headD 0)
    let tmp ← readLoop n str.tail
    return d :: tmp

/-- The second loop: two values are a byte. -/
def pack : List Nat → List UInt8
  | a :: b :: tmp => UInt8.ofNat (a <<< 4 ||| b) :: pack tmp
  | _ => []

theorem length_readLoop {n : Nat} {str : List UInt8} {tmp : List Nat}
    (h : readLoop n str = some tmp) : tmp.length = n := by
  induction n generalizing str tmp with
  | zero => rw [← Option.some.inj h, List.length_nil]
  | succ n ih =>
      obtain ⟨d, -, h⟩ := Option.bind_eq_some_iff.mp h
      obtain ⟨ds, hds, h⟩ := Option.bind_eq_some_iff.mp h
      rw [← Option.some.inj h, List.length_cons, ih hds]

theorem length_pack {n : Nat} {tmp : List Nat} (h : tmp.length = 2 * n) :
    (pack tmp).length = n := by
  induction n generalizing tmp with
  | zero => rw [List.length_eq_zero_iff.mp h]; rfl
  | succ n ih =>
      obtain ⟨a, b, rest, rfl⟩ : ∃ a b rest, tmp = a :: b :: rest := by
        match tmp, h with
        | a :: b :: rest, _ => exact ⟨a, b, rest, rfl⟩
      have hrest : rest.length = 2 * n := by
        rw [List.length_cons, List.length_cons] at h
        omega
      rw [pack, List.length_cons, ih hrest]

/-- `Guid::toGuid_t`. -/
def toGuid_t (g : Guid) (str : List UInt8) : Int × Guid :=
  match h : readLoop 32 str with
  | none => (-1, g)
  | some tmp => (0, { gu := pack tmp, size := length_pack (length_readLoop h) })

/-- `operator==`. -/
def equal (g guid : Guid) : Bool := g.gu = guid.gu

/-- The inner loop of the comparisons, with `j` bits to go and the mask `n`. -/
def bitLoop (before : Nat → Nat → Bool) (a b : UInt8) : Nat → Nat → Option Bool
  | 0, _ => none
  | j + 1, n =>
    if before (a.toNat &&& n) (b.toNat &&& n) then some true
    else if before (b.toNat &&& n) (a.toNat &&& n) then some false
    else bitLoop before a b j (n / 2)

/-- The outer loop. Behind each byte the mask is `128` again. -/
def byteLoop (before : Nat → Nat → Bool) : List UInt8 → List UInt8 → Nat → Bool
  | a :: as, b :: bs, n =>
    match bitLoop before a b 8 n with
    | some result => result
    | none => byteLoop before as bs 128
  | _, _, _ => false

/-- `operator<`. -/
def less (g guid : Guid) : Bool := byteLoop (fun x y => x < y) g.gu guid.gu 128

/-- `operator>`. -/
def greater (g guid : Guid) : Bool := byteLoop (fun x y => x > y) g.gu guid.gu 128

end Guid

end Ndsl.Utils
