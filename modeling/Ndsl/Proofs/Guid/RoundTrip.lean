import Ndsl.Utils.Guid

/-!
# `Ndsl.Proofs.Guid.RoundTrip`: a guid and its text

`toString` prints two hexadecimal digits for each byte, and `toGuid_t` reads the values of 32
characters before it changes anything. `text_round_trip` says that each of them undoes the other, up
to the case of the letters, and that a text with another character leaves the guid alone.
-/

set_option autoImplicit false

namespace Ndsl.Proofs.Guid

open Ndsl.Lib.Numerals
open Ndsl.Utils Ndsl.Utils.Guid

/-! ### Statements -/

/-- A hexadecimal digit, in any case. -/
def IsHexDigit (c : UInt8) : Prop :=
  (0x30 ≤ c ∧ c ≤ 0x39) ∨ (0x41 ≤ c ∧ c ≤ 0x46) ∨ (0x61 ≤ c ∧ c ≤ 0x66)

instance (c : UInt8) : Decidable (IsHexDigit c) :=
  inferInstanceAs (Decidable (_ ∨ _ ∨ _))

/-- A letter in upper case. -/
def upperCase (c : UInt8) : UInt8 := if 0x61 ≤ c ∧ c ≤ 0x7A then c - 0x20 else c

/-! ### Characters -/

theorem nibble_upperHexChar {d : Nat} (hd : d < 16) : nibble (upperHexChar d) = some d := by
  have h : ∀ d < 16, nibble (upperHexChar d) = some d := by decide
  exact h d hd

/-- `toGuid_t` knows the hexadecimal digits and no other characters. -/
theorem nibble_cases (c : UInt8) :
    (IsHexDigit c ∧ ∃ d < 16, nibble c = some d ∧ upperHexChar d = upperCase c) ∨
      (¬ IsHexDigit c ∧ nibble c = none) := by
  have h : ∀ n : Fin 256,
      (IsHexDigit (UInt8.ofNat n) ∧ ∃ d < 16, nibble (UInt8.ofNat n) = some d ∧
        upperHexChar d = upperCase (UInt8.ofNat n)) ∨
      (¬ IsHexDigit (UInt8.ofNat n) ∧ nibble (UInt8.ofNat n) = none) := by decide +kernel
  have hc := h ⟨c.toNat, c.toNat_lt⟩
  rwa [UInt8.ofNat_toNat] at hc

/-- The two digits of a byte. -/
theorem zeroPaddedHex_byte (b : UInt8) : zeroPaddedHex 2 b.toNat =
    [upperHexChar (b.toNat / 16), upperHexChar (b.toNat % 16)] := by
  have hlt : b.toNat < 16 ^ (1 + 1) := b.toNat_lt
  have hhigh : b.toNat / 16 % 16 = b.toNat / 16 := Nat.mod_eq_of_lt (by omega)
  rw [zeroPaddedHex_of_lt hlt]
  simp [fixed, hhigh]

/-! ### The loops -/

section Loops
variable {str : List UInt8} {tmp : List Nat} {n : Nat}

/-- The first loop comes to its end when every character is a digit. -/
theorem readLoop_of_digits (hlength : str.length = n) (h : ∀ c ∈ str, IsHexDigit c) :
    ∃ tmp, readLoop n str = some tmp ∧ tmp.map upperHexChar = str.map upperCase ∧
      ∀ d ∈ tmp, d < 16 := by
  induction str generalizing n with
  | nil =>
      subst hlength
      exact ⟨[], rfl, rfl, nofun⟩
  | cons c str ih =>
      subst hlength
      obtain ⟨hc, hstr⟩ := List.forall_mem_cons.mp h
      obtain ⟨-, d, hd, hnibble, hupper⟩ | ⟨hno, -⟩ := nibble_cases c
      · obtain ⟨tmp, hread, hmap, hlt⟩ := ih rfl hstr
        refine ⟨d :: tmp, ?_, ?_, List.forall_mem_cons.mpr ⟨hd, hlt⟩⟩
        · rw [List.length_cons, readLoop, List.headD_cons, List.tail_cons, hnibble, hread]
          rfl
        · rw [List.map_cons, List.map_cons, hmap, hupper]
      · exact absurd hc hno

/-- It returns at a character that is no digit. -/
theorem readLoop_of_not_digit (h : ∃ i < n, ¬ IsHexDigit (str.getD i 0)) :
    readLoop n str = none := by
  induction n generalizing str with
  | zero =>
      obtain ⟨i, hi, -⟩ := h
      exact absurd hi (Nat.not_lt_zero i)
  | succ n ih =>
      obtain ⟨i, hi, hno⟩ := h
      have hhead : str.headD 0 = str.getD 0 0 := by cases str <;> rfl
      rw [readLoop, hhead]
      cases i with
      | zero =>
          obtain ⟨hyes, -⟩ | ⟨-, hnone⟩ := nibble_cases (str.getD 0 0)
          · exact absurd hyes hno
          · rw [hnone]
            rfl
      | succ i =>
          have htail : str.tail.getD i 0 = str.getD (i + 1) 0 := by cases str <;> rfl
          rw [ih ⟨i, Nat.lt_of_succ_lt_succ hi, by rwa [htail]⟩]
          cases nibble (str.getD 0 0) <;> rfl

/-- Two values make the byte whose digits they are. -/
theorem byte_digits {a b : Nat} (ha : a < 16) (hb : b < 16) :
    (UInt8.ofNat (a <<< 4 ||| b)).toNat / 16 = a ∧
      (UInt8.ofNat (a <<< 4 ||| b)).toNat % 16 = b := by
  have hor : a <<< 4 ||| b = a * 16 + b := by
    rw [← Nat.shiftLeft_add_eq_or_of_lt hb, Nat.shiftLeft_eq]
  have hlt : a * 16 + b < UInt8.size := show a * 16 + b < 256 by omega
  rw [hor, UInt8.toNat_ofNat_of_lt' hlt]
  omega

/-- The text of the bytes that were packed. -/
theorem text_pack (hlength : tmp.length = 2 * n) (h : ∀ d ∈ tmp, d < 16) :
    (pack tmp).flatMap (fun b => zeroPaddedHex 2 b.toNat) = tmp.map upperHexChar := by
  induction n generalizing tmp with
  | zero =>
      rw [List.length_eq_zero_iff.mp hlength]
      rfl
  | succ n ih =>
      match tmp, hlength, h with
      | a :: b :: tmp, hlength, h =>
        obtain ⟨ha, hb, htmp⟩ : a < 16 ∧ b < 16 ∧ ∀ d ∈ tmp, d < 16 := by
          simpa using h
        have hrest : tmp.length = 2 * n := by
          rw [List.length_cons, List.length_cons] at hlength
          omega
        obtain ⟨hhigh, hlow⟩ := byte_digits ha hb
        rw [pack, List.flatMap_cons, ih hrest htmp, zeroPaddedHex_byte, hhigh, hlow]
        rfl

/-- The text of some bytes is read back. -/
theorem readLoop_text (bytes : List UInt8) :
    readLoop (2 * bytes.length) (bytes.flatMap fun b => zeroPaddedHex 2 b.toNat) =
      some (bytes.flatMap fun b => [b.toNat / 16, b.toNat % 16]) := by
  induction bytes with
  | nil => rfl
  | cons b bytes ih =>
      have hlt := b.toNat_lt
      have hhigh : nibble (upperHexChar (b.toNat / 16)) = some (b.toNat / 16) :=
        nibble_upperHexChar (by omega)
      have hlow : nibble (upperHexChar (b.toNat % 16)) = some (b.toNat % 16) :=
        nibble_upperHexChar (by omega)
      rw [List.length_cons, Nat.mul_succ, List.flatMap_cons, zeroPaddedHex_byte]
      show readLoop (2 * bytes.length + 1 + 1) _ = _
      rw [readLoop, readLoop]
      simp only [List.cons_append, List.nil_append, List.headD_cons, List.tail_cons, hhigh, hlow,
        ih]
      rfl

/-- And packed again. -/
theorem pack_digits (bytes : List UInt8) :
    pack (bytes.flatMap fun b => [b.toNat / 16, b.toNat % 16]) = bytes := by
  induction bytes with
  | nil => rfl
  | cons b bytes ih =>
      have hor : (b.toNat / 16) <<< 4 ||| b.toNat % 16 = b.toNat := by
        rw [← Nat.shiftLeft_add_eq_or_of_lt (Nat.mod_lt _ (by decide)), Nat.shiftLeft_eq]
        omega
      rw [List.flatMap_cons]
      show UInt8.ofNat ((b.toNat / 16) <<< 4 ||| b.toNat % 16) ::
        pack (bytes.flatMap fun b => [b.toNat / 16, b.toNat % 16]) = _
      rw [hor, UInt8.ofNat_toNat, ih]

end Loops

/-! ### The text of a guid -/

section Text
variable {g : Guid} {str : List UInt8} {tmp : List Nat}

theorem toGuid_t_of_some (h : readLoop 32 str = some tmp) :
    (g.toGuid_t str).1 = 0 ∧ (g.toGuid_t str).2.gu = pack tmp := by
  unfold Guid.toGuid_t
  split
  next hnone => exact absurd (h.symm.trans hnone) (Option.some_ne_none tmp)
  next tmp' hsome =>
    obtain rfl := Option.some.inj (h.symm.trans hsome)
    exact ⟨rfl, rfl⟩

theorem toGuid_t_of_none (h : readLoop 32 str = none) : g.toGuid_t str = (-1, g) := by
  unfold Guid.toGuid_t
  split
  · rfl
  next tmp hsome => exact absurd (hsome.symm.trans h) (Option.some_ne_none tmp)

end Text

/-- A guid is read back from its text, a text of 32 digits is printed again in upper case, and a
text with another character among the first 32 is refused. -/
theorem text_round_trip (g g' : Guid) (str : List UInt8) :
    g'.toGuid_t g.toString.2 = (0, g) ∧
    (str.length = 32 → (∀ c ∈ str, IsHexDigit c) →
      (g.toGuid_t str).1 = 0 ∧ (g.toGuid_t str).2.toString.2 = str.map upperCase) ∧
    ((∃ i < 32, ¬ IsHexDigit (str.getD i 0)) → g.toGuid_t str = (-1, g)) := by
  refine ⟨?_, fun hlength hdigits => ?_, fun hno => ?_⟩
  · have hread : readLoop 32 g.toString.2 = _ := g.size ▸ readLoop_text g.gu
    obtain ⟨hret, hgu⟩ := toGuid_t_of_some (g := g') hread
    rw [pack_digits] at hgu
    exact Prod.ext hret (Guid.ext hgu)
  · obtain ⟨tmp, hread, hmap, hlt⟩ := readLoop_of_digits hlength hdigits
    obtain ⟨hret, hgu⟩ := toGuid_t_of_some (g := g) hread
    refine ⟨hret, ?_⟩
    show (g.toGuid_t str).2.gu.flatMap _ = _
    rw [hgu, text_pack (n := 16) (length_readLoop hread) hlt, hmap]
  · exact toGuid_t_of_none (readLoop_of_not_digit hno)

end Ndsl.Proofs.Guid
