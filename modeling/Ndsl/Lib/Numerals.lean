import Mathlib.Data.List.Lex
import Mathlib.Data.Nat.Digits.Lemmas
import Mathlib.Tactic.Common

/-!
# `Ndsl.Lib.Numerals`: numbers as text

What `printf` makes of a number, what `std::stoi` reads, and the order of numerals of one width.

* `fixed b w n`: the last `w` digits of `n` in base `b`, most significant first. `value_fixed` reads
  them back, and `fixed_lt_fixed_iff` says that they are ordered as the numbers are.
* `decimal`, `zeroPadded`, `spacePadded`, `hexadecimal`, `zeroPaddedHex`: what `%d`, `%0wd`, `%wd`,
  `%lx` and `%0wX` print.
* `stoi`: the number at the beginning of a text.
* `append_lt_append_iff`, `map_lt_map_iff`: the lexicographic order of texts that are put together.
-/

set_option autoImplicit false

namespace Ndsl.Lib.Numerals

/-! ### The lexicographic order -/

section Order
variable {α β : Type} [LT α] [LT β]

/-- Two texts that begin with parts of one length are ordered by these, and then by the rest. -/
theorem append_lt_append_iff {a b x y : List α} (hlen : a.length = b.length) :
    a ++ x < b ++ y ↔ a < b ∨ a = b ∧ x < y := by
  induction a generalizing b with
  | nil =>
      obtain rfl := List.length_eq_zero_iff.mp hlen.symm
      simp
  | cons c a ih =>
      cases b with
      | nil => exact absurd hlen (Nat.succ_ne_zero _)
      | cons d b =>
          have htail := ih (Nat.succ.inj hlen)
          rw [List.cons_append, List.cons_append, List.cons_lt_cons_iff, List.cons_lt_cons_iff,
            htail, List.cons.injEq]
          tauto

/-- A map that keeps the order of letters keeps the order of texts. -/
theorem map_lt_map_iff {f : α → β} {S : α → Prop}
    (hf : ∀ c d, S c → S d → (f c < f d ↔ c < d) ∧ (f c = f d ↔ c = d)) {a b : List α}
    (ha : ∀ c ∈ a, S c) (hb : ∀ c ∈ b, S c) : a.map f < b.map f ↔ a < b := by
  induction a generalizing b with
  | nil => cases b <;> simp
  | cons c a ih =>
      cases b with
      | nil => simp
      | cons d b =>
          obtain ⟨hc, ha⟩ := List.forall_mem_cons.mp ha
          obtain ⟨hd, hb⟩ := List.forall_mem_cons.mp hb
          obtain ⟨hlt, heq⟩ := hf c d hc hd
          rw [List.map_cons, List.map_cons, List.cons_lt_cons_iff, List.cons_lt_cons_iff, hlt, heq,
            ih ha hb]

end Order

/-! ### Digits of a fixed width -/

/-- The last `w` digits of `n` in base `b`, most significant first. -/
def fixed (b : Nat) : Nat → Nat → List Nat
  | 0, _ => []
  | w + 1, n => fixed b w (n / b) ++ [n % b]

/-- The number that some digits stand for. -/
def value (b : Nat) (ds : List Nat) : Nat := ds.foldl (fun acc d => acc * b + d) 0

section Fixed
variable {b w m n : Nat}

@[simp] theorem length_fixed (b w n : Nat) : (fixed b w n).length = w := by
  induction w generalizing n with
  | zero => rfl
  | succ w ih => rw [fixed, List.length_append, ih, List.length_singleton]

theorem lt_of_mem_fixed (hb : 0 < b) {d : Nat} (hd : d ∈ fixed b w n) : d < b := by
  induction w generalizing n with
  | zero => exact absurd hd List.not_mem_nil
  | succ w ih =>
      rw [fixed, List.mem_append, List.mem_singleton] at hd
      rcases hd with hd | rfl
      · exact ih hd
      · exact Nat.mod_lt n hb

theorem value_append (ds : List Nat) (d : Nat) : value b (ds ++ [d]) = value b ds * b + d := by
  rw [value, List.foldl_append]
  rfl

/-- The digits stand for the number, if it has no more of them. -/
theorem value_fixed (hn : n < b ^ w) : value b (fixed b w n) = n := by
  induction w generalizing n with
  | zero =>
      rw [Nat.pow_zero, Nat.lt_one_iff] at hn
      rw [hn]
      rfl
  | succ w ih =>
      have hfront : n / b < b ^ w := Nat.div_lt_of_lt_mul (by rwa [Nat.pow_succ, mul_comm] at hn)
      rw [fixed, value_append, ih hfront, Nat.div_add_mod' n b]

theorem fixed_inj (hm : m < b ^ w) (hn : n < b ^ w) : fixed b w m = fixed b w n ↔ m = n := by
  constructor
  · intro heq
    rw [← value_fixed hm, heq, value_fixed hn]
  · exact fun heq => congrArg (fixed b w) heq

/-- Numerals of one width are ordered as the numbers are. -/
theorem fixed_lt_fixed_iff (hb : 0 < b) (hm : m < b ^ w) (hn : n < b ^ w) :
    fixed b w m < fixed b w n ↔ m < n := by
  induction w generalizing m n with
  | zero =>
      rw [Nat.pow_zero, Nat.lt_one_iff] at hm hn
      simp [fixed, hm, hn]
  | succ w ih =>
      have hfront : ∀ {k : Nat}, k < b ^ (w + 1) → k / b < b ^ w := fun hk =>
        Nat.div_lt_of_lt_mul (by rwa [Nat.pow_succ, mul_comm] at hk)
      have hlast : [m % b] < [n % b] ↔ m % b < n % b := by
        rw [List.cons_lt_cons_iff]
        simp
      have hlen : (fixed b w (m / b)).length = (fixed b w (n / b)).length := by
        rw [length_fixed, length_fixed]
      rw [fixed, fixed, append_lt_append_iff hlen, ih (hfront hm) (hfront hn),
        fixed_inj (hfront hm) (hfront hn), hlast]
      -- the quotients decide, and then the remainders
      have hdm := Nat.div_add_mod m b
      have hdn := Nat.div_add_mod n b
      have hmodm := Nat.mod_lt m hb
      have hmodn := Nat.mod_lt n hb
      constructor
      · rintro (hlt | ⟨heq, hlt⟩)
        · have hmul := Nat.mul_le_mul_left b (Nat.succ_le_of_lt hlt)
          rw [Nat.mul_succ] at hmul
          omega
        · rw [heq] at hdm
          omega
      · intro hlt
        rcases Nat.lt_or_eq_of_le (Nat.div_le_div_right (c := b) (Nat.le_of_lt hlt)) with hq | hq
        · exact .inl hq
        · refine .inr ⟨hq, ?_⟩
          rw [hq] at hdm
          omega

end Fixed

/-! ### What `printf` prints -/

/-- The character of a decimal digit. -/
def decChar (d : Nat) : UInt8 := 0x30 + UInt8.ofNat d

/-- The character of a hexadecimal digit, in lower case. -/
def hexChar (d : Nat) : UInt8 := if d < 10 then 0x30 + UInt8.ofNat d else 0x57 + UInt8.ofNat d

/-- The same in upper case. -/
def upperHexChar (d : Nat) : UInt8 := if d < 10 then 0x30 + UInt8.ofNat d else 0x37 + UInt8.ofNat d

/-- The digits of a number without leading zeros, and the zero alone. -/
def plain (b n : Nat) : List Nat := if n = 0 then [0] else (Nat.digits b n).reverse

/-- `%d`, without the sign. -/
def decimal (n : Nat) : List UInt8 := (plain 10 n).map decChar

/-- `%lx`. -/
def hexadecimal (n : Nat) : List UInt8 := (plain 16 n).map hexChar

/-- `%0wX`. -/
def zeroPaddedHex (w n : Nat) : List UInt8 :=
  List.replicate (w - (plain 16 n).length) 0x30 ++ (plain 16 n).map upperHexChar

/-- The sign that is printed. -/
def sign (i : Int) : List UInt8 := if i < 0 then [0x2D] else []

/-- `%d`. -/
def printInt (i : Int) : List UInt8 := sign i ++ decimal i.natAbs

/-- `%0wd`: the zeros stand behind the sign, and the width counts it. -/
def zeroPadded (w : Nat) (i : Int) : List UInt8 :=
  sign i ++ List.replicate (w - (printInt i).length) 0x30 ++ decimal i.natAbs

/-- `%wd`. -/
def spacePadded (w : Nat) (i : Int) : List UInt8 :=
  List.replicate (w - (printInt i).length) 0x20 ++ printInt i

section Printing
variable {b w n : Nat}

theorem plain_lt (hb : 1 < b) {d : Nat} (hd : d ∈ plain b n) : d < b := by
  unfold plain at hd
  split at hd
  · rw [List.mem_singleton.mp hd]
    exact Nat.lt_trans Nat.one_pos hb
  · exact Nat.digits_lt_base hb (List.mem_reverse.mp hd)

theorem plain_of_lt (hn : n < b) : plain b n = [n] := by
  unfold plain
  split
  next hzero => rw [hzero]
  next hne => rw [Nat.digits_of_lt b n hne hn, List.reverse_singleton]

theorem plain_of_le (hb : 1 < b) (hn : b ≤ n) : plain b n = plain b (n / b) ++ [n % b] := by
  have hpos : 0 < n := Nat.lt_of_lt_of_le (Nat.lt_trans Nat.one_pos hb) hn
  have hquotient : n / b ≠ 0 := Nat.ne_of_gt (Nat.div_pos hn (Nat.lt_trans Nat.one_pos hb))
  unfold plain
  rw [if_neg (Nat.ne_of_gt hpos), if_neg hquotient, Nat.digits_def' hb hpos, List.reverse_cons]

theorem fixed_zero (b w : Nat) : fixed b w 0 = List.replicate w 0 := by
  induction w with
  | zero => rfl
  | succ w ih => rw [fixed, Nat.zero_div, Nat.zero_mod, ih, ← List.replicate_succ']

/-- The digits behind zeros are those of a fixed width. -/
theorem replicate_append_plain (hb : 1 < b) (hn : n < b ^ (w + 1)) :
    (plain b n).length ≤ w + 1 ∧
      List.replicate (w + 1 - (plain b n).length) 0 ++ plain b n = fixed b (w + 1) n := by
  induction w generalizing n with
  | zero =>
      rw [Nat.zero_add, Nat.pow_one] at hn
      rw [plain_of_lt hn, fixed, Nat.mod_eq_of_lt hn]
      exact ⟨Nat.le_refl 1, rfl⟩
  | succ w ih =>
      rw [fixed]
      by_cases hlt : n < b
      · rw [plain_of_lt hlt, Nat.div_eq_of_lt hlt, Nat.mod_eq_of_lt hlt, fixed_zero]
        exact ⟨by simp, rfl⟩
      · have hfront : n / b < b ^ (w + 1) :=
          Nat.div_lt_of_lt_mul (by rwa [Nat.pow_succ, mul_comm] at hn)
        obtain ⟨hlength, hdigits⟩ := ih hfront
        rw [plain_of_le hb (Nat.le_of_not_lt hlt), List.length_append, List.length_singleton,
          Nat.add_sub_add_right, ← List.append_assoc, hdigits]
        exact ⟨Nat.succ_le_succ hlength, rfl⟩

/-- A number with so many digits. -/
theorem plain_eq_fixed (hb : 1 < b) (hle : b ^ w ≤ n) (hn : n < b ^ (w + 1)) :
    plain b n = fixed b (w + 1) n := by
  induction w generalizing n with
  | zero =>
      rw [Nat.zero_add, Nat.pow_one] at hn
      rw [plain_of_lt hn, fixed, Nat.mod_eq_of_lt hn]
      rfl
  | succ w ih =>
      have hpos : 0 < b := Nat.lt_trans Nat.one_pos hb
      have hfront : n / b < b ^ (w + 1) :=
        Nat.div_lt_of_lt_mul (by rwa [Nat.pow_succ, mul_comm] at hn)
      have hrest : b ^ w ≤ n / b := (Nat.le_div_iff_mul_le hpos).mpr (by rwa [← Nat.pow_succ])
      have hbase : b ≤ n := Nat.le_trans (Nat.le_self_pow (Nat.succ_ne_zero w) b) hle
      rw [plain_of_le hb hbase, ih hrest hfront]
      rfl

/-- The text of a decimal numeral of a fixed width. -/
def numeral (w n : Nat) : List UInt8 := (fixed 10 w n).map decChar

@[simp] theorem length_numeral (w n : Nat) : (numeral w n).length = w := by
  rw [numeral, List.length_map, length_fixed]

theorem decChar_lt_iff (c d : Nat) (hc : c < 10) (hd : d < 10) :
    (decChar c < decChar d ↔ c < d) ∧ (decChar c = decChar d ↔ c = d) := by
  have h : ∀ c < 10, ∀ d < 10,
      (decChar c < decChar d ↔ c < d) ∧ (decChar c = decChar d ↔ c = d) := by decide
  exact h c hc d hd

/-- Numerals of one width are ordered as texts. -/
theorem numeral_lt_numeral_iff {m : Nat} (hm : m < 10 ^ w) (hn : n < 10 ^ w) :
    numeral w m < numeral w n ↔ m < n := by
  have hdigits : ∀ k, ∀ d ∈ fixed 10 w k, d < 10 := fun k d hd => lt_of_mem_fixed (by decide) hd
  rw [numeral, numeral, map_lt_map_iff decChar_lt_iff (hdigits m) (hdigits n),
    fixed_lt_fixed_iff (by decide) hm hn]

theorem numeral_inj {m : Nat} (hm : m < 10 ^ w) (hn : n < 10 ^ w) :
    numeral w m = numeral w n ↔ m = n := by
  have hirrefl : ¬ numeral w n < numeral w n := by
    rw [numeral_lt_numeral_iff hn hn]
    exact Nat.lt_irrefl n
  refine ⟨fun heq => ?_, fun heq => congrArg (numeral w) heq⟩
  -- neither is before the other
  have hlt := numeral_lt_numeral_iff hm hn
  have hgt := numeral_lt_numeral_iff hn hm
  rw [heq] at hlt hgt
  have hle : ¬ m < n := fun h => hirrefl (hlt.mpr h)
  have hge : ¬ n < m := fun h => hirrefl (hgt.mpr h)
  omega

theorem printInt_natCast (n : Nat) : printInt n = decimal n := by
  have hsign : sign (n : Int) = [] := if_neg (Int.not_lt.mpr (Int.natCast_nonneg n))
  rw [printInt, hsign, Int.natAbs_natCast, List.nil_append]

/-- `%0wd` of a number that has no more digits. -/
theorem zeroPadded_natCast (hn : n < 10 ^ (w + 1)) :
    zeroPadded (w + 1) n = numeral (w + 1) n := by
  have hsign : sign (n : Int) = [] := if_neg (Int.not_lt.mpr (Int.natCast_nonneg n))
  have hdigits := (replicate_append_plain (b := 10) (by decide) hn).2
  rw [zeroPadded, printInt_natCast, hsign, Int.natAbs_natCast, numeral, ← hdigits, List.map_append,
    List.map_replicate, decimal, List.length_map, List.nil_append]
  rfl

/-- `%0wX` of a number that has no more digits. -/
theorem zeroPaddedHex_of_lt (hn : n < 16 ^ (w + 1)) :
    zeroPaddedHex (w + 1) n = (fixed 16 (w + 1) n).map upperHexChar := by
  have hdigits := (replicate_append_plain (b := 16) (by decide) hn).2
  rw [zeroPaddedHex, ← hdigits, List.map_append, List.map_replicate]
  rfl

/-- `%wd` of a number that has as many digits. -/
theorem spacePadded_natCast (hle : 10 ^ w ≤ n) (hn : n < 10 ^ (w + 1)) :
    spacePadded (w + 1) n = numeral (w + 1) n := by
  have hdigits := plain_eq_fixed (b := 10) (by decide) hle hn
  rw [spacePadded, printInt_natCast, decimal, hdigits, List.length_map, length_fixed, Nat.sub_self]
  rfl

/-- A number is printed without a zero byte. -/
theorem zero_not_mem_printInt (i : Int) : 0 ∉ printInt i := by
  have hchar : ∀ d < 10, decChar d ≠ 0 := by decide
  intro hmem
  rw [printInt, List.mem_append] at hmem
  rcases hmem with hsign | hdecimal
  · unfold sign at hsign
    split at hsign <;> simp at hsign
  · obtain ⟨d, hd, hzero⟩ := List.mem_map.mp hdecimal
    exact hchar d (plain_lt (by decide) hd) hzero

theorem zero_not_mem_zeroPadded (w : Nat) (i : Int) : 0 ∉ zeroPadded w i := by
  intro hmem
  rw [zeroPadded, List.append_assoc, List.mem_append, List.mem_append] at hmem
  have hprint := zero_not_mem_printInt i
  rw [printInt, List.mem_append, not_or] at hprint
  rcases hmem with hsign | hzeros | hdecimal
  · exact hprint.1 hsign
  · exact absurd (List.eq_of_mem_replicate hzeros) (by decide)
  · exact hprint.2 hdecimal

theorem zero_not_mem_spacePadded (w : Nat) (i : Int) : 0 ∉ spacePadded w i := by
  intro hmem
  rcases List.mem_append.mp hmem with hspaces | hprint
  · exact absurd (List.eq_of_mem_replicate hspaces) (by decide)
  · exact zero_not_mem_printInt i hprint

end Printing

/-! ### What `stoi` reads -/

/-- The value of a decimal digit. -/
def digit? (c : UInt8) : Option Nat :=
  if 0x30 ≤ c ∧ c ≤ 0x39 then some (c.toNat - 0x30) else none

/-- The digits that a text begins with. -/
def leadingDigits (text : List UInt8) : List Nat :=
  match text with
  | [] => []
  | c :: text =>
    match digit? c with
    | some d => d :: leadingDigits text
    | none => []

/-- A character that `isspace` is true of. -/
def isSpace (c : UInt8) : Bool := c = 0x20 ∨ (0x09 ≤ c ∧ c ≤ 0x0D)

/-- A sign. -/
def isSign (c : UInt8) : Bool := c = 0x2D ∨ c = 0x2B

/-- `std::stoi`: white space, a sign and digits. Without a digit, and with a number that is no
`int`, it throws. -/
def stoi (text : List UInt8) : Option Int :=
  let text := text.dropWhile isSpace
  let ds := leadingDigits (if text.head?.any isSign then text.tail else text)
  let i : Int := if text.head? = some 0x2D then -(value 10 ds) else value 10 ds
  if ds = [] then none
  else if i < -2 ^ 31 ∨ 2 ^ 31 ≤ i then none
  else some i

section Reading
variable {w n : Nat} {rest : List UInt8}

theorem digit?_decChar {d : Nat} (hd : d < 10) : digit? (decChar d) = some d := by
  have h : ∀ d < 10, digit? (decChar d) = some d := by decide
  exact h d hd

/-- The digits of a text that goes on with something else. -/
theorem leadingDigits_append {ds : List Nat} (hds : ∀ d ∈ ds, d < 10)
    (hrest : leadingDigits rest = []) : leadingDigits (ds.map decChar ++ rest) = ds := by
  induction ds with
  | nil => exact hrest
  | cons d ds ih =>
      obtain ⟨hd, hds⟩ := List.forall_mem_cons.mp hds
      rw [List.map_cons, List.cons_append, leadingDigits, digit?_decChar hd, ih hds]

/-- A numeral is read back. -/
theorem stoi_numeral (hn : n < 10 ^ (w + 1)) (hint : n < 2 ^ 31) (hrest : leadingDigits rest = []) :
    stoi (numeral (w + 1) n ++ rest) = some (n : Int) := by
  have hdigits : ∀ d ∈ fixed 10 (w + 1) n, d < 10 := fun d hd => lt_of_mem_fixed (by decide) hd
  have hds := leadingDigits_append hdigits hrest
  have hne : fixed 10 (w + 1) n ≠ [] := by
    intro hnil
    have hlength := length_fixed 10 (w + 1) n
    rw [hnil] at hlength
    exact absurd hlength (Nat.succ_ne_zero w).symm
  -- the first character is neither white space nor a sign
  obtain ⟨d, ds, hcons⟩ := List.exists_cons_of_ne_nil hne
  have hd : d < 10 := hdigits d (hcons ▸ List.mem_cons_self)
  have hchar : ∀ d < 10, isSpace (decChar d) = false ∧ isSign (decChar d) = false ∧
      decChar d ≠ 0x2D := by decide
  obtain ⟨hspace, hsign, hminus⟩ := hchar d hd
  have htext : numeral (w + 1) n ++ rest = decChar d :: (ds.map decChar ++ rest) := by
    rw [numeral, hcons]
    rfl
  have hdrop : (numeral (w + 1) n ++ rest).dropWhile isSpace = numeral (w + 1) n ++ rest := by
    rw [htext, List.dropWhile_cons_of_neg (by rw [hspace]; decide)]
  have hhead : (numeral (w + 1) n ++ rest).head? = some (decChar d) := by rw [htext]; rfl
  unfold stoi
  dsimp only
  rw [hdrop, hhead, Option.any_some, hsign, if_neg Bool.false_ne_true,
    if_neg (fun h => hminus (Option.some.inj h)), numeral, hds, if_neg hne, value_fixed hn,
    if_neg (by omega)]

end Reading

end Ndsl.Lib.Numerals
