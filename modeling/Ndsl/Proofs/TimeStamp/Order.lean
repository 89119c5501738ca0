import Ndsl.Proofs.TimeStamp.Text

/-!
# `Ndsl.Proofs.TimeStamp.Order`: the order of time points

`operator<` and `operator==` compare the texts, so they compare what the local clock shows. The
clock goes back when daylight saving ends, and the hour that it shows twice is where the texts and
the time points disagree.
-/

set_option autoImplicit false

namespace Ndsl.Proofs.TimeStamp

open Ndsl.Lib.Calendar Ndsl.Lib.Numerals
open Ndsl.Utils
open Ndsl.Utils.TimeStamp (lessLoop equalLoop)

/-! ### Statements -/

/-- The local year has five digits. -/
def Wide (zone : Zone) (ts : TimeStamp) : Prop := 9999 < (gmtime (wall zone ts)).year

/-- `a` is at most an hour before `b`, and daylight saving is over in between. -/
def Shifted (zone : Zone) (a b : TimeStamp) : Prop :=
  a.stamp_ / 1000 < b.stamp_ / 1000 ∧ b.stamp_ / 1000 ≤ a.stamp_ / 1000 + 3600000000 ∧
    zone.dst (seconds a) = true ∧ zone.dst (seconds b) = false

/-- The texts of the time points are ordered as they are. -/
structure Ordered (zone : Zone) (a b : TimeStamp) : Prop where
  clock : (Wide zone a ↔ Wide zone b) → ¬ Shifted zone a b ∧ ¬ Shifted zone b a
  /-- A year of five digits comes before every other one. -/
  width : ¬ (Wide zone a ↔ Wide zone b) → (Wide zone a ↔ a.stamp_ / 1000 < b.stamp_ / 1000)

/-! ### The loops -/

/-- Texts that begin with parts of one length. -/
theorem lessLoop_append_iff {a b x y : List UInt8} (hlen : a.length = b.length) :
    lessLoop (a ++ x) (b ++ y) = true ↔ a < b ∨ a = b ∧ lessLoop x y = true := by
  induction a generalizing b with
  | nil =>
      obtain rfl := List.length_eq_zero_iff.mp hlen.symm
      simp
  | cons c a ih =>
      cases b with
      | nil => exact absurd hlen (Nat.succ_ne_zero _)
      | cons d b =>
          have htail := ih (Nat.succ.inj hlen)
          rw [List.cons_append, List.cons_append, lessLoop, List.cons_lt_cons_iff, List.cons.injEq]
          by_cases hgt : c > d
          · rw [if_pos hgt]
            refine iff_of_false Bool.false_ne_true ?_
            rintro ((hlt | ⟨rfl, -⟩) | ⟨⟨rfl, -⟩, -⟩)
            · exact UInt8.lt_asymm hlt hgt
            · exact UInt8.lt_irrefl c hgt
            · exact UInt8.lt_irrefl c hgt
          rw [if_neg hgt]
          by_cases hlt : c < d
          · rw [if_pos hlt]
            exact iff_of_true rfl (.inl (.inl hlt))
          · obtain rfl := UInt8.le_antisymm (UInt8.not_lt.mp hgt) (UInt8.not_lt.mp hlt)
            rw [if_neg hlt, htail]
            simp [hlt]

theorem equalLoop_append_iff {a b x y : List UInt8} (hlen : a.length = b.length) :
    equalLoop (a ++ x) (b ++ y) = true ↔ a = b ∧ equalLoop x y = true := by
  induction a generalizing b with
  | nil =>
      obtain rfl := List.length_eq_zero_iff.mp hlen.symm
      simp
  | cons c a ih =>
      cases b with
      | nil => exact absurd hlen (Nat.succ_ne_zero _)
      | cons d b =>
          have htail := ih (Nat.succ.inj hlen)
          rw [List.cons_append, List.cons_append, equalLoop, List.cons.injEq]
          by_cases heq : c = d
          · rw [if_pos heq, htail, and_assoc]
            simp [heq]
          · rw [if_neg heq]
            simp [heq]

section Fields
variable {w : Nat} {i j : Int} {x y : List UInt8}

/-- Numerals of one width are compared as numbers. -/
theorem lessLoop_numeral (hi : 0 ≤ i ∧ i < 10 ^ w) (hj : 0 ≤ j ∧ j < 10 ^ w) :
    lessLoop (numeral w i.toNat ++ x) (numeral w j.toNat ++ y) = true ↔
      i < j ∨ i = j ∧ lessLoop x y = true := by
  have hin : i.toNat < 10 ^ w := by zify; omega
  have hjn : j.toNat < 10 ^ w := by zify; omega
  rw [lessLoop_append_iff (by rw [length_numeral, length_numeral]), numeral_lt_numeral_iff hin hjn,
    numeral_inj hin hjn]
  exact or_congr (by omega) (and_congr_left fun _ => by omega)

theorem equalLoop_numeral (hi : 0 ≤ i ∧ i < 10 ^ w) (hj : 0 ≤ j ∧ j < 10 ^ w) :
    equalLoop (numeral w i.toNat ++ x) (numeral w j.toNat ++ y) = true ↔
      i = j ∧ equalLoop x y = true := by
  have hin : i.toNat < 10 ^ w := by zify; omega
  have hjn : j.toNat < 10 ^ w := by zify; omega
  rw [equalLoop_append_iff (by rw [length_numeral, length_numeral]), numeral_inj hin hjn]
  refine and_congr_left fun _ => ?_
  omega

/-- The same behind what ends the field before. -/
theorem lessLoop_field (hi : 0 ≤ i ∧ i < 10 ^ w) (hj : 0 ≤ j ∧ j < 10 ^ w) :
    lessLoop (0x5F :: (numeral w i.toNat ++ x)) (0x5F :: (numeral w j.toNat ++ y)) = true ↔
      i < j ∨ i = j ∧ lessLoop x y = true := by
  rw [← lessLoop_numeral hi hj, lessLoop, if_neg (by decide), if_neg (by decide)]

theorem equalLoop_field (hi : 0 ≤ i ∧ i < 10 ^ w) (hj : 0 ≤ j ∧ j < 10 ^ w) :
    equalLoop (0x5F :: (numeral w i.toNat ++ x)) (0x5F :: (numeral w j.toNat ++ y)) = true ↔
      i = j ∧ equalLoop x y = true := by
  rw [← equalLoop_numeral hi hj, equalLoop, if_pos rfl]

end Fields

/-! ### The texts -/

theorem civil_eq_iff (c c' : Civil) : c = c' ↔ c.year = c'.year ∧ c.mon = c'.mon ∧
    c.mday = c'.mday ∧ c.hour = c'.hour ∧ c.min = c'.min ∧ c.sec = c'.sec := by
  cases c
  cases c'
  exact Civil.mk.injEq .. ▸ Iff.rfl

/-- A civil time belongs to one second. -/
theorem gmtime_inj (s s' : Int) : gmtime s = gmtime s' ↔ s = s' :=
  ⟨fun h => by rw [← timegm_gmtime s, h, timegm_gmtime], congrArg gmtime⟩

section Rest
variable {c c' : Civil} {ms ms' : Int}

/-- Behind the year the texts are compared field by field. -/
theorem lessLoop_rest (h : c.Valid) (h' : c'.Valid) (hms : 0 ≤ ms ∧ ms < 1000000)
    (hms' : 0 ≤ ms' ∧ ms' < 1000000) (hyear : c.year = c'.year) :
    lessLoop (rest c ms) (rest c' ms') = true ↔ c.Before c' ∨ c = c' ∧ ms < ms' := by
  obtain ⟨hmon, hmday, hhour, hmin, hsec⟩ := h
  obtain ⟨hmon', hmday', hhour', hmin', hsec'⟩ := h'
  have hlast : lessLoop (0x5F :: numeral 6 ms.toNat) (0x5F :: numeral 6 ms'.toNat) = true ↔
      ms < ms' := by
    have hfield := lessLoop_field (w := 6) (x := []) (y := []) hms hms'
    rw [List.append_nil, List.append_nil] at hfield
    simpa [lessLoop] using hfield
  rw [rest, rest, lessLoop_field (by omega) (by omega), lessLoop_field (by omega) (by omega),
    lessLoop_field (by omega) (by omega), lessLoop_field (by omega) (by omega),
    lessLoop_field (by omega) (by omega), hlast, civil_eq_iff, Civil.Before, hyear]
  omega

theorem equalLoop_rest (h : c.Valid) (h' : c'.Valid) (hms : 0 ≤ ms ∧ ms < 1000000)
    (hms' : 0 ≤ ms' ∧ ms' < 1000000) (hyear : c.year = c'.year) :
    equalLoop (rest c ms) (rest c' ms') = true ↔ c = c' ∧ ms = ms' := by
  obtain ⟨hmon, hmday, hhour, hmin, hsec⟩ := h
  obtain ⟨hmon', hmday', hhour', hmin', hsec'⟩ := h'
  have hlast : equalLoop (0x5F :: numeral 6 ms.toNat) (0x5F :: numeral 6 ms'.toNat) = true ↔
      ms = ms' := by
    have hfield := equalLoop_field (w := 6) (x := []) (y := []) hms hms'
    rw [List.append_nil, List.append_nil] at hfield
    simpa [equalLoop] using hfield
  rw [rest, rest, equalLoop_field (by omega) (by omega), equalLoop_field (by omega) (by omega),
    equalLoop_field (by omega) (by omega), equalLoop_field (by omega) (by omega),
    equalLoop_field (by omega) (by omega), hlast, civil_eq_iff, hyear]
  omega

end Rest

/-- The text of the year: four digits, or `10000`. -/
theorem year_text {zone : Zone} {ts : TimeStamp} (h : InRange zone ts) :
    (¬ Wide zone ts ∧ spacePadded 4 (gmtime (wall zone ts)).year =
        numeral 4 (gmtime (wall zone ts)).year.toNat) ∨
      Wide zone ts ∧ (gmtime (wall zone ts)).year = 10000 ∧
        spacePadded 4 (gmtime (wall zone ts)).year = numeral 4 (1000 : Int).toNat ++ [0x30] := by
  obtain ⟨hgt, hle⟩ := h.year_spec
  by_cases hwide : Wide zone ts
  · have hyear : (gmtime (wall zone ts)).year = 10000 := Int.le_antisymm hle hwide
    refine .inr ⟨hwide, hyear, ?_⟩
    rw [hyear]
    decide
  · exact .inl ⟨hwide, spacePadded_year ⟨hgt, Int.not_lt.mp hwide⟩⟩

/-- The text as the operators have it. -/
theorem text_eq {zone : Zone} {ts : TimeStamp} (h : InRange zone ts) :
    (ts.to_string zone 512).2 = spacePadded 4 (gmtime (wall zone ts)).year ++
      rest (gmtime (wall zone ts)) (micros ts) := by
  rw [to_string_eq h.nonneg]
  refine List.take_of_length_le ?_
  rw [List.length_append, length_rest]
  rcases year_text h with ⟨-, htext⟩ | ⟨-, -, htext⟩
  · rw [htext, length_numeral]
    decide
  · rw [htext, List.length_append, length_numeral]
    decide

section Comparison
variable {zone : Zone} {a b : TimeStamp} (ha : InRange zone a) (hb : InRange zone b)
include ha hb

theorem lessLoop_year (hwidth : Wide zone a ↔ Wide zone b) {x y : List UInt8} :
    lessLoop (spacePadded 4 (gmtime (wall zone a)).year ++ x)
        (spacePadded 4 (gmtime (wall zone b)).year ++ y) = true ↔
      (gmtime (wall zone a)).year < (gmtime (wall zone b)).year ∨
        (gmtime (wall zone a)).year = (gmtime (wall zone b)).year ∧ lessLoop x y = true := by
  have hyear := ha.year_spec
  have hyear' := hb.year_spec
  rcases year_text ha with ⟨hwide, htext⟩ | ⟨hwide, h10000, htext⟩
  · rcases year_text hb with ⟨hwide', htext'⟩ | ⟨hwide', -, -⟩
    · unfold Wide at hwide hwide'
      rw [htext, htext', lessLoop_numeral (by omega) (by omega)]
    · exact absurd (hwidth.mpr hwide') hwide
  · rcases year_text hb with ⟨hwide', -⟩ | ⟨-, h10000', htext'⟩
    · exact absurd (hwidth.mp hwide) hwide'
    · rw [htext, htext', h10000, h10000', lessLoop_append_iff rfl]
      simp

theorem equalLoop_year (hwidth : Wide zone a ↔ Wide zone b) {x y : List UInt8} :
    equalLoop (spacePadded 4 (gmtime (wall zone a)).year ++ x)
        (spacePadded 4 (gmtime (wall zone b)).year ++ y) = true ↔
      (gmtime (wall zone a)).year = (gmtime (wall zone b)).year ∧ equalLoop x y = true := by
  have hyear := ha.year_spec
  have hyear' := hb.year_spec
  rcases year_text ha with ⟨hwide, htext⟩ | ⟨hwide, h10000, htext⟩
  · rcases year_text hb with ⟨hwide', htext'⟩ | ⟨hwide', -, -⟩
    · unfold Wide at hwide hwide'
      rw [htext, htext', equalLoop_numeral (by omega) (by omega)]
    · exact absurd (hwidth.mpr hwide') hwide
  · rcases year_text hb with ⟨hwide', -⟩ | ⟨-, h10000', htext'⟩
    · exact absurd (hwidth.mp hwide) hwide'
    · rw [htext, htext', h10000, h10000', equalLoop_append_iff rfl]
      simp

/-- Texts of one width are ordered as the clocks that they show. -/
theorem less_iff_wall (hwidth : Wide zone a ↔ Wide zone b) :
    TimeStamp.less zone a b = true ↔
      wall zone a < wall zone b ∨ wall zone a = wall zone b ∧ micros a < micros b := by
  have hrest := lessLoop_rest (gmtime_valid (wall zone a)) (gmtime_valid (wall zone b))
    (micros_spec a) (micros_spec b)
  rw [TimeStamp.less, text_eq ha, text_eq hb, lessLoop_year ha hb hwidth,
    and_congr_right hrest, lt_iff_before (wall zone a), ← gmtime_inj (wall zone a)]
  constructor
  · rintro (hlt | ⟨-, h⟩)
    · exact .inl (.inl hlt)
    · exact h
  · rintro ((hlt | ⟨heq, hbefore⟩) | ⟨heq, hms⟩)
    · exact .inl hlt
    · exact .inr ⟨heq, .inl (.inr ⟨heq, hbefore⟩)⟩
    · exact .inr ⟨congrArg Civil.year heq, .inr ⟨heq, hms⟩⟩

theorem equal_iff_wall (hwidth : Wide zone a ↔ Wide zone b) :
    TimeStamp.equal zone a b = true ↔ wall zone a = wall zone b ∧ micros a = micros b := by
  have hrest := equalLoop_rest (gmtime_valid (wall zone a)) (gmtime_valid (wall zone b))
    (micros_spec a) (micros_spec b)
  rw [TimeStamp.equal, text_eq ha, text_eq hb, equalLoop_year ha hb hwidth,
    and_congr_right hrest, ← gmtime_inj (wall zone a)]
  exact ⟨And.right, fun h => ⟨congrArg Civil.year h.1, h⟩⟩

end Comparison

/-- The text of the year 10000 is before the text of every other year. -/
theorem compare_wide {zone : Zone} {a b : TimeStamp} (ha : InRange zone a) (hb : InRange zone b)
    (hwide : Wide zone a) (hnarrow : ¬ Wide zone b) :
    (TimeStamp.less zone a b = true ∧ TimeStamp.less zone b a = false) ∧
      TimeStamp.equal zone a b = false ∧ TimeStamp.equal zone b a = false := by
  obtain ⟨-, -, htext⟩ := (year_text ha).resolve_left fun h => h.1 hwide
  obtain ⟨-, htext'⟩ := (year_text hb).resolve_right fun h => hnarrow h.1
  have hyear := hb.year_spec
  have hle : 0 ≤ (gmtime (wall zone b)).year ∧ (gmtime (wall zone b)).year < 10 ^ 4 := by
    unfold Wide at hnarrow
    omega
  have h1000 : (0 : Int) ≤ 1000 ∧ (1000 : Int) < 10 ^ 4 := by decide
  have hlt : 1000 < (gmtime (wall zone b)).year := hyear.1
  rw [TimeStamp.less, TimeStamp.less, TimeStamp.equal, TimeStamp.equal, text_eq ha, text_eq hb,
    htext, htext', List.append_assoc, ← Bool.not_eq_true, ← Bool.not_eq_true, ← Bool.not_eq_true,
    lessLoop_numeral h1000 hle, lessLoop_numeral hle h1000, equalLoop_numeral h1000 hle,
    equalLoop_numeral hle h1000]
  refine ⟨⟨.inl hlt, ?_⟩, ?_, ?_⟩
  · rintro (h | ⟨h, -⟩) <;> omega
  · exact fun h => ne_of_lt hlt h.1
  · exact fun h => ne_of_gt hlt h.1

/-! ### The clock and the time -/

/-- A time point in microseconds. -/
theorem instant_eq (ts : TimeStamp) : ts.stamp_ / 1000 = seconds ts * 1000000 + micros ts := by
  unfold seconds micros
  omega

theorem truncated_lt_iff (a b : TimeStamp) :
    (truncated a).stamp_ < (truncated b).stamp_ ↔ a.stamp_ / 1000 < b.stamp_ / 1000 := by
  unfold truncated
  dsimp only
  omega

theorem truncated_eq_iff (a b : TimeStamp) :
    truncated a = truncated b ↔ a.stamp_ / 1000 = b.stamp_ / 1000 := by
  unfold truncated
  rw [TimeStamp.mk.injEq]
  omega

/-- The clocks are ordered as the time points are, unless one of them shows an hour again. -/
theorem clock_iff (zone : Zone) (a b : TimeStamp) :
    ((wall zone a < wall zone b ∨ wall zone a = wall zone b ∧ micros a < micros b ↔
        a.stamp_ / 1000 < b.stamp_ / 1000) ∧
      (wall zone a = wall zone b ∧ micros a = micros b ↔ a.stamp_ / 1000 = b.stamp_ / 1000)) ↔
    ¬ Shifted zone a b ∧ ¬ Shifted zone b a := by
  have hsame : seconds a = seconds b → zone.dst (seconds a) = zone.dst (seconds b) :=
    congrArg zone.dst
  have hmicros := micros_spec a
  have hmicros' := micros_spec b
  unfold Shifted wall
  rw [instant_eq, instant_eq]
  rcases saving_spec zone (seconds a) with ⟨hadd, hdst⟩ | ⟨hadd, hdst⟩ <;>
    rcases saving_spec zone (seconds b) with ⟨hadd', hdst'⟩ | ⟨hadd', hdst'⟩ <;>
    rw [hadd, hadd', hdst, hdst'] <;> rw [hdst, hdst'] at hsame <;>
    simp only [Bool.false_eq_true, reduceCtorEq, and_true, and_false, true_and, not_false_eq_true,
      imp_false, iff_true] at hsame ⊢ <;> omega

/-- Two time points compare as they should exactly when their texts are ordered as they are. -/
theorem compare_iff {zone : Zone} {a b : TimeStamp} (ha : InRange zone a) (hb : InRange zone b) :
    ((TimeStamp.less zone a b = true ↔ (truncated a).stamp_ < (truncated b).stamp_) ∧
      (TimeStamp.equal zone a b = true ↔ truncated a = truncated b)) ↔ Ordered zone a b := by
  rw [truncated_lt_iff, truncated_eq_iff]
  by_cases hwidth : Wide zone a ↔ Wide zone b
  · rw [less_iff_wall ha hb hwidth, equal_iff_wall ha hb hwidth, clock_iff]
    exact ⟨fun h => { clock := fun _ => h, width := fun h => absurd hwidth h },
      fun h => h.clock hwidth⟩
  · -- time points with years of different width are not the same
    have hne : a.stamp_ / 1000 ≠ b.stamp_ / 1000 := by
      intro heq
      have hseconds : seconds a = seconds b := by
        unfold seconds
        omega
      refine hwidth ?_
      unfold Wide wall
      rw [hseconds]
    have hordered : Ordered zone a b ↔ (Wide zone a ↔ a.stamp_ / 1000 < b.stamp_ / 1000) :=
      ⟨fun h => h.width hwidth, fun h => { clock := fun h => absurd h hwidth, width := fun _ => h }⟩
    rw [hordered]
    by_cases hwide : Wide zone a
    · have hnarrow : ¬ Wide zone b := fun h => hwidth ⟨fun _ => h, fun _ => hwide⟩
      obtain ⟨⟨hless, -⟩, hequal, -⟩ := compare_wide ha hb hwide hnarrow
      simp [hless, hequal, hwide, hne]
    · have hwide' : Wide zone b := by
        by_contra h
        exact hwidth ⟨fun h' => absurd h' hwide, fun h' => absurd h' h⟩
      obtain ⟨⟨-, hless⟩, -, hequal⟩ := compare_wide hb ha hwide' hwide
      simp [hless, hequal, hwide, hne]

/-! ### The result -/

/-- A time point is read back from its text, up to the microsecond, exactly when it is not in
daylight saving and its local year has four digits. Two of them compare as they are ordered exactly
when `Ordered` holds of them. -/
theorem round_trip_and_order (zone : Zone) {a b : TimeStamp} (ha : InRange zone a)
    (hb : InRange zone b) {size : Nat} (hsize : 27 ≤ size) :
    (TimeStamp.from_string zone (a.to_string zone size).2 = some (truncated a) ↔
        zone.dst (seconds a) = false ∧ ¬ Wide zone a) ∧
      ((TimeStamp.less zone a b = true ↔ (truncated a).stamp_ < (truncated b).stamp_) ∧
          (TimeStamp.equal zone a b = true ↔ truncated a = truncated b) ↔
        Ordered zone a b) := by
  refine ⟨?_, compare_iff ha hb⟩
  rw [from_string_to_string_iff ha hsize, Wide, Int.not_lt]

/-- One hour east. Daylight saving ends on 28 October 2018, at one o'clock. -/
def oneHourEast : Zone :=
  { offset := 3600, dst := fun t => t < 1540688400, bounded := by decide }

/-- Half an hour before and half an hour behind the end of daylight saving. -/
def before : TimeStamp := { stamp_ := 1540686600000000000 }

def behind : TimeStamp := { stamp_ := 1540690200000000000 }

theorem round_trip_and_order_behind :
    (TimeStamp.from_string oneHourEast (behind.to_string oneHourEast 512).2 =
          some (truncated behind) ↔
        oneHourEast.dst (seconds behind) = false ∧ ¬ Wide oneHourEast behind) ∧
      ((TimeStamp.less oneHourEast behind before = true ↔
            (truncated behind).stamp_ < (truncated before).stamp_) ∧
          (TimeStamp.equal oneHourEast behind before = true ↔ truncated behind = truncated before) ↔
        Ordered oneHourEast behind before) :=
  round_trip_and_order oneHourEast { nonneg := by decide, year := .inl (by decide) }
    { nonneg := by decide, year := .inl (by decide) } (by decide)

/-- The time point before is not read back from its text, and it is equal to the one behind. -/
theorem hour_shown_twice :
    TimeStamp.from_string oneHourEast (before.to_string oneHourEast 512).2 ≠
        some (truncated before) ∧
      TimeStamp.less oneHourEast before behind = false ∧
      TimeStamp.equal oneHourEast before behind = true ∧
      (truncated before).stamp_ < (truncated behind).stamp_ := by
  have hbefore : InRange oneHourEast before := { nonneg := by decide, year := .inl (by decide) }
  have hbehind : InRange oneHourEast behind := { nonneg := by decide, year := .inl (by decide) }
  have hwidth : Wide oneHourEast before ↔ Wide oneHourEast behind := Iff.rfl
  refine ⟨?_, ?_, ?_, by decide⟩
  · rw [Ne, from_string_to_string_iff hbefore (by decide)]
    decide
  · rw [← Bool.not_eq_true, less_iff_wall hbefore hbehind hwidth]
    decide
  · rw [equal_iff_wall hbefore hbehind hwidth]
    decide

end Ndsl.Proofs.TimeStamp
