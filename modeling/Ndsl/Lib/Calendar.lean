import Mathlib.Algebra.Order.Group.Int
import Mathlib.Order.Monotone.Basic
import Mathlib.Tactic.Common

/-!
# `Ndsl.Lib.Calendar`: seconds and civil time

The Gregorian calendar, without a time zone: `gmtime` breaks a number of seconds since the beginning
of 1970 down, and `timegm` counts the seconds back.

* `timegm_gmtime`: the way back.
* `gmtime_valid`: the ranges of the fields.
* `lt_iff_before`: the seconds are ordered as the fields are, the greatest unit first.

Years and months are intervals of days that begin one behind the other. `lt_iff_of_bracket` is the
order of numbers that are cut up in this way.
-/

set_option autoImplicit false

namespace Ndsl.Lib.Calendar

/-- A broken-down time, with the year as it is and months that begin at zero. -/
structure Civil where
  year : Int
  mon : Int
  mday : Int
  hour : Int
  min : Int
  sec : Int
  deriving Repr, DecidableEq

/-! ### Intervals -/

/-- Numbers that lie in intervals are ordered by their intervals, and then by what they are behind
the beginning of theirs. -/
theorem lt_iff_of_bracket {ι : Type} [LinearOrder ι] {start : ι → Int} {k k' : ι} {n n' : Int}
    (hle : start k ≤ n) (hlt : ∀ j, k < j → n < start j)
    (hle' : start k' ≤ n') (hlt' : ∀ j, k' < j → n' < start j) :
    n < n' ↔ k < k' ∨ k = k' ∧ n - start k < n' - start k' := by
  rcases lt_trichotomy k k' with hk | rfl | hk
  · have hn := hlt k' hk
    exact iff_of_true (by omega) (.inl hk)
  · simp only [lt_self_iff_false, true_and, false_or]
    omega
  · have hn := hlt' k hk
    refine iff_of_false (by omega) ?_
    rintro (h | ⟨rfl, -⟩)
    · exact lt_asymm h hk
    · exact lt_irrefl k hk

/-- The last interval that begins at `n` or before it, looked for from the interval `m` on and at
most `k` intervals on. -/
def locate (start : Nat → Int) (n : Int) : Nat → Nat → Nat
  | 0, m => m
  | k + 1, m => if start (m + 1) ≤ n then locate start n k (m + 1) else m

theorem locate_spec {start : Nat → Int} {n : Int} (k : Nat) {m : Nat} (h : start m ≤ n) :
    start (locate start n k m) ≤ n ∧ locate start n k m ≤ m + k ∧
      (n < start (locate start n k m + 1) ∨ locate start n k m = m + k) := by
  induction k generalizing m with
  | zero => exact ⟨h, Nat.le_refl m, .inr rfl⟩
  | succ k ih =>
      rw [locate]
      split
      next hnext =>
        obtain ⟨hle, hbound, hend⟩ := ih hnext
        exact ⟨hle, by omega, hend.imp_right (by omega)⟩
      next hnext => exact ⟨h, by omega, .inl (Int.not_le.mp hnext)⟩

/-! ### Years -/

/-- A leap year. -/
def leap (y : Int) : Bool := y % 4 = 0 ∧ (y % 100 ≠ 0 ∨ y % 400 = 0)

/-- The day of the year that is more in a leap year. -/
def leapDay (leap : Bool) : Int := if leap then 1 else 0

/-- The days from 1970 to the beginning of a year. -/
def yearStart (y : Int) : Int :=
  365 * (y - 1970) + ((y - 1) / 4 - (y - 1) / 100 + (y - 1) / 400) - 477

theorem yearStart_succ (y : Int) : yearStart (y + 1) = yearStart y + 365 + leapDay (leap y) := by
  unfold yearStart leapDay leap
  by_cases h : y % 4 = 0 ∧ (y % 100 ≠ 0 ∨ y % 400 = 0)
  · rw [decide_eq_true h, if_pos rfl]
    omega
  · rw [decide_eq_false h, if_neg Bool.false_ne_true]
    omega

theorem leapDay_nonneg (leap : Bool) : 0 ≤ leapDay leap ∧ leapDay leap ≤ 1 := by
  cases leap <;> decide

theorem yearStart_le {y y' : Int} (h : y ≤ y') : yearStart y ≤ yearStart y' := by
  have hmono : Monotone yearStart := monotone_int_of_le_succ fun y => by
    have hsucc := yearStart_succ y
    have hleap := leapDay_nonneg (leap y)
    omega
  exact hmono h

/-- The year of a day. The mean length of a year gives it up to one. -/
def yearOf (n : Int) : Int :=
  let y := 1970 + n * 400 / 146097
  if n < yearStart y then y - 1 else if yearStart (y + 1) ≤ n then y + 1 else y

theorem yearOf_spec (n : Int) : yearStart (yearOf n) ≤ n ∧ n < yearStart (yearOf n + 1) := by
  unfold yearOf
  dsimp only
  split
  next h =>
    rw [Int.sub_add_cancel]
    refine ⟨?_, h⟩
    unfold yearStart at h ⊢
    omega
  next h =>
  split
  next h' =>
    refine ⟨h', ?_⟩
    unfold yearStart at h h' ⊢
    omega
  next h' => exact ⟨Int.not_lt.mp h, Int.not_le.mp h'⟩

/-- The years that have begun. -/
theorem yearOf_lt_iff (n y : Int) : yearOf n < y ↔ n < yearStart y := by
  have hyear := yearOf_spec n
  constructor
  · intro hlt
    have hle : yearStart (yearOf n + 1) ≤ yearStart y := yearStart_le (by omega)
    omega
  · intro hlt
    by_contra hge
    have hle : yearStart y ≤ yearStart (yearOf n) := yearStart_le (by omega)
    omega

/-! ### Months -/

/-- The days from the beginning of a year to the beginning of a month. -/
def monthStart (leap : Bool) : Nat → Int
  | 0 => 0
  | 1 => 31
  | 2 => 59 + leapDay leap
  | 3 => 90 + leapDay leap
  | 4 => 120 + leapDay leap
  | 5 => 151 + leapDay leap
  | 6 => 181 + leapDay leap
  | 7 => 212 + leapDay leap
  | 8 => 243 + leapDay leap
  | 9 => 273 + leapDay leap
  | 10 => 304 + leapDay leap
  | 11 => 334 + leapDay leap
  | _ => 365 + leapDay leap

/-- A month has at least 28 days, and at most 31. -/
theorem monthStart_succ (leap : Bool) {m : Nat} (hm : m < 12) :
    monthStart leap m + 28 ≤ monthStart leap (m + 1) ∧
      monthStart leap (m + 1) ≤ monthStart leap m + 31 := by
  have h : ∀ leap : Bool, ∀ m < 12, monthStart leap m + 28 ≤ monthStart leap (m + 1) ∧
      monthStart leap (m + 1) ≤ monthStart leap m + 31 := by decide
  exact h leap m hm

theorem monthStart_le (leap : Bool) {m m' : Nat} (h : m ≤ m') :
    monthStart leap m ≤ monthStart leap m' := by
  have hsucc : ∀ m, monthStart leap m ≤ monthStart leap (m + 1) := by
    intro m
    rcases Nat.lt_or_ge m 12 with hm | hm
    · have hstep := (monthStart_succ leap hm).1
      omega
    · -- there are no more months
      obtain ⟨k, rfl⟩ := Nat.exists_eq_add_of_le' hm
      exact Int.le_refl _
  exact monotone_nat_of_le_succ hsucc h

/-- The month of a day of a year. -/
def monthOf (leap : Bool) (yday : Int) : Nat := locate (monthStart leap) yday 11 0

theorem monthOf_spec {leap : Bool} {yday : Int} (hge : 0 ≤ yday)
    (hlt : yday < 365 + leapDay leap) :
    monthOf leap yday < 12 ∧ monthStart leap (monthOf leap yday) ≤ yday ∧
      yday < monthStart leap (monthOf leap yday + 1) := by
  obtain ⟨hle, hbound, hend⟩ := @locate_spec (monthStart leap) yday 11 0 hge
  refine ⟨Nat.lt_succ_of_le hbound, hle, ?_⟩
  rcases hend with hend | hlast
  · exact hend
  · unfold monthOf
    rw [hlast]
    exact hlt

/-! ### Seconds -/

/-- The civil time of a number of seconds. -/
def gmtime (s : Int) : Civil :=
  let year := yearOf (s / 86400)
  let yday := s / 86400 - yearStart year
  let mon := monthOf (leap year) yday
  { year := year
    mon := mon
    mday := yday - monthStart (leap year) mon + 1
    hour := s % 86400 / 3600
    min := s % 3600 / 60
    sec := s % 60 }

/-- The seconds of a civil time. A month that is no month counts years. -/
def timegm (c : Civil) : Int :=
  let year := c.year + c.mon / 12
  let days := yearStart year + monthStart (leap year) (c.mon % 12).toNat + (c.mday - 1)
  days * 86400 + c.hour * 3600 + c.min * 60 + c.sec

/-- The ranges of the fields. -/
structure Civil.Valid (c : Civil) : Prop where
  mon : 0 ≤ c.mon ∧ c.mon < 12
  mday : 1 ≤ c.mday ∧ c.mday ≤ 31
  hour : 0 ≤ c.hour ∧ c.hour < 24
  min : 0 ≤ c.min ∧ c.min < 60
  sec : 0 ≤ c.sec ∧ c.sec < 60

/-- The day of the year lies in the year. -/
theorem yday_spec (n : Int) : 0 ≤ n - yearStart (yearOf n) ∧
    n - yearStart (yearOf n) < 365 + leapDay (leap (yearOf n)) := by
  have hyear := yearOf_spec n
  have hsucc := yearStart_succ (yearOf n)
  omega

theorem gmtime_valid (s : Int) : (gmtime s).Valid := by
  have hyday := yday_spec (s / 86400)
  obtain ⟨hmon, hle, hlt⟩ := monthOf_spec hyday.1 hyday.2
  have hdays := (monthStart_succ (leap (yearOf (s / 86400))) hmon).2
  constructor
  case mon =>
    show 0 ≤ (monthOf _ _ : Int) ∧ (monthOf _ _ : Int) < 12
    omega
  case mday =>
    show 1 ≤ _ - monthStart _ _ + 1 ∧ _ - monthStart _ _ + 1 ≤ 31
    omega
  all_goals
    unfold gmtime
    dsimp only
    omega

theorem timegm_gmtime (s : Int) : timegm (gmtime s) = s := by
  have hyday := yday_spec (s / 86400)
  obtain ⟨hmon, -⟩ := monthOf_spec hyday.1 hyday.2
  unfold timegm gmtime
  dsimp only
  -- the month is one
  have hyear : ((monthOf (leap (yearOf (s / 86400))) (s / 86400 - yearStart (yearOf (s / 86400))) :
      Nat) : Int) / 12 = 0 := by omega
  rw [hyear, Int.add_zero, Int.emod_eq_of_lt (by omega) (by omega), Int.toNat_natCast]
  omega

/-- One civil time is before another one. -/
def Civil.Before (a b : Civil) : Prop :=
  a.year < b.year ∨ a.year = b.year ∧
    (a.mon < b.mon ∨ a.mon = b.mon ∧
      (a.mday < b.mday ∨ a.mday = b.mday ∧
        (a.hour < b.hour ∨ a.hour = b.hour ∧
          (a.min < b.min ∨ a.min = b.min ∧ a.sec < b.sec))))

/-- The days are ordered as the years, the months and the days of the months are. -/
theorem day_lt_iff (n n' : Int) :
    n < n' ↔ yearOf n < yearOf n' ∨ yearOf n = yearOf n' ∧
      n - yearStart (yearOf n) < n' - yearStart (yearOf n') := by
  have hbefore : ∀ n j, yearOf n < j → n < yearStart j := fun n j hj =>
    Int.lt_of_lt_of_le (yearOf_spec n).2 (yearStart_le (by omega))
  exact lt_iff_of_bracket (yearOf_spec n).1 (hbefore n) (yearOf_spec n').1 (hbefore n')

theorem yday_lt_iff {leap : Bool} {d d' : Int} (hd : 0 ≤ d ∧ d < 365 + leapDay leap)
    (hd' : 0 ≤ d' ∧ d' < 365 + leapDay leap) :
    d < d' ↔ monthOf leap d < monthOf leap d' ∨ monthOf leap d = monthOf leap d' ∧
      d - monthStart leap (monthOf leap d) < d' - monthStart leap (monthOf leap d') := by
  have hbefore : ∀ {d : Int}, 0 ≤ d ∧ d < 365 + leapDay leap → ∀ j, monthOf leap d < j →
      d < monthStart leap j := fun hd j hj =>
    Int.lt_of_lt_of_le (monthOf_spec hd.1 hd.2).2.2 (monthStart_le leap hj)
  exact lt_iff_of_bracket (monthOf_spec hd.1 hd.2).2.1 (hbefore hd)
    (monthOf_spec hd'.1 hd'.2).2.1 (hbefore hd')

/-- A date is one day. -/
theorem day_eq_iff (s s' : Int) : s / 86400 = s' / 86400 ↔ (gmtime s).year = (gmtime s').year ∧
    (gmtime s).mon = (gmtime s').mon ∧ (gmtime s).mday = (gmtime s').mday := by
  have hback : ∀ s, s / 86400 = yearStart (gmtime s).year +
      monthStart (leap (gmtime s).year) (gmtime s).mon.toNat + ((gmtime s).mday - 1) := by
    intro s
    unfold gmtime
    dsimp only
    rw [Int.toNat_natCast]
    omega
  constructor
  · intro heq
    unfold gmtime
    rw [heq]
    exact ⟨rfl, rfl, rfl⟩
  · intro ⟨hyear, hmon, hmday⟩
    rw [hback s, hback s', hyear, hmon, hmday]

/-- The seconds are ordered as the civil times are. -/
theorem lt_iff_before (s s' : Int) : s < s' ↔ (gmtime s).Before (gmtime s') := by
  have hclock : s < s' ↔ s / 86400 < s' / 86400 ∨ s / 86400 = s' / 86400 ∧
      ((gmtime s).hour < (gmtime s').hour ∨ (gmtime s).hour = (gmtime s').hour ∧
        ((gmtime s).min < (gmtime s').min ∨ (gmtime s).min = (gmtime s').min ∧
          (gmtime s).sec < (gmtime s').sec)) := by
    unfold gmtime
    dsimp only
    omega
  have hyear : s / 86400 < s' / 86400 ↔ (gmtime s).year < (gmtime s').year ∨
      (gmtime s).year = (gmtime s').year ∧
        ((gmtime s).mon < (gmtime s').mon ∨ (gmtime s).mon = (gmtime s').mon ∧
          (gmtime s).mday < (gmtime s').mday) := by
    rw [day_lt_iff]
    refine or_congr_right (and_congr_right fun heq => ?_)
    have hyday := yday_spec (s / 86400)
    have hyday' := yday_spec (s' / 86400)
    unfold gmtime
    dsimp only
    rw [← heq] at hyday' ⊢
    rw [yday_lt_iff hyday hyday']
    omega
  have hdate := day_eq_iff s s'
  unfold Civil.Before
  rw [hclock, hyear, hdate]
  simp only [and_or_left, and_assoc, or_assoc]

end Ndsl.Lib.Calendar
