import Ndsl.Utils.TimeStamp

/-!
# `Ndsl.Proofs.TimeStamp.Text`: the text of a time point

What `to_string` writes is six numerals behind the numeral of the year, each of its own width, so
`from_string` finds each of them at its column. What they tell are the seconds of the local
clock (`wall`) and the microseconds.

The last local day before a year with five digits is the limit. There the columns move.
-/

set_option autoImplicit false

namespace Ndsl.Proofs.TimeStamp

open Ndsl.Lib.Calendar Ndsl.Lib.Numerals
open Ndsl.Utils

/-! ### Time points -/

/-- The seconds since the epoch, and the microseconds behind them. -/
def seconds (ts : TimeStamp) : Int := ts.stamp_ / 1000000000

def micros (ts : TimeStamp) : Int := ts.stamp_ / 1000 % 1000000

/-- The seconds that the local clock shows. -/
def wall (zone : Zone) (ts : TimeStamp) : Int :=
  seconds ts + zone.offset + zone.saving (seconds ts)

/-- A time point from the epoch to the year 9999, of the zone or of a zone without an offset. -/
structure InRange (zone : Zone) (ts : TimeStamp) : Prop where
  nonneg : 0 ≤ ts.stamp_
  year : (zone.localtime_r (seconds ts)).year ≤ 9999 ∨ (gmtime (seconds ts)).year ≤ 9999

theorem micros_spec (ts : TimeStamp) : 0 ≤ micros ts ∧ micros ts < 1000000 := by
  unfold micros
  omega

theorem saving_spec (zone : Zone) (t : Int) :
    zone.saving t = 0 ∧ zone.dst t = false ∨ zone.saving t = 3600 ∧ zone.dst t = true := by
  unfold Zone.saving
  cases zone.dst t
  · exact .inl ⟨rfl, rfl⟩
  · exact .inr ⟨rfl, rfl⟩

/-- The local year has four digits, or it is the year 10000. -/
theorem InRange.year_spec {zone : Zone} {ts : TimeStamp} (h : InRange zone ts) :
    1000 < (gmtime (wall zone ts)).year ∧ (gmtime (wall zone ts)).year ≤ 10000 := by
  have hoffset := zone.bounded
  have hsaving := saving_spec zone (seconds ts)
  have hnonneg : 0 ≤ seconds ts := Int.ediv_nonneg h.nonneg (by decide)
  have hwall : wall zone ts = seconds ts + zone.offset + zone.saving (seconds ts) := rfl
  constructor
  · have h1001 : yearStart 1001 = -353920 := by decide
    show 1001 ≤ yearOf _
    rw [← Int.not_lt, yearOf_lt_iff, h1001]
    omega
  · have h10000 : yearStart 10000 = 2932897 := by decide
    have h10001 : yearStart 10001 = 2933263 := by decide
    rcases h.year with hyear | hyear
    · exact hyear.trans (by decide)
    · show yearOf _ ≤ 10000
      have hday : seconds ts / 86400 < 2932897 := by
        rw [← h10000, ← yearOf_lt_iff]
        exact Int.lt_of_le_of_lt hyear (by decide)
      rw [← Int.lt_add_one_iff, yearOf_lt_iff, show (10000 : Int) + 1 = 10001 from rfl, h10001]
      omega

/-! ### The numerals -/

/-- What the text holds behind the year. -/
def rest (c : Civil) (ms : Int) : List UInt8 :=
  0x5F :: (numeral 2 (c.mon + 1).toNat ++ 0x5F :: (numeral 2 c.mday.toNat ++
    0x5F :: (numeral 2 c.hour.toNat ++ 0x5F :: (numeral 2 c.min.toNat ++
      0x5F :: (numeral 2 c.sec.toNat ++ 0x5F :: numeral 6 ms.toNat)))))

theorem length_rest (c : Civil) (ms : Int) : (rest c ms).length = 22 := by
  simp only [rest, List.length_cons, List.length_append, length_numeral]

/-- `%0wd` of a number that has no more digits. -/
theorem zeroPadded_of_lt {w : Nat} {i : Int} (hle : 0 ≤ i) (hlt : i < 10 ^ (w + 1)) :
    zeroPadded (w + 1) i = numeral (w + 1) i.toNat := by
  have hnat : i = (i.toNat : Int) := (Int.toNat_of_nonneg hle).symm
  rw [hnat, zeroPadded_natCast (by zify; omega), Int.toNat_natCast]

theorem format_eq {c : Civil} {ms : Int} (h : c.Valid) (hms : 0 ≤ ms ∧ ms < 1000000) :
    TimeStamp.format c ms = spacePadded 4 c.year ++ rest c ms := by
  obtain ⟨hmon, hmday, hhour, hmin, hsec⟩ := h
  rw [TimeStamp.format, rest, zeroPadded_of_lt (by omega) (by omega),
    zeroPadded_of_lt (by omega) (by omega), zeroPadded_of_lt hhour.1 (by omega),
    zeroPadded_of_lt hmin.1 (by omega), zeroPadded_of_lt hsec.1 (by omega),
    zeroPadded_of_lt hms.1 hms.2]

/-- The year, where it has four digits. -/
theorem spacePadded_year {year : Int} (h : 1000 < year ∧ year ≤ 9999) :
    spacePadded 4 year = numeral 4 year.toNat := by
  have hnat : year = (year.toNat : Int) := (Int.toNat_of_nonneg (by omega)).symm
  rw [hnat, spacePadded_natCast (by zify; omega) (by zify; omega), Int.toNat_natCast]

/-- `to_string`, into a buffer that holds the text. -/
theorem to_string_eq {zone : Zone} {ts : TimeStamp} (h : 0 ≤ ts.stamp_) (size : Nat) :
    (ts.to_string zone size).2 =
      (spacePadded 4 (gmtime (wall zone ts)).year ++
        rest (gmtime (wall zone ts)) (micros ts)).take (size - 1) := by
  have hseconds : ts.stamp_.tdiv 1000000000 = seconds ts := Int.tdiv_eq_ediv_of_nonneg h
  have hmicros : (ts.stamp_.tdiv 1000).tmod 1000000 = micros ts := by
    rw [Int.tdiv_eq_ediv_of_nonneg h, Int.tmod_eq_emod_of_nonneg (Int.ediv_nonneg h (by decide))]
    rfl
  rw [← format_eq (gmtime_valid _) (micros_spec ts), TimeStamp.to_string]
  dsimp only
  rw [hseconds, hmicros]
  rfl

/-! ### Reading the text -/

/-- A numeral and what ends it are skipped. -/
theorem stoiAt_skip (w n k : Nat) (text : List UInt8) :
    TimeStamp.stoiAt (numeral w n ++ 0x5F :: text) (w + 1 + k) = TimeStamp.stoiAt text k := by
  have hlength : (numeral w n ++ 0x5F :: text).length = w + 1 + text.length := by
    rw [List.length_append, length_numeral, List.length_cons]
    omega
  have hdrop : (numeral w n ++ 0x5F :: text).drop (w + 1 + k) = text.drop k := by
    rw [← List.drop_drop, ← List.drop_drop, List.drop_left' (length_numeral w n),
      List.drop_succ_cons, List.drop_zero]
  unfold TimeStamp.stoiAt
  rw [hlength, hdrop]
  simp only [Nat.add_le_add_iff_left]

theorem stoiAt_zero (text : List UInt8) : TimeStamp.stoiAt text 0 = stoi text :=
  if_pos (Nat.zero_le _)

/-- A numeral is read at its column. -/
theorem stoiAt_numeral {w : Nat} {i : Int} {text : List UInt8} (hle : 0 ≤ i)
    (hlt : i < 10 ^ (w + 1)) (hint : i < 2 ^ 31) (htext : leadingDigits text = []) :
    TimeStamp.stoiAt (numeral (w + 1) i.toNat ++ text) 0 = some i := by
  rw [stoiAt_zero, stoi_numeral (by zify; omega) (by omega) htext, Int.toNat_of_nonneg hle]

/-- The fields of a text are those that it was made of. -/
theorem from_string_eq (zone : Zone) {c : Civil} {ms : Int} (h : c.Valid)
    (hms : 0 ≤ ms ∧ ms < 1000000) (hyear : 1000 < c.year ∧ c.year ≤ 9999) :
    TimeStamp.from_string zone (numeral 4 c.year.toNat ++ rest c ms) =
      some { stamp_ := zone.mktime c * 1000000000 + ms * 1000 } := by
  obtain ⟨hmon, hmday, hhour, hmin, hsec⟩ := h
  have hrest : ∀ text, leadingDigits (0x5F :: text) = [] := fun _ => rfl
  have h0 : TimeStamp.stoiAt (numeral 4 c.year.toNat ++ rest c ms) 0 = some c.year :=
    stoiAt_numeral (by omega) (by omega) (by omega) (hrest _)
  have h5 : TimeStamp.stoiAt (numeral 4 c.year.toNat ++ rest c ms) 5 = some (c.mon + 1) :=
    (stoiAt_skip 4 _ 0 _).trans (stoiAt_numeral (by omega) (by omega) (by omega) (hrest _))
  have h8 : TimeStamp.stoiAt (numeral 4 c.year.toNat ++ rest c ms) 8 = some c.mday :=
    (stoiAt_skip 4 _ 3 _).trans <| (stoiAt_skip 2 _ 0 _).trans <|
      stoiAt_numeral (by omega) (by omega) (by omega) (hrest _)
  have h11 : TimeStamp.stoiAt (numeral 4 c.year.toNat ++ rest c ms) 11 = some c.hour :=
    (stoiAt_skip 4 _ 6 _).trans <| (stoiAt_skip 2 _ 3 _).trans <| (stoiAt_skip 2 _ 0 _).trans <|
      stoiAt_numeral (by omega) (by omega) (by omega) (hrest _)
  have h14 : TimeStamp.stoiAt (numeral 4 c.year.toNat ++ rest c ms) 14 = some c.min :=
    (stoiAt_skip 4 _ 9 _).trans <| (stoiAt_skip 2 _ 6 _).trans <| (stoiAt_skip 2 _ 3 _).trans <|
      (stoiAt_skip 2 _ 0 _).trans <|
      stoiAt_numeral (by omega) (by omega) (by omega) (hrest _)
  have h17 : TimeStamp.stoiAt (numeral 4 c.year.toNat ++ rest c ms) 17 = some c.sec :=
    (stoiAt_skip 4 _ 12 _).trans <| (stoiAt_skip 2 _ 9 _).trans <| (stoiAt_skip 2 _ 6 _).trans <|
      (stoiAt_skip 2 _ 3 _).trans <| (stoiAt_skip 2 _ 0 _).trans <|
      stoiAt_numeral (by omega) (by omega) (by omega) (hrest _)
  have h20 : TimeStamp.stoiAt (numeral 4 c.year.toNat ++ rest c ms) 20 = some ms := by
    refine (stoiAt_skip 4 _ 15 _).trans <| (stoiAt_skip 2 _ 12 _).trans <|
      (stoiAt_skip 2 _ 9 _).trans <| (stoiAt_skip 2 _ 6 _).trans <| (stoiAt_skip 2 _ 3 _).trans <|
      (stoiAt_skip 2 _ 0 _).trans ?_
    have hlast : TimeStamp.stoiAt (numeral 6 ms.toNat ++ []) 0 = some ms :=
      stoiAt_numeral hms.1 (by omega) (by omega) rfl
    rwa [List.append_nil] at hlast
  rw [TimeStamp.from_string, h0, h5, h8, h11, h14, h17, h20]
  simp only [Option.bind_eq_bind, Option.bind_some, Int.add_sub_cancel]
  rfl

/-! ### The way back -/

/-- The time point without what is shorter than a microsecond. -/
def truncated (ts : TimeStamp) : TimeStamp := { stamp_ := ts.stamp_ / 1000 * 1000 }

/-- `mktime` finds the seconds again, and keeps the hour that daylight saving has added. -/
theorem mktime_wall (zone : Zone) (ts : TimeStamp) :
    zone.mktime (gmtime (wall zone ts)) = seconds ts + zone.saving (seconds ts) := by
  rw [Zone.mktime, timegm_gmtime, wall]
  omega

/-- A year of five digits ends at the column where the month is looked for. -/
theorem from_string_wide (zone : Zone) (c : Civil) (ms : Int) {n : Nat} (hn : 6 ≤ n) :
    TimeStamp.from_string zone ((spacePadded 4 10000 ++ rest c ms).take n) = none := by
  obtain ⟨k, rfl⟩ := Nat.exists_eq_add_of_le' hn
  have htext : ∃ text, (spacePadded 4 10000 ++ rest c ms).take (k + 6) =
      [0x31, 0x30, 0x30, 0x30, 0x30, 0x5F] ++ text := by
    have hyear : spacePadded 4 10000 = [0x31, 0x30, 0x30, 0x30, 0x30] := by decide
    rw [hyear]
    exact ⟨_, rfl⟩
  obtain ⟨text, htext⟩ := htext
  have h5 : TimeStamp.stoiAt ([0x31, 0x30, 0x30, 0x30, 0x30, 0x5F] ++ text) 5 = none := by
    exact if_pos (by rw [List.length_append]; exact Nat.le_add_right_of_le (by decide))
  rw [htext, TimeStamp.from_string, h5]
  cases TimeStamp.stoiAt ([0x31, 0x30, 0x30, 0x30, 0x30, 0x5F] ++ text) 0 <;> rfl

/-- A time point is read back from its text, up to the microsecond, exactly when it is not in
daylight saving and its year has four digits. -/
theorem from_string_to_string_iff {zone : Zone} {ts : TimeStamp} (h : InRange zone ts) {size : Nat}
    (hsize : 27 ≤ size) :
    TimeStamp.from_string zone (ts.to_string zone size).2 = some (truncated ts) ↔
      zone.dst (seconds ts) = false ∧ (gmtime (wall zone ts)).year ≤ 9999 := by
  obtain ⟨hge, hle⟩ := h.year_spec
  rw [to_string_eq h.nonneg]
  by_cases hyear : (gmtime (wall zone ts)).year ≤ 9999
  · have hlength : (numeral 4 (gmtime (wall zone ts)).year.toNat ++
        rest (gmtime (wall zone ts)) (micros ts)).length ≤ size - 1 := by
      rw [List.length_append, length_numeral, length_rest]
      omega
    rw [spacePadded_year ⟨hge, hyear⟩, List.take_of_length_le hlength,
      from_string_eq zone (gmtime_valid _) (micros_spec ts) ⟨hge, hyear⟩, mktime_wall,
      Option.some_inj, truncated, TimeStamp.mk.injEq]
    have hsaving := saving_spec zone (seconds ts)
    unfold seconds micros at *
    constructor
    · intro heq
      rcases hsaving with ⟨-, hdst⟩ | ⟨hadd, -⟩
      · exact ⟨hdst, hyear⟩
      · rw [hadd] at heq
        omega
    · intro ⟨hdst, _⟩
      rcases hsaving with ⟨hadd, -⟩ | ⟨-, hactive⟩
      · rw [hadd]
        omega
      · rw [hdst] at hactive
        exact absurd hactive Bool.false_ne_true
  · obtain hwide : (gmtime (wall zone ts)).year = 10000 := by omega
    rw [hwide, from_string_wide zone _ _ (by omega)]
    exact iff_of_false nofun (fun h => absurd h.2 (by decide))

end Ndsl.Proofs.TimeStamp
