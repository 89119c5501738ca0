import Ndsl.Lib.Calendar
import Ndsl.Lib.Numerals

/-!
# `Ndsl.Utils.TimeStamp`: points of time and their text

`TimeStamp.h` and `TimeStamp.cc`. A time point is a number of nanoseconds since the epoch, and a
text is its characters without the zero behind them.

Of the time zone the code knows what `localtime_r` and `mktime` do. `localtime_r` adds the standard
offset, and one hour more while daylight saving is active; `mktime` reads fields whose `tm_isdst` is
zero, which `bzero` has made it, as standard time.
-/

set_option autoImplicit false

namespace Ndsl.Utils

open Ndsl.Lib.Calendar Ndsl.Lib.Numerals

/-- A time zone. An offset of `TZ` has at most 24 hours, 59 minutes and 59 seconds. -/
structure Zone where
  /-- The standard offset, in seconds. -/
  offset : Int
  /-- Daylight saving is active. -/
  dst : Int → Bool
  bounded : -90000 < offset ∧ offset < 90000

namespace Zone

/-- What daylight saving adds. -/
def saving (zone : Zone) (t : Int) : Int := if zone.dst t then 3600 else 0

/-- `localtime_r`. -/
def localtime_r (zone : Zone) (t : Int) : Civil := gmtime (t + zone.offset + zone.saving t)

/-- `mktime`, where `tm_isdst` is zero. -/
def mktime (zone : Zone) (tm : Civil) : Int := timegm tm - zone.offset

end Zone

/-- `TimeStamp`. -/
structure TimeStamp where
  /-- Nanoseconds since the epoch. -/
  stamp_ : Int
  deriving Repr, DecidableEq

namespace TimeStamp

/-- The format of `to_string`. -/
def format (tm : Civil) (ms : Int) : List UInt8 :=
  spacePadded 4 tm.year ++ 0x5F :: (zeroPadded 2 (tm.mon + 1) ++ 0x5F :: (zeroPadded 2 tm.mday ++
    0x5F :: (zeroPadded 2 tm.hour ++ 0x5F :: (zeroPadded 2 tm.min ++ 0x5F :: (zeroPadded 2 tm.sec ++
      0x5F :: zeroPadded 6 ms)))))

/-- `TimeStamp::to_string`, and the text in `buffer`. -/
def to_string (zone : Zone) (ts : TimeStamp) (size : Nat) : Bool × List UInt8 :=
  let ms := (ts.stamp_.tdiv 1000).tmod 1000000
  let tmt := ts.stamp_.tdiv 1000000000
  let text := format (zone.localtime_r tmt) ms
  (text.length > 0, text.take (size - 1))

/-- `std::stoi(time + n)`. A text that ends before has nothing there. -/
def stoiAt (time : List UInt8) (n : Nat) : Option Int :=
  if n ≤ time.length then stoi (time.drop n) else none

/-- `TimeStamp::from_string`. Where `stoi` throws there is no result. -/
def from_string (zone : Zone) (time : List UInt8) : Option TimeStamp := do
  let year ← stoiAt time 0
  let mon ← stoiAt time 5
  let mday ← stoiAt time 8
  let hour ← stoiAt time 11
  let min ← stoiAt time 14
  let sec ← stoiAt time 17
  let micro ← stoiAt time 20
  let tmt := zone.mktime
    { year := year, mon := mon - 1, mday := mday, hour := hour, min := min, sec := sec }
  return { stamp_ := tmt * 1000000000 + micro * 1000 }

/-- The loop of `operator<`. Behind the text on the right there is its zero. -/
def lessLoop : List UInt8 → List UInt8 → Bool
  | [], _ => false
  | _ :: _, [] => false
  | l :: lhs, r :: rhs => if l > r then false else if l < r then true else lessLoop lhs rhs

/-- The loop of `operator==`. -/
def equalLoop : List UInt8 → List UInt8 → Bool
  | [], _ => true
  | _ :: _, [] => false
  | l :: lhs, r :: rhs => if l = r then equalLoop lhs rhs else false

/-- `operator<`. -/
def less (zone : Zone) (lhs rhs : TimeStamp) : Bool :=
  lessLoop (lhs.to_string zone 512).2 (rhs.to_string zone 512).2

/-- `operator==`. -/
def equal (zone : Zone) (lhs rhs : TimeStamp) : Bool :=
  equalLoop (lhs.to_string zone 512).2 (rhs.to_string zone 512).2

end TimeStamp

end Ndsl.Utils
