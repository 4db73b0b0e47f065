import Seaway.Binary64

/-!
# Calendar minutes of epoch seconds

A time in seconds since 1970-01-01 00:00 UTC is shown as the calendar minute it falls
in. The instant is held the way a time library with a bounded duration holds it: the
seconds become a double, the double times `10⁹` becomes whole nanoseconds (rounded
toward zero), and a duration is kept within 32 768 centuries of 36 525 days either way
of 1900-01-01 00:00 UTC. A duration past that bound is the bound itself, both for the
seconds on their own and after the 2 208 988 800 seconds from 1900 to 1970 are added.

The date is the proleptic Gregorian day of the instant, with the hour and minute into
that day; instants before 1900 count back, so every day starts at midnight. A year is
written with at least four digits, its sign counting as one of them.
-/

namespace Seaway

namespace Calendar

/-- Nanoseconds in a second. -/
def nanosPerSecond : Int := 1000000000

/-- Nanoseconds in a day. -/
def nanosPerDay : Int := 86400 * nanosPerSecond

/-- Nanoseconds in a century of 36 525 days. -/
def nanosPerCentury : Int := 36525 * nanosPerDay

/-- The largest duration held, in nanoseconds: 32 768 centuries. -/
def spanBound : Int := 32768 * nanosPerCentury

/-- Nanoseconds from 1900-01-01 to 1970-01-01. -/
def unixOffset : Int := 2208988800 * nanosPerSecond

/-- Days from 1900-01-01 to 1970-01-01. -/
def unixDays : Int := 25567

/-- A duration held within the bound. -/
def clampSpan (ns : Int) : Int := max (-spanBound) (min spanBound ns)

/-- The whole nanoseconds of `t` seconds, computed on doubles. -/
def nanosOf (t : Int) : Int :=
  (Binary64.truncate (Binary64.ofInt t * Binary64.ofNat 1000000000)).getD 0

/-- The nanoseconds from 1900-01-01 00:00 UTC to the instant `t` seconds after 1970. -/
def sinceEpoch (t : Int) : Int := clampSpan (clampSpan (nanosOf t) + unixOffset)

/-- Year, month and day of the day `z` counted from 1970-01-01 (negative before it) in the
proleptic Gregorian calendar. Days are counted in eras of 400 years (146 097 days) whose
years start on March 1, so that the leap day ends a year. -/
def civil (z : Int) : Int × Nat × Nat :=
  let z := z + 719468
  let era := z / 146097
  let doe := z - era * 146097
  let yoe := (doe - doe / 1460 + doe / 36524 - doe / 146096) / 365
  let doy := doe - (365 * yoe + yoe / 4 - yoe / 100)
  let mp := (5 * doy + 2) / 153
  let d := doy - (153 * mp + 2) / 5 + 1
  let m := if mp < 10 then mp + 3 else mp - 9
  let y := yoe + era * 400
  (if m ≤ 2 then y + 1 else y, m.toNat, d.toNat)

/-- A number written with at least `width` digits, zeros in front. -/
def zeroPad (width : Nat) (n : Nat) : String :=
  let s := toString n
  String.ofList (List.replicate (width - s.length) '0') ++ s

/-- A signed number written with at least `width` characters, the sign included. -/
def signedPad (width : Nat) (v : Int) : String :=
  if v < 0 then "-" ++ zeroPad (width - 1) v.natAbs else zeroPad width v.toNat

end Calendar

/-- A calendar minute in UTC. -/
structure Minute where
  year : Int
  month : Nat
  day : Nat
  hour : Nat
  minute : Nat
  deriving Inhabited, BEq, Repr

namespace Minute

/-- The minute that an instant `t` seconds after 1970-01-01 00:00 UTC falls in. -/
def ofUnix (t : Int) : Minute :=
  let ns := Calendar.sinceEpoch t
  let days := ns / Calendar.nanosPerDay
  let rest := ns % Calendar.nanosPerDay
  let (year, month, day) := Calendar.civil (days - Calendar.unixDays)
  { year, month, day,
    hour := (rest / (3600 * Calendar.nanosPerSecond)).toNat,
    minute := (rest / (60 * Calendar.nanosPerSecond) % 60).toNat }

/-- The minute as `YYYY-MM-DD hh:mm UTC`. -/
def render (m : Minute) : String :=
  Calendar.signedPad 4 m.year ++ "-" ++ Calendar.zeroPad 2 m.month ++ "-" ++
    Calendar.zeroPad 2 m.day ++ " " ++ Calendar.zeroPad 2 m.hour ++ ":" ++
    Calendar.zeroPad 2 m.minute ++ " UTC"

end Minute

end Seaway
