import Seaway.Fault

/-!
# Tracks

A track holds the time-ordered positions of one vessel as equal-length columns: time in
epoch seconds, longitude and latitude in degrees, course over ground in degrees, speed
over ground in knots, and optionally the name of the zone each position lies in. Beside
the columns it carries the vessel's identifier (MMSI), a reconstruction label once one
is assigned, and the vessel's static attributes.

`Track.new` checks the shape once: at least one row, every column as long as the time
column, times never decreasing. The other constructors here build from a valid track
and keep the shape: a row range, a row mask, appending a range of another track, and
replacing the columns. Where the library slices rows it checks the range first, as a
debug build does (`sliceChecked`, `extendChecked`).
-/

namespace Seaway

/-- Static attributes of a vessel; each may be unknown. -/
structure VesselInfo where
  vesselName : Option String := none
  shipType : Option Nat := none
  imo : Option Nat := none
  dimBow : Option Nat := none
  dimStern : Option Nat := none
  dimPort : Option Nat := none
  dimStar : Option Nat := none
  deriving Inhabited, BEq, Repr

/-- The positions of one vessel as columns of equal length. -/
structure Track where
  mmsi : Nat
  label : Option Nat := none
  info : VesselInfo := {}
  time : Array Int
  lon : Array Float
  lat : Array Float
  cog : Array Float
  sog : Array Float
  inZone : Option (Array String) := none
  deriving Inhabited

/-- Field-wise equality of tracks, columns compared entry by entry as doubles compare, so
that a track holding a NaN equals no track. -/
instance : BEq Track where
  beq a b := a.mmsi == b.mmsi && a.label == b.label && a.info == b.info && a.time == b.time &&
    a.lon == b.lon && a.lat == b.lat && a.cog == b.cog && a.sog == b.sog && a.inZone == b.inZone

/-- The first index `i ≥ 1` of a list whose entry is smaller than the one before it. -/
def firstDescent : List Int → Option Nat
  | a :: b :: rest =>
    if b < a then some 1 else (firstDescent (b :: rest)).map (· + 1)
  | _ => none

namespace Track

/-- A track from its columns, refused when it is empty, when a column's length differs
from the time column's (checked in the order lon, lat, cog, sog), or when a time is
smaller than the one before it. -/
def new (mmsi : Nat) (info : VesselInfo) (time : Array Int)
    (lon lat cog sog : Array Float) : Except Fault Track := do
  let n := time.size
  if n = 0 then throw (.emptyTrack mmsi)
  for (c, len) in [(Column.lon, lon.size), (.lat, lat.size), (.cog, cog.size), (.sog, sog.size)] do
    if len ≠ n then throw (.columnLength c n len)
  match firstDescent time.toList with
  | some i => throw (.timeOrder mmsi i)
  | none => pure { mmsi, info, time, lon, lat, cog, sog }

/-- The number of rows. -/
def size (t : Track) : Nat := t.time.size

/-- The names of the columns present, in their fixed order. -/
def columnNames (t : Track) : List String :=
  ["time", "lon", "lat", "cog", "sog"] ++ (if t.inZone.isSome then ["in_zone"] else [])

/-- Attaches a zone column, refused when its length differs from the track's. -/
def setInZone (t : Track) (zones : Array String) : Except Fault Track :=
  if zones.size = t.size then .ok { t with inZone := some zones }
  else .error (.columnLength .inZone t.size zones.size)

/-- Checks that `[a, b)` is a row range of a track of `n` rows. -/
def checkRange (n a b : Nat) : Except Fault Unit :=
  if b < a then .error (.outOfRange s!"slice index starts at {a} but ends at {b}")
  else if n < b then
    .error (.outOfRange s!"range end index {b} out of range for slice of length {n}")
  else .ok ()

/-- The rows `[a, b)`, with the zone column when the track has one. -/
def slice (t : Track) (a b : Nat) : Track :=
  { t with
    time := t.time.extract a b, lon := t.lon.extract a b, lat := t.lat.extract a b,
    cog := t.cog.extract a b, sog := t.sog.extract a b,
    inZone := t.inZone.map (·.extract a b) }

/-- The entries of a column whose mask entry is set. -/
def pick {α : Type} (col : Array α) (keep : Array Bool) : Array α :=
  (col.zip keep).filterMap fun (v, k) => if k then some v else none

/-- The rows whose mask entry is set, or `none` when no entry is. -/
def select (t : Track) (keep : Array Bool) : Option Track :=
  if keep.any id then
    some { t with
      time := pick t.time keep, lon := pick t.lon keep, lat := pick t.lat keep,
      cog := pick t.cog keep, sog := pick t.sog keep,
      inZone := t.inZone.map (pick · keep) }
  else none

/-- Appends the rows `[a, b)` of another track; the zone column stays only when both have
one. -/
def extendFrom (t o : Track) (a b : Nat) : Track :=
  { t with
    time := t.time ++ o.time.extract a b, lon := t.lon ++ o.lon.extract a b,
    lat := t.lat ++ o.lat.extract a b, cog := t.cog ++ o.cog.extract a b,
    sog := t.sog ++ o.sog.extract a b,
    inZone := match t.inZone, o.inZone with
      | some z, some z' => some (z ++ z'.extract a b)
      | _, _ => none }

/-- The rows `[a, b)` as the library slices a track: a debug build asserts the range
non-empty and inside the track. -/
def sliceChecked (t : Track) (a b : Nat) : Except Fault Track :=
  if a < b ∧ b ≤ t.size then .ok (t.slice a b)
  else .error (.outOfRange "assertion failed: range.start < range.end && range.end <= self.len()")

/-- Appends the rows `[a, b)` of another track, failing as slicing its columns does when the
range does not fit it. -/
def extendChecked (t o : Track) (a b : Nat) : Except Fault Track := do
  checkRange o.size a b
  pure (t.extendFrom o a b)

/-- The same vessel, label and attributes with new columns and no zone column. -/
def withColumns (t : Track) (time : Array Int) (lon lat cog sog : Array Float) : Track :=
  { t with time, lon, lat, cog, sog, inZone := none }

end Track

end Seaway
