import Seaway.Plane.Clip
import Seaway.Decimal.Format

/-!
# Why an operation fails

Every failure of the library is a `Fault`: a cause with the data that explains it. The
wording of each cause is in `Fault.message` only. Integer arithmetic on 64-bit seconds
that leaves the range of a signed 64-bit integer is a fault as well (`Fault.overflow`), as
is a size subtraction below zero, an index past the end of an array (`entry`) and a row
range that a slice asserts non-empty and inside its track (`Fault.outOfRange`): each ends
the whole operation, whatever it was doing.
-/

namespace Seaway

/-- A dynamic column of a track. -/
inductive Column where
  | time
  | lon
  | lat
  | cog
  | sog
  | inZone
  deriving DecidableEq, Repr, Inhabited

/-- The name of a column. -/
def Column.name : Column → String
  | .time => "time"
  | .lon => "lon"
  | .lat => "lat"
  | .cog => "cog"
  | .sog => "sog"
  | .inZone => "in_zone"

/-- An integer operation whose result left the range of its type. -/
inductive Arith where
  | add
  | subtract
  | multiply
  | negate
  deriving DecidableEq, Repr, Inhabited

/-- The verb of an arithmetic operation. -/
def Arith.verb : Arith → String
  | .add => "add"
  | .subtract => "subtract"
  | .multiply => "multiply"
  | .negate => "negate"

/-- The causes of failure. -/
inductive Fault where
  /-- A track with no rows. -/
  | emptyTrack (mmsi : Nat)
  /-- A column whose length differs from that of the time column. -/
  | columnLength (column : Column) (expected found : Nat)
  /-- A time smaller than the one before it, at the given row. -/
  | timeOrder (mmsi : Nat) (index : Nat)
  /-- A zone whose polygon cannot be used. -/
  | invalidPolygon (zone reason : String)
  /-- A zone reaching beyond `[-180, 180]` in longitude, with the parts it cuts into. -/
  | spansAntimeridian (zone : String) (minLon maxLon : Float) (split : Split)
  /-- A domain whose box is empty or leaves the globe. -/
  | invalidBounds (detail : String)
  /-- A domain without zones. -/
  | emptyDomain (name : String)
  /-- A zone name used twice in one domain. -/
  | duplicateZone (name : String)
  /-- A track without zone labels where they are needed. -/
  | notFenced (mmsi : Nat)
  /-- A parameter out of its range. -/
  | invalidParameter (detail : String)
  /-- A zone file whose text is not a list of coordinates. -/
  | zoneFile (path reason : String)
  /-- A record file that cannot be read or written. -/
  | csv (detail : String)
  /-- A file operation that failed. -/
  | io (detail : String)
  /-- An aggregation that found no record files. -/
  | noArtifacts (dir : String)
  /-- 64-bit integer arithmetic out of range. -/
  | overflow (op : Arith)
  /-- An index or a row range past the end of the data, or a debug assertion the data
  fails. -/
  | outOfRange (detail : String)
  deriving Inhabited

namespace Fault

/-- The text of a fault. Longitudes are written as shortest decimals without exponent. -/
def message : Fault → String
  | emptyTrack m => s!"Track for vessel {m} has no position reports"
  | columnLength c e f => "Column '" ++ c.name ++ s!"' has length {f}, expected {e}"
  | timeOrder m i => s!"Timestamps of vessel {m} are not ascending at index {i}"
  | invalidPolygon z r => s!"Invalid polygon for zone '{z}': {r}"
  | spansAntimeridian z lo hi _ =>
    "Zone '" ++ z ++ "' spans the antimeridian (longitudes " ++
      Decimal.render .plain lo ++ ".." ++ Decimal.render .plain hi ++ ")"
  | invalidBounds d => s!"Invalid domain boundary: {d}"
  | emptyDomain n => s!"Domain '{n}' needs at least one zone"
  | duplicateZone n => s!"Duplicate zone name '{n}'"
  | notFenced m => s!"Track for vessel {m} has not been geofenced (missing in_zone column)"
  | invalidParameter d => s!"Invalid parameter: {d}"
  | zoneFile p r => s!"Error while parsing zone file {p}: {r}"
  | csv d => s!"CSV error: {d}"
  | io d => s!"Unable to perform file operation: {d}"
  | noArtifacts d => s!"No transit records were produced in {d}"
  | overflow op => "attempt to " ++ op.verb ++ " with overflow"
  | outOfRange d => d

/-- The name of a fault's cause. -/
def kind : Fault → String
  | emptyTrack .. => "EmptyTrack"
  | columnLength .. => "ColumnLengthMismatch"
  | timeOrder .. => "NonAscendingTime"
  | invalidPolygon .. => "InvalidPolygon"
  | spansAntimeridian .. => "AntimeridianSpan"
  | invalidBounds .. => "InvalidDomainBounds"
  | emptyDomain .. => "EmptyDomain"
  | duplicateZone .. => "DuplicateZone"
  | notFenced .. => "MissingZoneColumn"
  | invalidParameter .. => "InvalidParameter"
  | zoneFile .. => "ZoneFileParse"
  | csv .. => "CsvError"
  | io .. => "IoError"
  | noArtifacts .. => "NoIntermediateArtifacts"
  | overflow .. => "panic"
  | outOfRange .. => "panic"

/-- Whether a fault ends the whole operation, rather than only the part of it that one
vessel's data drives. -/
def isPanic : Fault → Bool
  | overflow .. => true
  | outOfRange .. => true
  | _ => false

/-- Reading entry `index` of a sequence of `len` entries, past its end. -/
def outOfBounds (len index : Nat) : Fault :=
  outOfRange s!"index out of bounds: the len is {len} but the index is {index}"

end Fault

/-- Entry `i` of an array, failing as indexing past its end does. -/
def entry {α : Type} (xs : Array α) (i : Nat) : Except Fault α :=
  if h : i < xs.size then .ok xs[i] else .error (.outOfBounds xs.size i)

/-- `a - b` on unsigned machine sizes, failing below zero. -/
def subSize (a b : Nat) : Except Fault Nat :=
  if b ≤ a then .ok (a - b) else .error (.overflow .subtract)

/-- The least value of a signed 64-bit integer. -/
def minInt64 : Int := -((Nat.pow 2 63 : Nat) : Int)

/-- The greatest value of a signed 64-bit integer. -/
def maxInt64 : Int := ((Nat.pow 2 63 : Nat) : Int) - 1

/-- Whether an integer is a signed 64-bit value. -/
def fitsInt64 (v : Int) : Bool := decide (minInt64 ≤ v ∧ v ≤ maxInt64)

/-- `a - b` on signed 64-bit integers, failing when it leaves their range. -/
def subInt64 (a b : Int) : Except Fault Int :=
  if fitsInt64 (a - b) then .ok (a - b) else .error (.overflow .subtract)

/-- `|a|` on signed 64-bit integers, failing for the least value. -/
def absInt64 (a : Int) : Except Fault Int :=
  if fitsInt64 a.natAbs then .ok a.natAbs else .error (.overflow .negate)

end Seaway
