import Seaway.Track.Basic

/-!
# Cutting tracks into pieces

A track is cut before row `i` when the time since row `i - 1` is at least the largest
allowed gap, or when the longitude jumps by more than a tolerance (300 degrees by
default: a jump across the antimeridian). The time difference is a 64-bit difference and
fails when it leaves that range. A track can also be cut into pieces of at most a given
number of rows, and rows at or below a speed can be dropped.

The pieces of a cut are the row ranges between consecutive cut points, with `0` and the
row count added at the ends; without cuts the track is returned whole.
-/

namespace Seaway

/-- When a track is cut: at a time gap of at least `maxDelta` seconds, or a longitude jump
of more than `lonJumpTolerance` degrees. -/
structure SegmentationRule where
  maxDelta : Int
  lonJumpTolerance : Float := 300.0
  deriving Inhabited

namespace SegmentationRule

/-- A rule with the default longitude tolerance; the gap must be positive. -/
def new (maxDelta : Int) : Except Fault SegmentationRule :=
  if maxDelta ≤ 0 then
    .error (.invalidParameter s!"maximum time gap must be > 0 seconds, got {maxDelta}")
  else .ok { maxDelta }

/-- The rule with another longitude tolerance, which must lie in `(0, 360]`. -/
def withTolerance (r : SegmentationRule) (t : Float) : Except Fault SegmentationRule :=
  if 0.0 < t ∧ t ≤ 360.0 then .ok { r with lonJumpTolerance := t }
  else .error (.invalidParameter
    ("longitude jump tolerance must be in (0, 360], got " ++ Decimal.render .plain t))

/-- Whether the step from row `i - 1` to row `i` is cut, reading the times and then the
longitudes of both rows. -/
def cutsAt (r : SegmentationRule) (t : Track) (i : Nat) : Except Fault Bool := do
  let t1 ← entry t.time i
  let t0 ← entry t.time (← subSize i 1)
  let gap := r.maxDelta ≤ (← subInt64 t1 t0)
  let x1 ← entry t.lon i
  let x0 ← entry t.lon (← subSize i 1)
  let jump := r.lonJumpTolerance < (x1 - x0).abs
  pure (gap || jump)

end SegmentationRule

namespace Track

/-- The pieces between consecutive cut points, `0` and the row count included. -/
def piecesAt (t : Track) (cuts : List Nat) : List Track :=
  let bounds := 0 :: cuts ++ [t.size]
  (bounds.zip bounds.tail).map fun (a, b) => t.slice a b

/-- Cuts a track by a segmentation rule, slicing the rows between consecutive cut points. -/
def splitWith (t : Track) (r : SegmentationRule) : Except Fault (List Track) := do
  let cuts ← ((List.range t.size).drop 1).filterM (r.cutsAt t)
  if cuts.isEmpty then pure [t]
  else
    let bounds := 0 :: cuts ++ [t.size]
    (bounds.zip bounds.tail).mapM fun (a, b) => t.sliceChecked a b

/-- Cuts a track at time gaps of at least `maxDelta` seconds (and at longitude jumps of
more than 300 degrees). -/
def splitByTimeGap (t : Track) (maxDelta : Int) : Except Fault (List Track) :=
  t.splitWith { maxDelta }

/-- Cuts a track into pieces of `maxLen` rows, the last one possibly shorter. -/
def splitMaxLength (t : Track) (maxLen : Nat) : Except Fault (List Track) :=
  if maxLen = 0 then .error (.invalidParameter "maximum track length must be > 0")
  else
    let starts := (List.range ((t.size + maxLen - 1) / maxLen)).map (· * maxLen)
    starts.mapM fun a => t.sliceChecked a (min (a + maxLen) t.size)

/-- The rows whose speed over ground exceeds `knots`, or `none` when there are none. -/
def dropLowSpeed (t : Track) (knots : Float) : Option Track :=
  t.select (t.sog.map fun s => knots < s)

end Track

end Seaway
