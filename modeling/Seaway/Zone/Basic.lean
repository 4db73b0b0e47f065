import Seaway.Geodesy
import Seaway.Plane.Contains
import Seaway.Text.Blank

/-!
# Zones

A zone is a named polygon of the degree plane with three values derived once: its area
centroid, its bounding box, and `maxRadius`, an upper bound in meters of the distance
from the centroid to any point of its exterior boundary. A point can only lie in a zone
whose `centroidMargin` (distance to the centroid less `maxRadius`) is negative, which is
what makes the bound a cheap filter before the exact containment test.

Edges are straight in degrees, not great circles, so the bound samples every exterior
edge at most `0.05` degrees apart (at least one and at most 4096 steps per edge) and adds
half the largest distance between consecutive samples.

A polygon is accepted when the name is not blank, the exterior's coordinates are finite
with latitudes in `[-90, 90]`, the exterior has three distinct vertices, and the area
(exterior less holes) is positive; the first failed check names the reason.
-/

namespace Seaway

/-- A named polygon with its centroid, boundary radius bound and bounding box. -/
structure Zone where
  name : String
  geometry : Polygon
  centroid : Point
  maxRadius : Float
  bbox : Box
  deriving Inhabited

namespace Zone

/-- The greatest spacing, in degrees, between boundary samples. -/
def sampleStep : Float := Float.ofBits 0x3FA999999999999A

/-- The most samples taken on one edge. -/
def maxSamples : Nat := 4096

/-- The number of sampling steps of an edge spanning `span` degrees: `⌈span / 0.05⌉`
clamped to `[1, 4096]`; a NaN or negative quotient counts as zero. -/
def stepsFor (span : Float) : Nat :=
  let q := Float.ceil (span / sampleStep)
  let n :=
    if q.isNaN ∨ q ≤ 0 then 0
    else if (4096 : Float) ≤ q then maxSamples
    else q.toUInt64.toNat
  min (max n 1) maxSamples

/-- The running maxima `(sample, spacing)` after the samples of one edge `a → b`: the
start `a` and the points `a + (b - a) · k / n` for `k = 1 … n`. -/
def sampleEdge (c : Point) (acc : Float × Float) (e : Point × Point) : Float × Float :=
  let (a, b) := e
  let span := Real64.maxNum (b.x - a.x).abs (b.y - a.y).abs
  let n := stepsFor span
  let nf := Binary64.ofNat n
  let start := Real64.maxNum acc.1 (Geodesy.distance c.x c.y a.x a.y)
  let (sample, spacing, _) := (List.range n).foldl (fun (s, g, prev) k =>
      let t := Binary64.ofNat (k + 1) / nf
      let p : Point := ⟨a.x + (b.x - a.x) * t, a.y + (b.y - a.y) * t⟩
      (Real64.maxNum s (Geodesy.distance c.x c.y p.x p.y),
        Real64.maxNum g (Geodesy.distance prev.x prev.y p.x p.y), p))
    (start, acc.2, a)
  (sample, spacing)

/-- The boundary radius bound of a ring around a centroid. -/
def boundaryRadius (ring : List Point) (c : Point) : Float :=
  let (sample, spacing) := (edgesOf ring).foldl (sampleEdge c) (0.0, 0.0)
  sample + spacing / 2.0

/-- The vertices of a list without repeats, by coordinate equality. -/
def distinct (ps : List Point) : List Point :=
  ps.foldl (fun acc p => if acc.any (· == p) then acc else acc ++ [p]) []

/-- Validates a polygon and derives the zone's values. -/
def new (name : String) (geometry : Polygon) : Except Fault Zone := do
  let invalid (reason : String) : Fault := .invalidPolygon name reason
  let ring := geometry.exterior
  if (Text.trim name).isEmpty then throw (invalid "zone name is empty")
  if ring.any (fun p => !p.isFinite) then throw (invalid "non-finite coordinate")
  if ring.any (fun p => !(-90.0 ≤ p.y ∧ p.y ≤ 90.0)) then
    throw (invalid "latitude outside [-90, 90]")
  if (distinct ring).length < 3 then throw (invalid "fewer than three distinct vertices")
  if geometry.area ≤ 0.0 then throw (invalid "polygon has no area")
  let some centroid := geometry.centroid | throw (invalid "centroid is undefined")
  let some bbox := Box.ofRing ring | throw (invalid "bounding box is undefined")
  pure { name, geometry, centroid, bbox, maxRadius := boundaryRadius ring centroid }

/-- A zone from the longitudes and latitudes of its exterior; lists of different lengths
are refused. -/
def ofCoords (name : String) (xs ys : List Float) : Except Fault Zone :=
  if xs.length ≠ ys.length then
    .error (.invalidPolygon name (toString xs.length ++ " longitudes for " ++
      toString ys.length ++ " latitudes"))
  else new name (Polygon.ofRings ((xs.zip ys).map fun (x, y) => ⟨x, y⟩) [])

/-- Distance from a point to the centroid less the boundary radius bound, in meters;
negative for every point of the zone. -/
def centroidMargin (z : Zone) (x y : Float) : Float :=
  Geodesy.distance x y z.centroid.x z.centroid.y - z.maxRadius

/-- Whether a point lies in the zone: in its box and strictly inside its polygon. -/
def contains (z : Zone) (x y : Float) : Bool :=
  z.bbox.contains x y && z.geometry.holds ⟨x, y⟩

end Zone

end Seaway
