import Seaway.Track.Basic

/-!
# Distances and speeds on a spherical Earth

Distances are great-circle distances on a sphere of radius 6 367 000 m by the haversine
formula, with the square root of the haversine clamped to 1 before the arcsine. A speed
in knots divides meters by seconds, at least one second, and converts meters per second
to knots. Consecutive rows of a track give distances, elapsed seconds and speeds; the
elapsed seconds are a 64-bit difference, which fails when it leaves that range.

A search radius around a point is covered by a longitude–latitude box, the whole range
of longitudes when the circle reaches a pole or crosses the antimeridian.
-/

namespace Seaway

namespace Geodesy

/-- The Earth's radius in meters. -/
def earthRadius : Float := 6367000.0

/-- Knots per meter per second: the double nearest `1.9438445`. -/
def knotsPerMps : Float := Float.ofBits 0x3FFF19FCB0C026CC

/-- The least elapsed time between two positions, in seconds. -/
def minElapsed : Float := 1.0

/-- The great-circle distance in meters between two positions given in degrees. -/
def distance (x1 y1 x2 y2 : Float) : Float :=
  let x1r := Real64.toRadians x1
  let y1r := Real64.toRadians y1
  let x2r := Real64.toRadians x2
  let y2r := Real64.toRadians y2
  let dlon := x2r - x1r
  let dlat := y2r - y1r
  let s1 := Float.sin (dlat / 2.0)
  let s2 := Float.sin (dlon / 2.0)
  let a := s1 * s1 + Float.cos y1r * Float.cos y2r * (s2 * s2)
  2.0 * earthRadius * Float.asin (Real64.atMost (Float.sqrt a) 1.0)

/-- A speed in knots from meters and seconds; fewer than one second (or NaN) counts as
one. -/
def knots (meters seconds : Float) : Float :=
  meters / Real64.atLeast seconds minElapsed * knotsPerMps

end Geodesy

namespace Track

/-- The distances between consecutive rows of `[a, b)`. -/
def consecutiveDistances (t : Track) (a b : Nat) : Except Fault (Array Float) := do
  checkRange t.size a b
  let pts := (t.lon.extract a b).zip (t.lat.extract a b)
  pure ((pts.toList.zip pts.toList.tail).map fun ((x1, y1), (x2, y2)) =>
    Geodesy.distance x1 y1 x2 y2).toArray

/-- The elapsed seconds between consecutive rows of `[a, b)`, at least one each. -/
def consecutiveSeconds (t : Track) (a b : Nat) : Except Fault (Array Float) := do
  checkRange t.size a b
  let ts := (t.time.extract a b).toList
  let ds ← (ts.zip ts.tail).mapM fun (t1, t2) => subInt64 t2 t1
  pure (ds.map fun d => Real64.atLeast (Binary64.ofInt d) Geodesy.minElapsed).toArray

/-- The speeds in knots between consecutive rows of `[a, b)`. -/
def consecutiveKnots (t : Track) (a b : Nat) : Except Fault (Array Float) := do
  let m ← t.consecutiveDistances a b
  let s ← t.consecutiveSeconds a b
  pure ((m.zip s).map fun (d, e) => d / e * Geodesy.knotsPerMps)

end Track

namespace Geodesy

/-- A box around a point covering every position within `radius` meters: latitudes
widen by the radius as an angle, clamped to the poles; longitudes by the arcsine of the
angle's sine over the latitude's cosine, or the whole circle when the radius reaches a
quarter circle, a pole, or the antimeridian. -/
def radiusBox (x y radius : Float) : Box :=
  let d := Real64.atLeast (radius / earthRadius) 0.0
  let dDeg := Real64.toDegrees d
  let ymin := Real64.atLeast (y - dDeg) (-90.0)
  let ymax := Real64.atMost (y + dDeg) 90.0
  let cosY := Float.cos (Real64.toRadians y)
  let ratio := if 0.0 < cosY then Float.sin d / cosY else Real64.inf
  let whole : Box := ⟨-180.0, 180.0, ymin, ymax⟩
  if Real64.halfPi ≤ d ∨ 1.0 ≤ ratio then whole
  else
    let dlon := Real64.toDegrees (Float.asin ratio)
    if x - dlon < -180.0 ∨ 180.0 < x + dlon then whole
    else ⟨x - dlon, x + dlon, ymin, ymax⟩

end Geodesy

end Seaway
