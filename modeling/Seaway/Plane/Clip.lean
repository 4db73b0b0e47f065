import Seaway.Plane.Area

/-!
# Cutting a polygon at the antimeridian

A ring is clipped against a vertical half-plane by one Sutherland–Hodgman pass: every
edge, the closing edge from the last vertex to the first included, keeps its end when it
lies in the half-plane and adds the point where it crosses the boundary line when exactly
one of its ends does. A polygon that leaves `[-180, 180]` is cut into the part west of
`-180` (moved east by 360 degrees), the part east of `180` (moved west by 360 degrees),
and the part in between; holes are not carried over, and a part with fewer than three
vertices or no area is dropped.
-/

namespace Seaway

/-- A closed vertical half-plane of the degree plane. -/
inductive HalfPlane where
  /-- The points with `x ≤ c`. -/
  | atMost (c : Float)
  /-- The points with `x ≥ c`. -/
  | atLeast (c : Float)

namespace HalfPlane

/-- The longitude of the boundary line. -/
def bound : HalfPlane → Float
  | atMost c => c
  | atLeast c => c

/-- Whether a longitude lies in the half-plane; a NaN lies in none. -/
def keeps : HalfPlane → Float → Bool
  | atMost c, x => x ≤ c
  | atLeast c, x => c ≤ x

/-- Where the segment from `a` to `b` meets the boundary line, by linear interpolation in
latitude. -/
def crossing (h : HalfPlane) (a b : Point) : Point :=
  let c := h.bound
  let t := (c - a.x) / (b.x - a.x)
  ⟨c, a.y + (b.y - a.y) * t⟩

/-- The vertices that one edge contributes to the clipped ring. -/
def edgeOutput (h : HalfPlane) (prev cur : Point) : List Point :=
  match h.keeps prev.x, h.keeps cur.x with
  | true, true => [cur]
  | true, false => [h.crossing prev cur]
  | false, true => [h.crossing prev cur, cur]
  | false, false => []

/-- An open ring clipped to the half-plane; each vertex is the end of the edge that comes
from the vertex before it, the first one from the last. -/
def clip (h : HalfPlane) (ring : List Point) : List Point :=
  match ring.getLast? with
  | none => []
  | some last => ((last :: ring).zip ring).flatMap fun (prev, cur) => h.edgeOutput prev cur

end HalfPlane

/-- The three parts of a polygon cut at the antimeridian. -/
structure Split where
  west : Option Polygon
  east : Option Polygon
  interior : Option Polygon
  deriving Inhabited

namespace Split

/-- A clipped ring moved by `shift` degrees in longitude, as a polygon, if it has at least
three vertices and positive area. -/
def part (ring : List Point) (shift : Float) : Option Polygon :=
  if ring.length < 3 then none
  else
    let p := Polygon.ofRings (ring.map fun q => ⟨q.x + shift, q.y⟩) []
    if 0 < p.area then some p else none

/-- The exterior ring without a repeated closing vertex. -/
def openRing (ring : List Point) : List Point :=
  match ring, ring.getLast? with
  | _ :: _ :: _, some l => if ring.head? == some l then ring.dropLast else ring
  | _, _ => ring

end Split

/-- Cuts a polygon's exterior at `-180` and `180` degrees of longitude. -/
def Polygon.splitAntimeridian (p : Polygon) : Split :=
  let ring := Split.openRing p.exterior
  let west := HalfPlane.clip (.atMost (-180)) ring
  let east := HalfPlane.clip (.atLeast 180) ring
  let interior := HalfPlane.clip (.atMost 180) (HalfPlane.clip (.atLeast (-180)) ring)
  ⟨Split.part west 360, Split.part east (-360), Split.part interior 0⟩

end Seaway
