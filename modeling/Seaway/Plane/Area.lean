import Seaway.Plane.Basic

/-!
# Area and centroid of polygons

A ring's signed area is the shoelace sum of its edges' cross products, taken after
moving the first vertex to the origin (which keeps the summands small), halved; a ring
with fewer than three vertices or that is not closed has none. A polygon's area is the
exterior's magnitude less each hole's, carrying the exterior's sign.

The centroid weighs parts of the highest dimension only: a ring of nonzero area gives its
area centroid with its absolute area as weight; a ring of zero area counts as its edges
(length weighted midpoints) or as a point. The holes' weighted centroids are subtracted
from the exterior's, and the polygon's centroid is the weighted sum over the weight.
-/

namespace Seaway

namespace Ring

/-- Twice the signed area of a ring, by the shoelace sum relative to the first vertex. -/
def twiceArea (ring : List Point) : Float :=
  match ring with
  | p :: _ :: _ :: _ =>
    if isClosed ring then
      (edgesOf ring).foldl (fun acc (a, b) => acc + Point.cross (a - p) (b - p)) 0
    else 0
  | _ => 0

/-- The signed area of a ring: positive when counter-clockwise. -/
def area (ring : List Point) : Float := twiceArea ring / 2

end Ring

namespace Polygon

/-- The area of the exterior less those of the holes, with the exterior's orientation
sign. -/
def signedArea (p : Polygon) : Float :=
  let a := Ring.area p.exterior
  let net := p.interiors.foldl (fun total h => total - (Ring.area h).abs) a.abs
  if a < 0 then -net else net

/-- The magnitude of the signed area. -/
def area (p : Polygon) : Float := p.signedArea.abs

end Polygon

/-- A centroid under accumulation: the dimension of the parts it comes from (0 points,
1 segments, 2 areas), the total weight, and the weighted sum of positions. -/
structure Weighted where
  dim : Nat
  weight : Float
  sum : Point

namespace Weighted

/-- A part's centroid with its weight. -/
def single (dim : Nat) (c : Point) (w : Float) : Weighted := ⟨dim, w, c.scale w⟩

/-- Joins two accumulations: a higher dimension replaces a lower one. -/
def add (a b : Weighted) : Weighted :=
  if a.dim < b.dim then b
  else if b.dim < a.dim then a
  else ⟨a.dim, a.weight + b.weight, a.sum + b.sum⟩

/-- Removes an accumulation of the same dimension; a higher one replaces, a lower one is
ignored. -/
def sub (a b : Weighted) : Weighted :=
  if a.dim < b.dim then b
  else if b.dim < a.dim then a
  else ⟨a.dim, a.weight - b.weight, a.sum - b.sum⟩

/-- Adds a part to an optional accumulation. -/
def push (acc : Option Weighted) (w : Weighted) : Option Weighted :=
  some (match acc with | some a => a.add w | none => w)

/-- The centroid of an accumulation. -/
def centroid (w : Weighted) : Point := w.sum.divide w.weight

end Weighted

namespace Ring

/-- The length of a segment, `√(dx² + dy²)`. -/
def segmentLength (a b : Point) : Float :=
  let d := b - a
  Float.sqrt (d.x * d.x + d.y * d.y)

/-- The centroid of a vertex chain as segments: each segment adds its midpoint with its
length as weight, a segment of two equal ends adds that point; only a chain of one
vertex is a single point. Points are skipped once segments have been seen. -/
def lineCentroid (acc : Option Weighted) (ring : List Point) : Option Weighted :=
  if acc.any (fun w => 1 < w.dim) then acc
  else match ring with
    | [p] => Weighted.push acc (Weighted.single 0 p 1)
    | _ => (edgesOf ring).foldl (fun acc (a, b) =>
        if a == b then Weighted.push acc (Weighted.single 0 a 1)
        else Weighted.push acc (Weighted.single 1 ((a + b).scale 0.5) (segmentLength a b)))
        acc

/-- A ring's contribution to a centroid. A ring of nonzero area contributes its area
centroid `Σ (a + b)(a × b) / (6 · area)` (relative to the first vertex) weighted by the
absolute area; a ring of zero area whose vertices all equal the first is a point, and
otherwise a chain of segments. -/
def centroidInto (acc : Option Weighted) (ring : List Point) : Option Weighted :=
  let a := area ring
  match ring with
  | [] => acc
  | p :: rest =>
    if a == 0 then
      if rest.all (fun q => q == p) then Weighted.push acc (Weighted.single 0 p 1)
      else lineCentroid acc ring
    else
      let s := (edgesOf ring).foldl (fun s (u, v) =>
        let u' := u - p
        let v' := v - p
        s + (v' + u').scale (Point.cross u' v')) (⟨0, 0⟩ : Point)
      let c := s.divide (6 * a) + p
      Weighted.push acc (Weighted.single 2 c a.abs)

end Ring

namespace Polygon

/-- The centroid of a polygon: the exterior's accumulation less the holes'; if that
leaves no weight, the exterior taken as a chain of segments. `none` for an empty
exterior. -/
def centroid (p : Polygon) : Option Point :=
  let outer := Ring.centroidInto none p.exterior
  let holes := p.interiors.foldl Ring.centroidInto none
  match outer with
  | none => none
  | some o =>
    match holes with
    | none => some o.centroid
    | some h =>
      let net := o.sub h
      if net.weight == 0 then (Ring.lineCentroid none p.exterior).map Weighted.centroid
      else some net.centroid

end Polygon

end Seaway
