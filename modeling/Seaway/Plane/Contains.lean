import Seaway.Plane.Orient

/-!
# Where a point lies relative to a polygon

A point is inside, outside or on the boundary of a ring by the winding number: an edge
going up that starts at or below the point and ends strictly above it counts `+1` when
the point is to its left, an edge going down that starts above and ends at or below the
point counts `-1` when the point is to its right, horizontal edges count nothing. A
point collinear with an edge it meets in height, and between its ends in `x`, is on the
boundary at once. A point is in a polygon when it is inside the exterior and inside no
hole nor on a hole's boundary; the boundary belongs to no polygon.
-/

namespace Seaway

/-- Where a point lies relative to a ring or polygon. -/
inductive Position where
  | inside
  | boundary
  | outside
  deriving DecidableEq, Repr

namespace Ring

/-- Whether `v` lies between `a` and `b`, both included, in either order. -/
def between (v a b : Float) : Bool :=
  (a ≤ v && v ≤ b) || (b ≤ v && v ≤ a)

/-- One edge's step of the winding count: `some w` with the new count, or `none` when
the point is on this edge. -/
def windStep (q : Point) (w : Int) (e : Point × Point) : Option Int :=
  let (a, b) := e
  if a.y ≤ q.y then
    if q.y ≤ b.y then
      let o := orient a b q
      if o = .counterClockwise ∧ b.y != q.y then some (w + 1)
      else if o = .collinear ∧ between q.x a.x b.x then none
      else some w
    else some w
  else if b.y ≤ q.y then
    let o := orient a b q
    if o = .clockwise then some (w - 1)
    else if o = .collinear ∧ between q.x a.x b.x then none
    else some w
  else some w

/-- The winding count over a list of edges, stopping at an edge the point is on. -/
def winding (q : Point) : Int → List (Point × Point) → Option Int
  | w, [] => some w
  | w, e :: es =>
    match windStep q w e with
    | none => none
    | some w' => winding q w' es

/-- Where a point lies relative to a ring. An empty ring has every point outside and a
ring of one vertex has only that vertex on its boundary. -/
def position (ring : List Point) (q : Point) : Position :=
  match ring with
  | [] => .outside
  | [p] => if q == p then .boundary else .outside
  | _ =>
    match winding q 0 (edgesOf ring) with
    | none => .boundary
    | some 0 => .outside
    | some _ => .inside

end Ring

namespace Polygon

/-- Where a point lies relative to the holes of a polygon, for a point inside the
exterior: the first hole that holds it or has it on its boundary decides. -/
def holePosition (q : Point) : List (List Point) → Position
  | [] => .inside
  | h :: hs =>
    match Ring.position h q with
    | .outside => holePosition q hs
    | .boundary => .boundary
    | .inside => .outside

/-- Where a point lies relative to a polygon; a polygon with an empty exterior has every
point outside. -/
def position (p : Polygon) (q : Point) : Position :=
  match Ring.position p.exterior q with
  | .outside => .outside
  | .boundary => .boundary
  | .inside => holePosition q p.interiors

/-- Whether a point lies strictly inside a polygon. -/
def holds (p : Polygon) (q : Point) : Bool :=
  p.position q == .inside

end Polygon

end Seaway
