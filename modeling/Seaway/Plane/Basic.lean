import Seaway.Binary64

/-!
# Points, rings and polygons of the degree plane

Longitude is `x` and latitude is `y`, both in degrees, and the plane is flat: edges are
straight in degrees. A ring is a list of vertices that is closed when its first and last
vertex compare equal as doubles; building a polygon closes every ring by appending the
first vertex where needed. Coordinates compare as doubles do, so `-0.0` equals `0.0` and
a NaN equals nothing, which leaves a ring starting at a NaN vertex never closed.
-/

namespace Seaway

/-- A point of the degree plane: longitude `x`, latitude `y`. -/
structure Point where
  x : Float
  y : Float
  deriving Inhabited, Repr

namespace Point

/-- Coordinate-wise equality of doubles. -/
instance : BEq Point := ⟨fun p q => p.x == q.x && p.y == q.y⟩

instance : Add Point := ⟨fun p q => ⟨p.x + q.x, p.y + q.y⟩⟩
instance : Sub Point := ⟨fun p q => ⟨p.x - q.x, p.y - q.y⟩⟩

/-- Both coordinates scaled by one factor. -/
def scale (p : Point) (k : Float) : Point := ⟨p.x * k, p.y * k⟩

/-- Both coordinates divided by one divisor. -/
def divide (p : Point) (k : Float) : Point := ⟨p.x / k, p.y / k⟩

/-- The cross product of two position vectors, `p.x · q.y - p.y · q.x`. -/
def cross (p q : Point) : Float := p.x * q.y - p.y * q.x

/-- Whether both coordinates are finite. -/
def isFinite (p : Point) : Bool := p.x.isFinite && p.y.isFinite

end Point

/-- The edges of a vertex list: each vertex paired with the next one. -/
def edgesOf (ring : List Point) : List (Point × Point) :=
  ring.zip ring.tail

/-- Whether a ring's first and last vertex are equal; the empty ring counts as closed. -/
def isClosed (ring : List Point) : Bool :=
  match ring.head?, ring.getLast? with
  | some a, some b => a == b
  | _, _ => true

/-- The ring with its first vertex appended when it is not closed. -/
def closeRing (ring : List Point) : List Point :=
  match ring with
  | [] => []
  | p :: _ => if isClosed ring then ring else ring ++ [p]

/-- A polygon of the degree plane: an exterior ring and interior rings (holes). -/
structure Polygon where
  exterior : List Point
  interiors : List (List Point)
  deriving Inhabited

/-- A polygon from rings, each closed by appending its first vertex where needed. -/
def Polygon.ofRings (exterior : List Point) (interiors : List (List Point)) : Polygon :=
  ⟨closeRing exterior, interiors.map closeRing⟩

/-- An axis-aligned box of the degree plane, bounds included. -/
structure Box where
  xmin : Float
  xmax : Float
  ymin : Float
  ymax : Float
  deriving Inhabited, Repr

namespace Box

/-- The box of one point. -/
def ofPoint (x y : Float) : Box := ⟨x, x, y, y⟩

/-- The box grown to cover another, by minimum and maximum that ignore NaN bounds. -/
def expand (b o : Box) : Box :=
  ⟨Real64.minNum b.xmin o.xmin, Real64.maxNum b.xmax o.xmax,
    Real64.minNum b.ymin o.ymin, Real64.maxNum b.ymax o.ymax⟩

/-- Whether a point lies in the box, bounds included; a NaN coordinate lies in no box. -/
def contains (b : Box) (x y : Float) : Bool :=
  b.xmin ≤ x && x ≤ b.xmax && b.ymin ≤ y && y ≤ b.ymax

/-- One coordinate range widened by a value: a larger value replaces the maximum, else a
smaller one replaces the minimum; a NaN changes nothing. -/
def widen (v : Float) (r : Float × Float) : Float × Float :=
  if r.2 < v then (r.1, v) else if v < r.1 then (v, r.2) else r

/-- The box spanned by the vertices of a ring, scanned in order from the first vertex;
`none` for an empty ring. -/
def ofRing (ring : List Point) : Option Box :=
  match ring with
  | [] => none
  | p :: rest =>
    let xs := rest.foldl (fun r q => widen q.x r) (p.x, p.x)
    let ys := rest.foldl (fun r q => widen q.y r) (p.y, p.y)
    some ⟨xs.1, xs.2, ys.1, ys.2⟩

end Box

end Seaway
