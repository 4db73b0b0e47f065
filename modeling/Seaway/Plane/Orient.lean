import Seaway.Plane.Basic

/-!
# Orientation of three points

The turn `a → b → c` is counter-clockwise, clockwise or collinear by the sign of
`(a.x - c.x)(b.y - c.y) - (a.y - c.y)(b.x - c.x)`. The sign is first read off the
rounded double evaluation where that is certain: the two products have opposite signs
or a zero, or the rounded determinant exceeds its error bound `(3 + 16ε)ε` times the sum
of the products' magnitudes (`ε = 2 ^ (-53)`). Otherwise the sign of the exact
determinant decides, computed on integers after scaling all six coordinates to one
binary exponent. A NaN determinant counts as collinear.
-/

namespace Seaway

/-- The turn made by three points. -/
inductive Orientation where
  | counterClockwise
  | clockwise
  | collinear
  deriving DecidableEq, Repr

namespace Orientation

/-- The orientation of a determinant's sign; zero and NaN are collinear. -/
def ofSign (det : Float) : Orientation :=
  if det < 0 then .clockwise else if 0 < det then .counterClockwise else .collinear

/-- The orientation of an exact integer determinant. -/
def ofIntSign (det : Int) : Orientation :=
  if det < 0 then .clockwise else if 0 < det then .counterClockwise else .collinear

/-- A finite double as a signed integer significand and a binary exponent. -/
def parts (v : Float) : Int × Int :=
  match Binary64.ofFloat v with
  | .finite neg m e => (if neg then -(m : Int) else m, e)
  | _ => (0, 0)

/-- The exact orientation of three points with finite coordinates: every coordinate is
an integer multiple of `2 ^ E` for `E` the least of zero and the exponents of the nonzero
coordinates. -/
def exact (a b c : Point) : Orientation :=
  let ps := [a.x, a.y, b.x, b.y, c.x, c.y].map parts
  let low := ps.foldl (fun m p => if p.1 = 0 then m else min m p.2) 0
  let scaled (v : Float) : Int :=
    let (s, e) := parts v
    s * ((Nat.pow 2 (e - low).toNat : Nat) : Int)
  let x1 := scaled a.x
  let y1 := scaled a.y
  let x2 := scaled b.x
  let y2 := scaled b.y
  let x3 := scaled c.x
  let y3 := scaled c.y
  ofIntSign ((x1 - x3) * (y2 - y3) - (y1 - y3) * (x2 - x3))

/-- The relative error bound of the rounded determinant, `(3 + 16ε)ε`. -/
def errorBound : Float := Float.ofBits 0x3CB8000000000004

end Orientation

/-- The orientation of `a → b → c`: rounded evaluation where its sign is certain, the exact
determinant otherwise. -/
def orient (a b c : Point) : Orientation :=
  let left := (a.x - c.x) * (b.y - c.y)
  let right := (a.y - c.y) * (b.x - c.x)
  let det := left - right
  let sum? : Option Float :=
    if 0 < left then (if right ≤ 0 then none else some (left + right))
    else if left < 0 then (if 0 ≤ right then none else some (-left - right))
    else none
  match sum? with
  | none => Orientation.ofSign det
  | some sum =>
    let bound := Orientation.errorBound * sum
    if bound ≤ det ∨ bound ≤ -det then Orientation.ofSign det
    else if a.isFinite && b.isFinite && c.isFinite then Orientation.exact a b c
    else Orientation.ofSign det

end Seaway
