import Seaway.Binary64

/-!
# The shortest decimal that reads back as a double

A positive double `m · 2 ^ e` is the rounding of every real in an interval around it:
half a unit in the last place on each side (a quarter below when `m` is the smallest
significand of its binade), with both ends included iff `m` is even, since a tie reads
back to the even significand. The shortest decimal is found on the grids `10 ^ g` for
1, 2, … 17 significant digits: on each grid only the two grid points next to the value
can lie in the interval, the first grid with a hit wins, and of two hits the nearer one
wins. An exact tie between two hits (as for `2 ^ (-25)` at seventeen digits) goes to the
larger or to the even one, as the caller asks. All arithmetic is on naturals.
-/

namespace Seaway

/-- A decimal number `digits · 10 ^ exp`. -/
structure Decimal where
  digits : Nat
  exp : Int
  deriving Repr, Inhabited, DecidableEq

namespace Decimal

/-- Number of decimal digits of a natural number; zero has one digit. -/
def digitCount (n : Nat) : Nat :=
  if n < 10 then 1 else digitCount (n / 10) + 1
termination_by n
decreasing_by omega

/-- Drops trailing zero digits into the exponent; the value is unchanged. -/
def normalize (d : Decimal) : Decimal :=
  if h : d.digits ≠ 0 ∧ d.digits % 10 = 0 then
    normalize ⟨d.digits / 10, d.exp + 1⟩
  else d
termination_by d.digits
decreasing_by
  show d.digits / 10 < d.digits
  omega

/-- `10 ^ g` as a ratio `top / bottom` of naturals. -/
def pow10Ratio (g : Int) : Nat × Nat :=
  if 0 ≤ g then (Nat.pow 10 g.toNat, 1) else (1, Nat.pow 10 (-g).toNat)

/-- The reals that round to a positive double, measured in a unit `num / den`: the value,
the two ends, and whether the ends belong to it. -/
structure Neighbourhood where
  low : Nat
  value : Nat
  high : Nat
  closed : Bool
  num : Nat
  den : Nat

/-- The neighbourhood of `m · 2 ^ e` in units of `2 ^ (e - 2)`. -/
def Neighbourhood.ofBinary (m : Nat) (e : Int) : Neighbourhood :=
  let lowerGap := if m = Nat.pow 2 52 ∧ -1074 < e then 1 else 2
  let (num, den) :=
    if 2 ≤ e then (Nat.pow 2 (e - 2).toNat, 1) else (1, Nat.pow 2 (2 - e).toNat)
  { low := 4 * m - lowerGap, value := 4 * m, high := 4 * m + 2,
    closed := m % 2 == 0, num, den }

namespace Neighbourhood

/-- Whether `c · 10 ^ g` lies in the neighbourhood. -/
def holds (w : Neighbourhood) (c : Nat) (g : Int) : Bool :=
  let (top, bottom) := pow10Ratio g
  let x := c * top * w.den
  let lo := w.low * w.num * bottom
  let hi := w.high * w.num * bottom
  if w.closed then lo ≤ x ∧ x ≤ hi else lo < x ∧ x < hi

/-- The largest `c` with `c · 10 ^ g` at most the value. -/
def floorAt (w : Neighbourhood) (g : Int) : Nat :=
  let (top, bottom) := pow10Ratio g
  (w.value * w.num * bottom) / (w.den * top)

/-- Whether `c + 1` rather than `c` is taken of the two grid points around the value:
the nearer one, and on an exact tie the larger one or the even one. -/
def takesUpper (w : Neighbourhood) (evenTie : Bool) (c : Nat) (g : Int) : Bool :=
  let (top, bottom) := pow10Ratio g
  let mid := (2 * c + 1) * top * w.den
  let twice := 2 * w.value * w.num * bottom
  if mid < twice then true
  else if twice < mid then false
  else if evenTie then c % 2 = 1 else true

/-- The exponent `t` with `10 ^ t ≤ value < 10 ^ (t + 1)`. -/
def leadingPower (w : Neighbourhood) : Int :=
  let p := w.value * w.num
  let q := w.den
  if q ≤ p then (digitCount (p / q) : Int) - 1
  else
    let d := digitCount (q / p)
    if q ≤ p * Nat.pow 10 (d - 1) then -((d - 1 : Nat) : Int) else -(d : Int)

/-- The grid point with `k` significant digits that lies in the neighbourhood, the nearer
one if both neighbours of the value do. -/
def pick (w : Neighbourhood) (evenTie : Bool) (k : Nat) : Option Decimal :=
  let g := w.leadingPower - k + 1
  let c := w.floorAt g
  match w.holds c g, w.holds (c + 1) g with
  | true, true => some ⟨if w.takesUpper evenTie c g then c + 1 else c, g⟩
  | true, false => some ⟨c, g⟩
  | false, true => some ⟨c + 1, g⟩
  | false, false => none

end Neighbourhood

/-- The shortest decimal that reads back as `m · 2 ^ e` (for `0 < m`), the nearest among
those of that length. Seventeen significant digits always suffice for a double; the last
fallback is the nearest grid point with seventeen digits. -/
def shortest (evenTie : Bool) (m : Nat) (e : Int) : Decimal :=
  let w := Neighbourhood.ofBinary m e
  let found := (List.range 17).findSome? fun i => w.pick evenTie (i + 1)
  let fallback : Decimal :=
    let g := w.leadingPower - 16
    let c := w.floorAt g
    ⟨if w.takesUpper evenTie c g then c + 1 else c, g⟩
  normalize (found.getD fallback)

end Decimal

end Seaway
