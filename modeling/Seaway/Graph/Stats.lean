import Seaway.Fault
import Seaway.Text.Blank

/-!
# Track length statistics

The lengths of the tracks of a run are summarized by their count, their sum and five
order statistics. A quantile `q` of `N` sorted lengths is the length at rank
`round(q · (N - 1))`, the product taken in doubles and rounded half away from zero. The
sum is a 64-bit count, and a sum beyond its range is an overflow.
-/

namespace Seaway

/-- Count, sum and order statistics of track lengths. -/
structure LengthStats where
  tracks : Nat
  positions : Nat
  min : Nat
  p25 : Nat
  median : Nat
  p95 : Nat
  max : Nat
  deriving Inhabited, BEq, Repr

namespace LengthStats

/-- The double nearest `0.95`. -/
def q95 : Float := Float.ofBits 0x3FEE666666666666

/-- The length at the rank nearest to `q · (N - 1)` of `N` sorted lengths. -/
def nearestRank (sorted : Array Nat) (q : Float) : Nat :=
  let last := sorted.size - 1
  let rank := (q * Binary64.ofNat last).round.toUInt64.toNat
  sorted.getD (Nat.min rank last) 0

/-- The statistics of a list of lengths; `none` for no lengths. -/
def ofLengths (lengths : List Nat) : Except Fault (Option LengthStats) :=
  let sorted := (lengths.mergeSort fun a b => decide (a ≤ b)).toArray
  let positions := lengths.foldl (· + ·) 0
  if sorted.isEmpty then .ok none
  else if Nat.pow 2 64 ≤ positions then .error (.overflow .add)
  else .ok (some {
    tracks := sorted.size, positions,
    min := sorted.getD 0 0,
    p25 := nearestRank sorted 0.25,
    median := nearestRank sorted 0.5,
    p95 := nearestRank sorted q95,
    max := sorted.getD (sorted.size - 1) 0 })

/-- The mean length, as the quotient of the doubles of sum and count. -/
def mean (s : LengthStats) : Float := Binary64.ofNat s.positions / Binary64.ofNat s.tracks

/-- One line with count, sum and the order statistics. -/
def describe (s : LengthStats) : String :=
  toString s.tracks ++ " tracks, " ++ toString s.positions ++ " positions (min " ++
    toString s.min ++ ", p25 " ++ toString s.p25 ++ ", median " ++ toString s.median ++
    ", p95 " ++ toString s.p95 ++ ", max " ++ toString s.max ++ ")"

/-- A line of the block: a name in seven columns and a value in eight. -/
def line (name value : String) : String :=
  "  " ++ Text.padRight 7 name ++ Text.padLeft 8 value

/-- A titled block with one line per statistic and the mean with one decimal. -/
def describeBlock (s : LengthStats) : String :=
  "Track lengths (" ++ toString s.tracks ++ " tracks)\n" ++
    String.join ([("min", s.min), ("p25", s.p25), ("median", s.median), ("p95", s.p95),
      ("max", s.max)].map fun (n, v) => line n (toString v) ++ "\n") ++
    line "mean" (Decimal.fixed 1 s.mean)

end LengthStats

end Seaway
