/-!
# Doubles as exact numbers

A double denotes NaN, a signed infinity, or a signed finite value `m · 2 ^ e` with
`m < 2 ^ 53`. This module reads a `Float`'s bit pattern into that form, rounds an exact
ratio of naturals to the nearest double (ties to an even significand, the rounding of
IEEE 754 binary64), and gives the minimum and maximum that ignore a NaN operand: between
two unknown operands a tie keeps the first, against a bound that is never NaN it keeps
the bound.
-/

namespace Seaway

/-- What a double denotes: NaN, a signed infinity, or a signed finite `m · 2 ^ e`. -/
inductive Binary64 where
  | nan
  | infinite (neg : Bool)
  | finite (neg : Bool) (m : Nat) (e : Int)
  deriving Repr, Inhabited

namespace Binary64

/-- The bit pattern of a positive infinity. -/
def infBits : Nat := 2047 * Nat.pow 2 52

/-- Reads the sign bit, biased exponent and trailing significand of a double. A zero
biased exponent is the subnormal range, whose values are `m · 2 ^ (-1074)`. -/
def ofFloat (x : Float) : Binary64 :=
  let b := x.toBits.toNat
  let neg := decide (Nat.pow 2 63 ≤ b)
  let biased : Nat := b / Nat.pow 2 52 % 2048
  let frac : Nat := b % Nat.pow 2 52
  if biased = 2047 then
    if frac = 0 then .infinite neg else .nan
  else if biased = 0 then .finite neg frac (-1074)
  else .finite neg (frac + Nat.pow 2 52) ((biased : Int) - 1075)

/-- The quotient and remainder of `n / (d · 2 ^ k)` for an integer `k`, together with the
divisor they refer to: both sides are scaled to naturals first. -/
def scaledDivMod (n d : Nat) (k : Int) : Nat × Nat × Nat :=
  let num := if k ≤ 0 then n * Nat.pow 2 (-k).toNat else n
  let den := if k ≤ 0 then d else d * Nat.pow 2 k.toNat
  (num / den, num % den, den)

/-- Bits of the positive double nearest to `n / d` (for `n > 0`, `d > 0`), ties to an even
significand, saturating at infinity. The last kept bit has weight `2 ^ k` with `k` chosen
so that the significand has 53 bits, or `k = -1074` in the subnormal range; the bit
pattern of `q · 2 ^ k` is then `(k + 1074) · 2 ^ 52 + q`, which also covers a
significand that rounding carried to `2 ^ 53`. -/
def roundRatioBits (n d : Nat) : Nat :=
  let k0 : Int := (n.log2 : Int) - d.log2 - 53
  let k1 := if Nat.pow 2 53 ≤ (scaledDivMod n d k0).1 then k0 + 1 else k0
  let k := max k1 (-1074)
  let (q, r, den) := scaledDivMod n d k
  let q := if den < 2 * r ∨ (2 * r = den ∧ q % 2 = 1) then q + 1 else q
  let bits := (k + 1074).toNat * Nat.pow 2 52 + q
  if infBits ≤ bits then infBits else bits

/-- The double nearest to `± n / d`; a zero numerator gives a zero of the requested sign. -/
def ofRatio (neg : Bool) (n d : Nat) : Float :=
  let mag := if n = 0 ∨ d = 0 then 0 else roundRatioBits n d
  Float.ofBits (UInt64.ofNat (if neg then mag + Nat.pow 2 63 else mag))

/-- The double nearest to an integer (ties to even), as a conversion of a machine
integer to a double rounds. -/
def ofInt (i : Int) : Float :=
  ofRatio (decide (i < 0)) i.natAbs 1

/-- The double nearest to a natural number. -/
def ofNat (n : Nat) : Float :=
  ofRatio false n 1

/-- The integer part of a finite double, rounded toward zero; `none` for NaN and the
infinities. -/
def truncate (x : Float) : Option Int :=
  match ofFloat x with
  | .finite neg m e =>
    let mag : Nat := if 0 ≤ e then m * Nat.pow 2 e.toNat else m / Nat.pow 2 (-e).toNat
    some (if neg then -(mag : Int) else mag)
  | _ => none

end Binary64

namespace Real64

/-- The smaller of two doubles where a NaN operand is ignored; of two equal operands
(such as `0.0` and `-0.0`) the first is returned. -/
def minNum (a b : Float) : Float :=
  if a.isNaN then b else if b < a then b else a

/-- The larger of two doubles where a NaN operand is ignored; of two equal operands the
first is returned. -/
def maxNum (a b : Float) : Float :=
  if a.isNaN then b else if a < b then b else a

/-- `x` raised to the bound `c`, which is never NaN: a NaN `x`, or one equal to `c` (such
as `-0.0` against `0.0`), gives `c`. -/
def atLeast (x c : Float) : Float :=
  if c < x then x else c

/-- `x` lowered to the bound `c`, which is never NaN: a NaN `x`, or one equal to `c`,
gives `c`. -/
def atMost (x c : Float) : Float :=
  if x < c then x else c

/-- Whether the sign bit of a double is set (also for `-0.0` and a negative NaN). -/
def signBit (x : Float) : Bool :=
  decide (Nat.pow 2 63 ≤ x.toBits.toNat)

/-- The double nearest `π / 180`, `0.017453292519943295`. -/
def radiansPerDegree : Float := Float.ofBits 0x3F91DF46A2529D39

/-- The double nearest `180 / π`, `57.29577951308232`. -/
def degreesPerRadian : Float := Float.ofBits 0x404CA5DC1A63C1F8

/-- Degrees to radians, by one multiplication with the double nearest `π / 180`. -/
def toRadians (x : Float) : Float := x * radiansPerDegree

/-- Radians to degrees, by one multiplication with the double nearest `180 / π`. -/
def toDegrees (x : Float) : Float := x * degreesPerRadian

/-- Positive infinity. -/
def inf : Float := Float.ofBits 0x7FF0000000000000

/-- A quiet NaN. -/
def nan : Float := Float.ofBits 0x7FF8000000000000

/-- Negative zero. -/
def negZero : Float := Float.ofBits 0x8000000000000000

/-- The sum of doubles added from the left, starting at `-0.0` so that an empty sum, or a
sum of negative zeros, is `-0.0` and `-0.0 + x = x` for every other first term. -/
def sum (xs : List Float) : Float := xs.foldl (· + ·) negZero

/-- The smallest positive normal double, `2 ^ (-1022)`. -/
def minPositive : Float := Float.ofBits 0x0010000000000000

/-- The double nearest `π / 2`, `1.5707963267948966`. -/
def halfPi : Float := Float.ofBits 0x3FF921FB54442D18

end Real64

end Seaway
