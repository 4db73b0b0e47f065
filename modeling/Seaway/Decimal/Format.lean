import Seaway.Decimal.Shortest

/-!
# Spelling a double in decimal

Two families of spellings. The shortest ones write the digits of `Decimal.shortest` and
differ only in layout, which a `Style` record fixes: where positional notation stops, and
whether an integral value keeps a `.0`. The fixed ones write the exact binary value
rounded to a given number of places, a tie going to the even last digit. A set sign bit
is always written, also on a zero and on a value that rounds to zero.
-/

namespace Seaway

namespace Decimal

/-- The layout of a shortest decimal. The point position `p` of digits `d₁…dₙ` is the one
with value `0.d₁…dₙ · 10 ^ p`. -/
structure Style where
  /-- Positional notation iff the point position passes this test, else `d₁.d₂…e<p-1>`. -/
  positional : Int → Bool
  /-- Whether an integral value in positional notation ends in `.0`. -/
  pointZero : Bool
  /-- Whether a tie between two shortest decimals goes to the even one (else the larger). -/
  evenTie : Bool

/-- Positional always, integers without a point: `190`, `-180.25`, `0.0000001`,
`1000000000000000000000`. -/
def Style.plain : Style := ⟨fun _ => true, false, false⟩

/-- The exponent form always: `1e-6`, `5e-1`, `1e0`, `1.23e-4`. -/
def Style.exponent : Style := ⟨fun _ => false, false, false⟩

/-- Positional for point positions from `-4` to `16`, integers with `.0`, else the
exponent form: `0.0`, `1234.5`, `0.0001`, `1e-5`, `1e300`, `5e-324`. -/
def Style.roundTrip : Style := ⟨fun p => -5 < p ∧ p ≤ 16, true, true⟩

/-- A run of `n` zero digits. -/
def zeros (n : Nat) : String := String.ofList (List.replicate n '0')

/-- Lays out a decimal (trailing zeros already dropped) without sign. -/
def layout (s : Style) (d : Decimal) : String :=
  let ds := toString d.digits
  let n := ds.length
  let p : Int := n + d.exp
  if s.positional p then
    if 0 ≤ d.exp then ds ++ zeros d.exp.toNat ++ (if s.pointZero then ".0" else "")
    else if 0 < p then
      String.ofList (ds.toList.take p.toNat) ++ "." ++ String.ofList (ds.toList.drop p.toNat)
    else "0." ++ zeros (-p).toNat ++ ds
  else
    let rest := String.ofList (ds.toList.drop 1)
    String.ofList (ds.toList.take 1) ++ (if rest.isEmpty then "" else "." ++ rest) ++ "e" ++
      toString (p - 1)

/-- The shortest decimal of a double, in a style; NaN is `NaN` and infinities `inf`. -/
def render (s : Style) (x : Float) : String :=
  match Binary64.ofFloat x with
  | .nan => "NaN"
  | .infinite neg => (if neg then "-" else "") ++ "inf"
  | .finite neg m e =>
    let d := if m = 0 then ⟨0, 0⟩ else shortest s.evenTie m e
    (if neg then "-" else "") ++ layout s d

/-- `⌊n / d⌉`, a tie going to the even neighbour. -/
def roundHalfEven (n d : Nat) : Nat :=
  let q := n / d
  let r := n % d
  if d < 2 * r ∨ (2 * r = d ∧ q % 2 = 1) then q + 1 else q

/-- The exact value `m · 2 ^ e · 10 ^ places` rounded to an integer, a tie to even. -/
def scaledRound (m : Nat) (e : Int) (places : Nat) : Nat :=
  if 0 ≤ e then m * Nat.pow 2 e.toNat * Nat.pow 10 places
  else roundHalfEven (m * Nat.pow 10 places) (Nat.pow 2 (-e).toNat)

/-- The exact value of a double rounded to `places` decimals: `0.125` gives `0.12` and
`2.675` gives `2.67` at two places; NaN is `NaN` and infinities `inf`. -/
def fixed (places : Nat) (x : Float) : String :=
  match Binary64.ofFloat x with
  | .nan => "NaN"
  | .infinite neg => (if neg then "-" else "") ++ "inf"
  | .finite neg m e =>
    let r := scaledRound m e places
    let whole := toString (r / Nat.pow 10 places)
    let frac := toString (r % Nat.pow 10 places)
    let body := if places = 0 then whole
      else whole ++ "." ++ zeros (places - frac.length) ++ frac
    (if neg then "-" else "") ++ body

end Decimal

end Seaway
