import Seaway.Decimal.Shortest

/-!
# Reading a decimal number as a double

The accepted texts are an optional sign followed by `inf`, `infinity` or `nan` in any
case, or by digits with an optional point and fraction and an optional exponent `e` or
`E` with an optional sign: `5`, `+5`, `.5`, `5.`, `1.5e-3`. At least one digit must
stand before the exponent, and the exponent needs one digit. Nothing else is allowed: no
blank, no `_`, no hexadecimal. The value read is the double nearest to the exact decimal,
a tie to the even significand; beyond the range it is an infinity or a zero.
-/

namespace Seaway

namespace Decimal

/-- The digits at the front of a text, as a value and a count, and the rest. -/
def digitRun (cs : List Char) : Nat × Nat × List Char :=
  go cs 0 0
where
  go : List Char → Nat → Nat → Nat × Nat × List Char
    | c :: rest, acc, n =>
      if c.isDigit then go rest (acc * 10 + (c.toNat - '0'.toNat)) (n + 1)
      else (acc, n, c :: rest)
    | [], acc, n => (acc, n, [])

/-- A decimal read from its text: digits, the count of fraction digits, the exponent. -/
structure Literal where
  significand : Nat
  fractionDigits : Nat
  exponent : Int

/-- Reads an unsigned decimal literal; the whole text must be used. -/
def Literal.read? (cs : List Char) : Option Literal :=
  let (whole, nWhole, rest) := digitRun cs
  let (frac, nFrac, rest) := match rest with
    | '.' :: r => digitRun r
    | r => (0, 0, r)
  if nWhole + nFrac = 0 then none
  else
    let sig := whole * Nat.pow 10 nFrac + frac
    match rest with
    | [] => some ⟨sig, nFrac, 0⟩
    | e :: r =>
      if e = 'e' ∨ e = 'E' then
        let (neg, r) := match r with
          | '-' :: r' => (true, r')
          | '+' :: r' => (false, r')
          | r' => (false, r')
        let (x, nx, tail) := digitRun r
        if nx = 0 ∨ !tail.isEmpty then none
        else some ⟨sig, nFrac, if neg then -(x : Int) else x⟩
      else none

/-- The double nearest to a literal, with the given sign. Far beyond the range of doubles
the answer is decided before any power of ten is formed. -/
def Literal.toFloat (neg : Bool) (l : Literal) : Float :=
  if l.significand = 0 then Binary64.ofRatio neg 0 1
  else
    let e : Int := l.exponent - l.fractionDigits
    let mag : Int := e + digitCount l.significand
    if 310 < mag then (if neg then -Real64.inf else Real64.inf)
    else if mag < -330 then Binary64.ofRatio neg 0 1
    else if 0 ≤ e then Binary64.ofRatio neg (l.significand * Nat.pow 10 e.toNat) 1
    else Binary64.ofRatio neg l.significand (Nat.pow 10 (-e).toNat)

/-- Reads a double; `none` when the text is not a number in the accepted grammar. -/
def readFloat? (s : String) : Option Float :=
  let (neg, body) := match s.toList with
    | '-' :: r => (true, r)
    | '+' :: r => (false, r)
    | r => (false, r)
  let word := String.ofList (body.map Char.toLower)
  if word = "inf" ∨ word = "infinity" then
    some (if neg then -Real64.inf else Real64.inf)
  else if word = "nan" then some Real64.nan
  else (Literal.read? body).map (Literal.toFloat neg)

end Decimal

end Seaway
