import Seaway.Decimal.Read

/-!
# Reading a JSON number by scaling

Requests carry numbers as JSON text, and their value is read the quick way rather than
by correct rounding: the leading digits of the significand that fit in an unsigned
64-bit integer are kept (later integer digits only raise the exponent, later fraction
digits are dropped), that integer is rounded to a double, and the double is multiplied
or divided once by the double nearest `10 ^ k`; an exponent below `-308` first divides
by `1e308` until it is in range. The two roundings can make the result differ from the
nearest double by one unit in the last place, which is why they are kept exactly.

An integer literal without point or exponent that fits in 64 bits is simply the nearest
double; `-0` is `-0.0`. A positive power that overflows to infinity is refused.
-/

namespace Seaway

namespace Decimal

/-- The largest unsigned 64-bit integer. -/
def maxUInt64 : Nat := Nat.pow 2 64 - 1

/-- The double nearest `10 ^ k`. -/
def pow10Float (k : Nat) : Float := Binary64.ofNat (Nat.pow 10 k)

/-- `±significand · 10 ^ exponent` by one rounding of the significand and one scaling.
`none` when a positive scaling overflows. -/
def scaleFloat (neg : Bool) (significand : Nat) (exponent : Int) : Option Float :=
  let f := Binary64.ofNat significand
  let f? := go f exponent 40
  f?.map fun f => if neg then -f else f
where
  /-- Scales by `10 ^ e`; the fuel bounds the divisions by `1e308`. -/
  go (f : Float) (e : Int) : Nat → Option Float
    | 0 => some f
    | fuel + 1 =>
      if e.natAbs ≤ 308 then
        if 0 ≤ e then
          let g := f * pow10Float e.toNat
          if g.isInf then none else some g
        else some (f / pow10Float e.natAbs)
      else if f == 0 then some f
      else if 0 ≤ e then none
      else go (f / pow10Float 308) (e + 308) fuel

/-- The integer digits: kept while the significand fits in 64 bits, counted in the
exponent after that. -/
def wholeDigits : List Char → Nat → Nat → Bool → Nat × Nat × Bool × List Char
  | c :: rest, sig, extra, spilled =>
    if c.isDigit then
      let d := c.toNat - '0'.toNat
      if !spilled ∧ sig * 10 + d ≤ maxUInt64 then wholeDigits rest (sig * 10 + d) extra false
      else wholeDigits rest sig (extra + 1) true
    else (sig, extra, spilled, c :: rest)
  | [], sig, extra, spilled => (sig, extra, spilled, [])

/-- The fraction digits: kept while the significand fits, all later ones dropped. -/
def fractionDigits : List Char → Nat → Nat → Bool → Nat × Nat × List Char
  | c :: rest, sig, kept, full =>
    if c.isDigit then
      let d := c.toNat - '0'.toNat
      if !full ∧ sig * 10 + d ≤ maxUInt64 then
        fractionDigits rest (sig * 10 + d) (kept + 1) false
      else fractionDigits rest sig kept true
    else (sig, kept, c :: rest)
  | [], sig, kept, _ => (sig, kept, [])

/-- Reads a JSON number as described above; `none` for a text that is not one or whose
value overflows. -/
def readScaled? (s : String) : Option Float :=
  let (neg, body) := match s.toList with
    | '-' :: r => (true, r)
    | r => (false, r)
  match body with
  | [] => none
  | '0' :: d :: _ => if d.isDigit then none else main neg body
  | _ => main neg body
where
  main (neg : Bool) (body : List Char) : Option Float :=
    let (sig, extra, spilled, rest) := wholeDigits body 0 0 false
    if body.head?.all (fun c => !c.isDigit) then none
    else
      match rest with
      | [] =>
        if spilled then scaleFloat neg sig extra
        else some (if neg then -(Binary64.ofNat sig) else Binary64.ofNat sig)
      | '.' :: r =>
        let (sig, kept, rest) := fractionDigits r sig 0 false
        if r.head?.all (fun c => !c.isDigit) then none
        else exponentPart neg sig ((extra : Int) - kept) rest
      | r => exponentPart neg sig extra r
  exponentPart (neg : Bool) (sig : Nat) (e0 : Int) : List Char → Option Float
    | [] => scaleFloat neg sig e0
    | c :: r =>
      if c = 'e' ∨ c = 'E' then
        let (up, r) := match r with
          | '+' :: r' => (true, r')
          | '-' :: r' => (false, r')
          | r' => (true, r')
        let (x, n, tail) := digitRun r
        if n = 0 ∨ !tail.isEmpty then none
        else if Nat.pow 2 31 - 1 < x then
          if sig ≠ 0 ∧ up then none else some (if neg then -0.0 else 0.0)
        else scaleFloat neg sig (if up then e0 + x else e0 - x)
      else none

end Decimal

end Seaway
