/-!
# Reading integers

An integer of a bounded type is read from text in a radix up to 36: an optional sign
(`-` only for a signed type), then at least one digit. Digits are read from the left;
the first character that is not a digit of the radix is refused, and so is the first
prefix whose value leaves the type's range, as too large or too small by its sign. A
lone sign is an invalid digit, an empty text a case of its own.
-/

namespace Seaway

namespace Decimal

/-- Why a text is not an integer of a type. -/
inductive IntegerError where
  | empty
  | invalidDigit
  | tooLarge
  | tooSmall
  deriving DecidableEq, Repr, Inhabited

/-- The text of an integer reading error. -/
def IntegerError.message : IntegerError → String
  | .empty => "cannot parse integer from empty string"
  | .invalidDigit => "invalid digit found in string"
  | .tooLarge => "number too large to fit in target type"
  | .tooSmall => "number too small to fit in target type"

/-- The value of a digit character in a radix, letters of either case counting from ten. -/
def digitValue (radix : Nat) (c : Char) : Option Nat :=
  let v :=
    if '0' ≤ c ∧ c ≤ '9' then some (c.toNat - '0'.toNat)
    else if 'a' ≤ c ∧ c ≤ 'z' then some (c.toNat - 'a'.toNat + 10)
    else if 'A' ≤ c ∧ c ≤ 'Z' then some (c.toNat - 'A'.toNat + 10)
    else none
  v.bind fun d => if d < radix then some d else none

/-- Reads digits onto `acc`, subtracting them for a negative number, within `[lo, hi]`. -/
def readDigits (radix : Nat) (neg : Bool) (lo hi : Int) (acc : Int) :
    List Char → Except IntegerError Int
  | [] => .ok acc
  | c :: cs =>
    match digitValue radix c with
    | none => .error .invalidDigit
    | some d =>
      let acc := if neg then acc * radix - d else acc * radix + d
      if acc < lo then .error .tooSmall
      else if hi < acc then .error .tooLarge
      else readDigits radix neg lo hi acc cs

/-- Reads an integer of the range `[lo, hi]` in a radix; a minus sign is read only when
`lo` is negative. -/
def readInteger (radix : Nat) (lo hi : Int) (s : String) : Except IntegerError Int :=
  match s.toList with
  | [] => .error .empty
  | ['+'] | ['-'] => .error .invalidDigit
  | '+' :: ds => readDigits radix false lo hi 0 ds
  | '-' :: ds =>
    if lo < 0 then readDigits radix true lo hi 0 ds
    else readDigits radix false lo hi 0 ('-' :: ds)
  | ds => readDigits radix false lo hi 0 ds

end Decimal

end Seaway
