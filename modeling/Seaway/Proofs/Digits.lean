import Mathlib
import Seaway.Decimal.Read
import Seaway.Decimal.Integer

/-!
# Reading back the digits of a number

The text of a natural number is a run of decimal digits whose value, read from the left, is
the number (`Nat.ofDigitChars_ten_toDigits`). Both readers of numbers walk such runs:

* `digitRun_append`: `digitRun` takes the whole run at the front of a text, up to a
  character that is not a digit;
* `readDigits_signed`: `readDigits` accumulates a run with a sign; every prefix of a run is
  worth at most the whole run, so a run whose value and start lie in the bounds is read
  without a range refusal;
* `readInteger_toString`: the text of every integer of `[lo, hi]` reads back to it, and it
  never starts with the `0x` of a hexadecimal field (`startsWith_toString`);
* `read?_literal`: digits, an optional point with more digits, and an optional exponent
  read as a literal of all those digits, as many fraction digits as follow the point, and
  that exponent.
-/

namespace Seaway

namespace Decimal

/-- Every character is a decimal digit. -/
def AllDigits (cs : List Char) : Prop := ∀ c ∈ cs, c.isDigit = true

/-- A text that does not start with a digit, so that a run of digits stops before it. -/
def NoDigitHead (cs : List Char) : Prop := ∀ c ∈ cs.head?, c.isDigit = false

theorem allDigits_toDigits (n : Nat) : AllDigits (Nat.toDigits 10 n) :=
  fun _ hc => Nat.isDigit_of_mem_toDigits (by decide) (by decide) hc

theorem allDigits_replicate_zero (n : Nat) : AllDigits (List.replicate n '0') := by
  intro c hc
  rw [(List.mem_replicate.1 hc).2]
  rfl

theorem AllDigits.append {l l' : List Char} (h : AllDigits l) (h' : AllDigits l') :
    AllDigits (l ++ l') := by
  intro c hc
  rcases List.mem_append.1 hc with hc | hc
  · exact h c hc
  · exact h' c hc

theorem AllDigits.take {l : List Char} (h : AllDigits l) (k : Nat) : AllDigits (l.take k) :=
  fun c hc => h c (List.mem_of_mem_take hc)

theorem AllDigits.drop {l : List Char} (h : AllDigits l) (k : Nat) : AllDigits (l.drop k) :=
  fun c hc => h c (List.mem_of_mem_drop hc)

theorem noDigitHead_nil : NoDigitHead [] := nofun

theorem noDigitHead_cons {c : Char} (h : c.isDigit = false) (cs : List Char) :
    NoDigitHead (c :: cs) := by
  intro d hd
  cases hd
  exact h

theorem isDigit_iff {c : Char} : c.isDigit = true ↔ 48 ≤ c.toNat ∧ c.toNat ≤ 57 := by
  simp only [Char.isDigit, Bool.and_eq_true, decide_eq_true_eq, UInt32.le_iff_toNat_le]
  rfl

/-- A digit is no sign. -/
theorem ne_sign_of_isDigit {c : Char} (hc : c.isDigit = true) : c ≠ '-' ∧ c ≠ '+' := by
  constructor <;> rintro rfl <;> exact absurd hc (by decide)

/-! ## Runs of digits -/

theorem digitRun_go_append {cs rest : List Char} (hcs : AllDigits cs) (hrest : NoDigitHead rest)
    (acc n : Nat) :
    digitRun.go (cs ++ rest) acc n = (Nat.ofDigitChars 10 cs acc, n + cs.length, rest) := by
  induction cs generalizing acc n with
  | nil =>
    cases rest with
    | nil => rfl
    | cons c r => simp [digitRun.go, hrest c rfl]
  | cons c cs ih =>
    rw [List.cons_append, digitRun.go, if_pos (hcs c List.mem_cons_self),
      ih (fun d hd => hcs d (List.mem_cons_of_mem _ hd)), Nat.ofDigitChars_cons, Nat.mul_comm]
    simp [Nat.add_assoc, Nat.add_comm 1]

/-- `digitRun` takes a whole run of digits and stops at the first character after it. -/
theorem digitRun_append {cs rest : List Char} (hcs : AllDigits cs) (hrest : NoDigitHead rest) :
    digitRun (cs ++ rest) = (Nat.ofDigitChars 10 cs 0, cs.length, rest) := by
  rw [digitRun, digitRun_go_append hcs hrest, Nat.zero_add]

/-- The value of digits followed by more digits: the first shifted by the second's length. -/
theorem ofDigitChars_append_zero (l l' : List Char) :
    Nat.ofDigitChars 10 (l ++ l') 0 = Nat.ofDigitChars 10 l 0 * 10 ^ l'.length +
      Nat.ofDigitChars 10 l' 0 := by
  rw [Nat.ofDigitChars_append, Nat.ofDigitChars_eq_ofDigitChars_zero, Nat.mul_comm]

/-! ## Accumulating with a sign -/

/-- A natural number with a sign. -/
def signed (neg : Bool) (v : Nat) : Int := if neg then -(v : Int) else v

@[simp] theorem signed_zero (neg : Bool) : signed neg 0 = 0 := by
  cases neg <;> rfl

/-- A value between two values that lie in `[lo, hi]` with the same sign lies there too. -/
theorem signed_between {neg : Bool} {lo hi : Int} {a b c : Nat} (hab : a ≤ b) (hbc : b ≤ c)
    (ha : lo ≤ signed neg a ∧ signed neg a ≤ hi) (hc : lo ≤ signed neg c ∧ signed neg c ≤ hi) :
    lo ≤ signed neg b ∧ signed neg b ≤ hi := by
  cases neg <;> simp only [signed, Bool.false_eq_true, if_true, if_false] at ha hc ⊢ <;> omega

theorem le_ofDigitChars (l : List Char) (init : Nat) : init ≤ Nat.ofDigitChars 10 l init := by
  rw [Nat.ofDigitChars_eq_ofDigitChars_zero]
  exact Nat.le_add_right_of_le (Nat.le_mul_of_pos_left _ (Nat.pow_pos (by norm_num)))

theorem digitValue_of_isDigit {c : Char} (h : c.isDigit = true) :
    digitValue 10 c = some (c.toNat - '0'.toNat) := by
  have h' := isDigit_iff.1 h
  simp only [Char.isDigit, Bool.and_eq_true, decide_eq_true_eq] at h
  rw [digitValue, if_pos ⟨h.1, h.2⟩, Option.bind_some, if_pos (by simp; omega)]

/-- `readDigits` reads a run of digits onto a signed start, as long as the start and the
whole run's value lie in the bounds: every prefix's value lies between them. -/
theorem readDigits_signed (neg : Bool) {lo hi : Int} {cs : List Char} (hcs : AllDigits cs)
    {v : Nat} (hv : lo ≤ signed neg v ∧ signed neg v ≤ hi)
    (hV : lo ≤ signed neg (Nat.ofDigitChars 10 cs v) ∧
      signed neg (Nat.ofDigitChars 10 cs v) ≤ hi) :
    readDigits 10 neg lo hi (signed neg v) cs = .ok (signed neg (Nat.ofDigitChars 10 cs v)) := by
  induction cs generalizing v with
  | nil => rfl
  | cons c cs ih =>
    have hc := hcs c List.mem_cons_self
    rw [Nat.ofDigitChars_cons] at hV ⊢
    -- the prefix read so far, one digit longer
    set v' := 10 * v + (c.toNat - '0'.toNat)
    have hacc : (if neg then signed neg v * ((10 : Nat) : Int) - ((c.toNat - '0'.toNat : Nat) : Int)
        else signed neg v * ((10 : Nat) : Int) + ((c.toNat - '0'.toNat : Nat) : Int)) =
        signed neg v' := by
      cases neg <;> simp only [signed, v'] <;> push_cast <;> ring
    have hv' := signed_between (by omega) (le_ofDigitChars cs v') hv hV
    rw [readDigits, digitValue_of_isDigit hc]
    dsimp only
    rw [hacc, if_neg (by omega), if_neg (by omega)]
    exact ih (fun d hd => hcs d (List.mem_cons_of_mem _ hd)) hv' hV

/-! ## Integers -/

theorem toString_toList_of_nonneg {n : Int} (hn : 0 ≤ n) :
    (toString n).toList = Nat.toDigits 10 n.toNat := by
  rw [Int.toString_eq_repr, Int.repr_eq_if, if_pos hn, Nat.toList_repr]

theorem toString_toList_of_neg {n : Int} (hn : n < 0) :
    (toString n).toList = '-' :: Nat.toDigits 10 (-n).toNat := by
  rw [Int.toString_eq_repr, Int.repr_eq_if, if_neg (by omega), String.toList_append,
    Nat.toList_repr]
  rfl

theorem toString_natCast (n : Nat) : toString (n : Int) = toString n := by
  rw [Int.toString_eq_repr, Int.repr_eq_if, if_pos (Int.natCast_nonneg n), Int.toNat_natCast]
  rfl

theorem isDigit_of_toDigits_eq_cons {n : Nat} {c : Char} {cs : List Char}
    (h : Nat.toDigits 10 n = c :: cs) : c.isDigit = true :=
  allDigits_toDigits n c (by rw [h]; exact List.mem_cons_self)

theorem toDigits_eq_cons (n : Nat) :
    ∃ c cs, Nat.toDigits 10 n = c :: cs ∧ c.isDigit = true := by
  obtain ⟨c, cs, h⟩ := List.exists_cons_of_ne_nil (Nat.toDigits_ne_nil (n := n) (b := 10))
  exact ⟨c, cs, h, isDigit_of_toDigits_eq_cons h⟩

/-- The text of an integer of `[lo, hi]`, for bounds around zero, reads back to it. -/
theorem readInteger_toString {lo hi n : Int} (hlo : lo ≤ 0) (hhi : 0 ≤ hi) (hn : lo ≤ n)
    (hn' : n ≤ hi) : readInteger 10 lo hi (toString n) = .ok n := by
  by_cases h₀ : 0 ≤ n
  · -- a run of digits, which `readInteger` reads as a positive number
    have hread : readDigits 10 false lo hi (signed false 0) (Nat.toDigits 10 n.toNat) =
        .ok (signed false (Nat.ofDigitChars 10 (Nat.toDigits 10 n.toNat) 0)) :=
      readDigits_signed false (allDigits_toDigits n.toNat) (by simp; omega)
        (by simp [signed]; omega)
    obtain ⟨c, cs, hcs, hc⟩ := toDigits_eq_cons n.toNat
    rw [signed_zero, Nat.ofDigitChars_ten_toDigits, signed, if_neg Bool.false_ne_true,
      Int.toNat_of_nonneg h₀, hcs] at hread
    unfold readInteger
    rw [toString_toList_of_nonneg h₀, hcs]
    split <;> simp_all
  · -- a minus sign and a run of digits, read as a negative number
    have hread : readDigits 10 true lo hi (signed true 0) (Nat.toDigits 10 (-n).toNat) =
        .ok (signed true (Nat.ofDigitChars 10 (Nat.toDigits 10 (-n).toNat) 0)) :=
      readDigits_signed true (allDigits_toDigits (-n).toNat) (by simp; omega)
        (by simp [signed]; omega)
    rw [signed_zero, Nat.ofDigitChars_ten_toDigits, signed, if_pos rfl,
      Int.toNat_of_nonneg (by omega), neg_neg] at hread
    have hlo' : lo < 0 := by omega
    unfold readInteger
    rw [toString_toList_of_neg (by omega)]
    split <;> simp_all

/-- The text of an integer never starts with `0x`: a digit run holds no `x`, and a
negative number starts with its sign. -/
theorem startsWith_toString (n : Int) : (toString n).startsWith "0x" = false := by
  rw [String.startsWith_string_eq_false_iff]
  rintro ⟨t, ht⟩
  have hx : "0x".toList = ['0', 'x'] := rfl
  rw [hx] at ht
  by_cases h₀ : 0 ≤ n
  · rw [toString_toList_of_nonneg h₀] at ht
    have := allDigits_toDigits n.toNat 'x' (by rw [← ht]; simp)
    exact absurd this (by decide)
  · rw [toString_toList_of_neg (by omega)] at ht
    exact absurd (List.cons.inj ht).1 (by decide)

/-! ## Literals -/

/-- The text of an exponent: nothing, for the exponent zero, or `e` and the exponent. -/
def ExponentText (x : Int) (X : List Char) : Prop :=
  X = [] ∧ x = 0 ∨ X = 'e' :: (toString x).toList

theorem ExponentText.noDigitHead {x : Int} {X : List Char} (h : ExponentText x X) :
    NoDigitHead X := by
  rcases h with ⟨rfl, -⟩ | rfl
  · exact noDigitHead_nil
  · exact noDigitHead_cons rfl _

/-- The fraction of a literal: a point and its digits, or nothing. -/
def FractionText (F P : List Char) : Prop := P = [] ∧ F = [] ∨ P = '.' :: F

/-- Digits, a fraction and an exponent read as one literal: the value of all the digits,
the fraction's length, and the exponent. -/
theorem read?_literal {W F P X : List Char} {x : Int} (hW : AllDigits W) (hF : AllDigits F)
    (hP : FractionText F P) (hX : ExponentText x X) (hne : W ++ F ≠ []) :
    Literal.read? (W ++ P ++ X) = some ⟨Nat.ofDigitChars 10 (W ++ F) 0, F.length, x⟩ := by
  have hlen : W.length + F.length ≠ 0 := by simpa using hne
  have hsig : Nat.ofDigitChars 10 W 0 * Nat.pow 10 F.length + Nat.ofDigitChars 10 F 0 =
      Nat.ofDigitChars 10 (W ++ F) 0 := by
    rw [ofDigitChars_append_zero, Nat.pow_eq]
  -- the whole part stops at the point, the exponent or the end
  have hrest : NoDigitHead (P ++ X) := by
    rcases hP with ⟨rfl, -⟩ | rfl
    · exact hX.noDigitHead
    · exact noDigitHead_cons rfl _
  unfold Literal.read?
  rw [List.append_assoc, digitRun_append hW hrest]
  rcases hX with ⟨rfl, rfl⟩ | rfl
  · -- no exponent: the fraction is `F` after a point, or nothing
    rcases hP with ⟨rfl, rfl⟩ | rfl
    · simp only [List.append_nil, List.length_nil, Nat.ofDigitChars_nil] at hsig hlen ⊢
      rw [if_neg hlen, hsig]
    · simp only [List.append_nil]
      rw [← List.append_nil F, digitRun_append hF noDigitHead_nil]
      simp only [List.append_nil] at hsig hlen ⊢
      rw [if_neg hlen, hsig]
  · -- an exponent after the fraction
    rcases hP with ⟨rfl, rfl⟩ | rfl
    case' inl =>
      simp only [List.nil_append, List.length_nil, Nat.ofDigitChars_nil, List.append_nil,
        List.cons.injEq, Char.reduceEq, false_and, imp_self, implies_true] at hsig hlen ⊢
      rw [if_neg hlen, hsig]
    case' inr =>
      simp only [List.cons_append]
      rw [digitRun_append hF (noDigitHead_cons rfl _)]
      simp only
      rw [if_neg hlen, hsig]
    -- the exponent's sign, then its digits to the end
    all_goals
      rw [if_pos (.inl trivial)]
      by_cases hx : x < 0
      · rw [toString_toList_of_neg hx]
        simp only
        rw [← List.append_nil (Nat.toDigits 10 _), digitRun_append (allDigits_toDigits _)
          noDigitHead_nil]
        simp
        omega
      · obtain ⟨c, cs, hcs, hc⟩ := toDigits_eq_cons x.toNat
        obtain ⟨h₁, h₂⟩ := ne_sign_of_isDigit hc
        rw [toString_toList_of_nonneg (by omega), hcs]
        simp only [List.cons.injEq, h₁, h₂, false_and, imp_self, implies_true]
        rw [← hcs, ← List.append_nil (Nat.toDigits 10 _), digitRun_append (allDigits_toDigits _)
          noDigitHead_nil]
        simp
        omega

end Decimal

end Seaway
