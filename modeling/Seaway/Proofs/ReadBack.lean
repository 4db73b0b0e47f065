import Mathlib
import Seaway.Proofs.Digits
import Seaway.Proofs.Shortest
import Seaway.Decimal.Format

/-!
# Every double reads back from its shortest spelling

`Decimal.readFloat? (Decimal.render s x) = some x` for every double `x` and every layout
style `s` (`readFloat_render`). The pieces:

* `layout_isLiteral`: every layout of a decimal is a literal, digits with an optional point
  and fraction and an optional exponent, of the decimal's value;
* `read?_of_isLiteral`: such a text reads as that literal;
* `toFloat_eq_ofRatio`: a literal whose value lies between `10 ^ (-331)` and `10 ^ 310`
  passes the reader's range cutoffs and becomes the double nearest to its value, as a ratio
  of naturals;
* `contains_bounds`: the neighbourhood of every positive double lies in that range, so the
  shortest decimal, which lies in it (`shortest_contains`), reads back to the double
  (`roundRatioBits_eq`).

NaN and the infinities are spelled as words that the reader recognizes; a double's sign is
spelled as a leading `-`, which the reader takes before the literal.
-/

namespace Seaway

namespace Decimal

/-- The value of a literal. -/
def Literal.value (l : Literal) : ℚ := l.significand * 10 ^ (l.exponent - l.fractionDigits)

/-- A text spells a literal: at least one digit, a fraction after an optional point, and an
optional exponent, with the literal's digits, fraction length and exponent. -/
def IsLiteral (t : List Char) (l : Literal) : Prop :=
  ∃ W F P X, t = W ++ P ++ X ∧ AllDigits W ∧ W ≠ [] ∧ AllDigits F ∧ FractionText F P ∧
    ExponentText l.exponent X ∧ l.significand = Nat.ofDigitChars 10 (W ++ F) 0 ∧
    l.fractionDigits = F.length

theorem Literal.value_eq_zero_iff (l : Literal) : l.value = 0 ↔ l.significand = 0 := by
  rw [Literal.value, mul_eq_zero, Nat.cast_eq_zero, or_iff_left (zpow_ne_zero _ (by norm_num))]

theorem read?_of_isLiteral {t : List Char} {l : Literal} (h : IsLiteral t l) :
    Literal.read? t = some l := by
  obtain ⟨W, F, P, X, rfl, hW, hW', hF, hP, hX, hsig, hfrac⟩ := h
  rw [read?_literal hW hF hP hX (by simp [hW']), ← hsig, ← hfrac]

theorem IsLiteral.head {t : List Char} {l : Literal} (h : IsLiteral t l) :
    ∃ c cs, t = c :: cs ∧ c.isDigit = true := by
  obtain ⟨W, F, P, X, rfl, hW, hW', -⟩ := h
  obtain ⟨c, cs, rfl⟩ := List.exists_cons_of_ne_nil hW'
  exact ⟨c, cs ++ P ++ X, by simp, hW c List.mem_cons_self⟩

/-! ## Layouts are literals

Each branch of `layout` is a literal of the decimal's value; `layout_isLiteral` collects
them. Below, `D` is the digit text of the significand and `p` the point position.
-/

section Layout

variable (s : Style) (d : Decimal)

theorem toString_toList_digits : (toString d.digits).toList = Nat.toDigits 10 d.digits := by
  rw [Nat.toString_eq_repr, Nat.toList_repr]

theorem length_toString_digits :
    (toString d.digits).length = (Nat.toDigits 10 d.digits).length := by
  rw [← String.length_toList, toString_toList_digits]

theorem zeros_toList (k : Nat) : (zeros k).toList = List.replicate k '0' := by
  rw [zeros, String.toList_ofList]

theorem ofDigitChars_zeros_append (k : Nat) (l : List Char) :
    Nat.ofDigitChars 10 (List.replicate k '0' ++ l) 0 = Nat.ofDigitChars 10 l 0 := by
  rw [Nat.ofDigitChars_append, Nat.ofDigitChars_replicate_zero, Nat.mul_zero]

theorem ofDigitChars_append_zeros (l : List Char) (k : Nat) :
    Nat.ofDigitChars 10 (l ++ List.replicate k '0') 0 = Nat.ofDigitChars 10 l 0 * 10 ^ k := by
  rw [ofDigitChars_append_zero, Nat.ofDigitChars_replicate_zero, List.length_replicate,
    Nat.mul_zero, Nat.add_zero]

/-- Positional, without a fractional part: `D`, `exp` zeros, and `.0` if the style asks. -/
theorem layout_integral (hs : s.positional ((toString d.digits).length + d.exp) = true)
    (he : 0 ≤ d.exp) : ∃ l, IsLiteral (layout s d).toList l ∧ l.value = d.value := by
  have hexp : (10 : ℚ) ^ d.exp = 10 ^ d.exp.toNat := by
    rw [← zpow_natCast, Int.toNat_of_nonneg he]
  set W := Nat.toDigits 10 d.digits ++ List.replicate d.exp.toNat '0'
  have hW : AllDigits W := (allDigits_toDigits _).append (allDigits_replicate_zero _)
  have hW' : W ≠ [] := List.append_ne_nil_of_left_ne_nil Nat.toDigits_ne_nil _
  have hval : Nat.ofDigitChars 10 W 0 = d.digits * 10 ^ d.exp.toNat := by
    rw [ofDigitChars_append_zeros, Nat.ofDigitChars_ten_toDigits]
  have hlayout : (layout s d).toList =
      W ++ (if s.pointZero then ['.', '0'] else []) ++ [] := by
    unfold layout
    dsimp only
    rw [if_pos hs, if_pos he, String.toList_append, String.toList_append, toString_toList_digits,
      zeros_toList, List.append_nil]
    cases s.pointZero <;> simp [W]
  rw [hlayout]
  cases s.pointZero
  · refine ⟨⟨Nat.ofDigitChars 10 W 0, 0, 0⟩,
      ⟨W, [], [], [], by simp, hW, hW', nofun, .inl ⟨rfl, rfl⟩, .inl ⟨rfl, rfl⟩, by simp, rfl⟩, ?_⟩
    simp only [Literal.value, Decimal.value, hval, hexp]
    push_cast
    simp
  · have h₀ : Nat.ofDigitChars 10 ['0'] 0 = 0 := rfl
    refine ⟨⟨Nat.ofDigitChars 10 (W ++ ['0']) 0, 1, 0⟩,
      ⟨W, ['0'], ['.', '0'], [], by simp, hW, hW', by simp [AllDigits], .inr rfl,
        .inl ⟨rfl, rfl⟩, rfl, rfl⟩, ?_⟩
    simp only [Literal.value, Decimal.value, ofDigitChars_append_zero, hval, hexp, h₀,
      List.length_singleton, pow_one]
    push_cast
    field_simp
    ring

/-- Positional, with the point inside `D`. -/
theorem layout_inside (hs : s.positional ((toString d.digits).length + d.exp) = true)
    (he : d.exp < 0) (hp : 0 < (toString d.digits).length + d.exp) :
    ∃ l, IsLiteral (layout s d).toList l ∧ l.value = d.value := by
  rw [length_toString_digits] at hs hp
  have hlayout : (layout s d).toList =
      (Nat.toDigits 10 d.digits).take (((Nat.toDigits 10 d.digits).length : Int) + d.exp).toNat ++
        '.' :: (Nat.toDigits 10 d.digits).drop
          (((Nat.toDigits 10 d.digits).length : Int) + d.exp).toNat ++ [] := by
    unfold layout
    dsimp only
    rw [length_toString_digits, if_pos hs, if_neg (by omega), if_pos hp]
    simp
  set D := Nat.toDigits 10 d.digits
  set k := ((D.length : Int) + d.exp).toNat
  have hk : k < D.length := by omega
  rw [hlayout]
  refine ⟨⟨d.digits, D.length - k, 0⟩,
    ⟨D.take k, D.drop k, '.' :: D.drop k, [], rfl, (allDigits_toDigits _).take k,
      by simp [D]; omega, (allDigits_toDigits _).drop k, .inr rfl, .inl ⟨rfl, rfl⟩,
      by rw [List.take_append_drop, Nat.ofDigitChars_ten_toDigits], by simp⟩, ?_⟩
  simp only [Literal.value, Decimal.value]
  congr 2
  push_cast [Nat.cast_sub hk.le]
  omega

/-- Positional, with the point before `D` and zeros after the point. -/
theorem layout_below_one (hs : s.positional ((toString d.digits).length + d.exp) = true)
    (he : d.exp < 0) (hp : (toString d.digits).length + d.exp ≤ 0) :
    ∃ l, IsLiteral (layout s d).toList l ∧ l.value = d.value := by
  rw [length_toString_digits] at hs hp
  have hlayout : (layout s d).toList = ['0'] ++ '.' :: (List.replicate
      (-(((Nat.toDigits 10 d.digits).length : Int) + d.exp)).toNat '0' ++
        Nat.toDigits 10 d.digits) ++ [] := by
    unfold layout
    dsimp only
    rw [length_toString_digits, if_pos hs, if_neg (by omega), if_neg (by omega)]
    simp [zeros_toList]
  set D := Nat.toDigits 10 d.digits
  set k := (-((D.length : Int) + d.exp)).toNat
  rw [hlayout]
  refine ⟨⟨d.digits, k + D.length, 0⟩,
    ⟨['0'], List.replicate k '0' ++ D, '.' :: (List.replicate k '0' ++ D), [], rfl,
      by simp [AllDigits], by simp, (allDigits_replicate_zero k).append (allDigits_toDigits _),
      .inr rfl, .inl ⟨rfl, rfl⟩, ?_, by simp⟩, ?_⟩
  · show d.digits = Nat.ofDigitChars 10 ('0' :: (List.replicate k '0' ++ D)) 0
    rw [← List.cons_append, ← List.replicate_succ, ofDigitChars_zeros_append,
      Nat.ofDigitChars_ten_toDigits]
  · simp only [Literal.value, Decimal.value]
    congr 2
    push_cast
    omega

/-- The exponent form: the first digit of `D`, the others after a point, and `e p - 1`. -/
theorem layout_scientific (hs : s.positional ((toString d.digits).length + d.exp) = false) :
    ∃ l, IsLiteral (layout s d).toList l ∧ l.value = d.value := by
  have hempty : ∀ l : List Char, (String.ofList l).isEmpty = l.isEmpty := fun l => by
    rw [Bool.eq_iff_iff, String.isEmpty_iff, List.isEmpty_iff, ← String.toList_eq_nil_iff,
      String.toList_ofList]
  have hlayout : (layout s d).toList = (Nat.toDigits 10 d.digits).take 1 ++
      (if ((Nat.toDigits 10 d.digits).drop 1).isEmpty then [] else
        '.' :: (Nat.toDigits 10 d.digits).drop 1) ++
      'e' :: (toString (((Nat.toDigits 10 d.digits).length : Int) + d.exp - 1)).toList := by
    unfold layout
    dsimp only
    rw [if_neg (by rw [hs]; exact Bool.false_ne_true), toString_toList_digits, hempty,
      length_toString_digits]
    split <;> simp
  set D := Nat.toDigits 10 d.digits
  have hn : 1 ≤ D.length := List.length_pos_of_ne_nil Nat.toDigits_ne_nil
  rw [hlayout]
  refine ⟨⟨d.digits, D.length - 1, D.length + d.exp - 1⟩,
    ⟨D.take 1, D.drop 1, _, _, rfl, (allDigits_toDigits _).take 1, by simp [D],
      (allDigits_toDigits _).drop 1, ?_, .inr rfl,
      by rw [List.take_append_drop, Nat.ofDigitChars_ten_toDigits], by simp⟩, ?_⟩
  · by_cases h : (D.drop 1).isEmpty
    · rw [if_pos h]
      exact .inl ⟨rfl, List.isEmpty_iff.1 h⟩
    · rw [if_neg h]
      exact .inr rfl
  · simp only [Literal.value, Decimal.value]
    congr 2
    push_cast [Nat.cast_sub hn]
    ring

end Layout

/-- Every layout of a decimal is a literal of the decimal's value. -/
theorem layout_isLiteral (s : Style) (d : Decimal) :
    ∃ l, IsLiteral (layout s d).toList l ∧ l.value = d.value := by
  cases hs : s.positional ((toString d.digits).length + d.exp)
  · exact layout_scientific s d hs
  · by_cases he : 0 ≤ d.exp
    · exact layout_integral s d hs he
    · by_cases hp : 0 < (toString d.digits).length + d.exp
      · exact layout_inside s d hs (by omega) hp
      · exact layout_below_one s d hs (by omega) (by omega)

/-! ## The reader's words and signs -/

theorem toLower_of_isDigit {c : Char} (h : c.isDigit = true) : c.toLower = c := by
  have h' := isDigit_iff.1 h
  unfold Char.toLower
  rw [dif_neg]
  intro h₁
  have h₂ : 65 ≤ c.toNat := by simpa [UInt32.le_iff_toNat_le] using h₁.1
  omega

/-- A text starting with a digit, in lower case, is none of the reader's words. -/
theorem lower_ne_word {c : Char} {cs : List Char} (hc : c.isDigit = true) {w : String} {a : Char}
    {as : List Char} (hw : w.toList = a :: as) (ha : a.isDigit = false) :
    String.ofList ((c :: cs).map Char.toLower) ≠ w := by
  intro h
  have h' := congrArg String.toList h
  rw [String.toList_ofList, hw, List.map_cons, toLower_of_isDigit hc] at h'
  rw [← (List.cons.inj h').1, hc] at ha
  cases ha

/-- A literal after an optional minus sign reads as that literal with the sign. -/
theorem readFloat?_signed {t : String} {l : Literal} (ht : IsLiteral t.toList l) (neg : Bool) :
    readFloat? ((if neg then "-" else "") ++ t) = some (l.toFloat neg) := by
  obtain ⟨c, cs, hcs, hc⟩ := ht.head
  have hread := read?_of_isLiteral ht
  rw [hcs] at hread
  have hinf : String.ofList ((c :: cs).map Char.toLower) ≠ "inf" := lower_ne_word hc rfl rfl
  have hinfinity : String.ofList ((c :: cs).map Char.toLower) ≠ "infinity" :=
    lower_ne_word hc rfl rfl
  have hnan : String.ofList ((c :: cs).map Char.toLower) ≠ "nan" := lower_ne_word hc rfl rfl
  unfold readFloat?
  cases neg
  · obtain ⟨h₁, h₂⟩ := ne_sign_of_isDigit hc
    simp only [Bool.false_eq_true, if_false, String.toList_append, String.toList_empty,
      List.nil_append, hcs, List.cons.injEq, h₁, h₂, false_and, imp_self, implies_true]
    rw [if_neg (by rintro (h | h) <;> contradiction), if_neg hnan, hread, Option.map_some]
  · simp only [if_true, String.toList_append, hcs]
    rw [show "-".toList = ['-'] from rfl, List.singleton_append]
    simp only
    rw [if_neg (by rintro (h | h) <;> contradiction), if_neg hnan, hread, Option.map_some]

/-! ## Reading a literal as a double -/

/-- A literal of positive significand whose value lies between `10 ^ (-331)` and `10 ^ 310`
passes the reader's cutoffs and is read as the double nearest to its value. -/
theorem Literal.toFloat_eq_ofRatio {l : Literal} (neg : Bool) (hs : 0 < l.significand)
    (hlo : (10 : ℚ) ^ (-331 : Int) ≤ l.value) (hhi : l.value < 10 ^ (310 : Int)) :
    ∃ n d : Nat, 0 < n ∧ 0 < d ∧ (n : ℚ) / d = l.value ∧
      l.toFloat neg = Binary64.ofRatio neg n d := by
  obtain ⟨hk, h₁, h₂⟩ := digitCount_spec l.significand
  rw [max_eq_left (by omega)] at h₁
  set e := l.exponent - l.fractionDigits
  set k := digitCount l.significand
  have h10 : (0 : ℚ) < 10 ^ e := zpow_pos (by norm_num) e
  -- the value lies in `[10 ^ (e + k - 1), 10 ^ (e + k))`
  have hlow : (10 : ℚ) ^ (e + k - 1) ≤ l.value := by
    rw [show e + k - 1 = e + ((k - 1 : Nat) : Int) by omega, zpow_add₀ (by norm_num),
      zpow_natCast, Literal.value, mul_comm]
    exact mul_le_mul_of_nonneg_right (by exact_mod_cast h₁) h10.le
  have hup : l.value < 10 ^ (e + k) := by
    rw [zpow_add₀ (by norm_num), zpow_natCast, Literal.value, mul_comm]
    exact mul_lt_mul_of_pos_left (by exact_mod_cast h₂) h10
  have hmag₁ : ¬310 < e + k := fun h =>
    absurd (hhi.trans_le ((zpow_le_zpow_right₀ (by norm_num) (by omega)).trans hlow)) (lt_irrefl _)
  have hmag₂ : ¬e + k < -330 := fun h =>
    absurd (hlo.trans_lt (hup.trans_le (zpow_le_zpow_right₀ (by norm_num) (by omega))))
      (lt_irrefl _)
  unfold Literal.toFloat
  rw [if_neg hs.ne']
  dsimp only
  rw [if_neg hmag₁, if_neg hmag₂]
  split
  · rename_i he
    refine ⟨l.significand * Nat.pow 10 e.toNat, 1, Nat.mul_pos hs (Nat.pow_pos (by norm_num)),
      Nat.one_pos, ?_, rfl⟩
    rw [Literal.value, ← Int.toNat_of_nonneg he, zpow_natCast]
    push_cast [Nat.pow_eq]
    ring
  · rename_i he
    refine ⟨l.significand, Nat.pow 10 (-e).toNat, hs, Nat.pow_pos (by norm_num), ?_, rfl⟩
    have he' : l.exponent - (l.fractionDigits : Int) = -(((-e).toNat : Nat) : Int) := by omega
    rw [Literal.value, he', zpow_neg, zpow_natCast]
    push_cast [Nat.pow_eq]
    ring

/-- The neighbourhood of a positive double lies between `10 ^ (-331)` and `10 ^ 310`: it is
within half a unit of `m · 2 ^ e`, with `1 ≤ m < 2 ^ 53` and `-1074 ≤ e ≤ 971`. -/
theorem contains_bounds {m : Nat} {e : Int} (hc : Binary64.Canonical m e) (hm : 0 < m) {x : ℚ}
    (h : (Neighbourhood.ofBinary m e).Contains x) :
    (10 : ℚ) ^ (-331 : Int) ≤ x ∧ x < 10 ^ (310 : Int) := by
  obtain ⟨h₁, h₂, -, -⟩ := Neighbourhood.ofBinary_contains hm h
  have h2 : (0 : ℚ) < 2 ^ e := zpow_pos (by norm_num) e
  have hm₁ : (1 : ℚ) ≤ m := by exact_mod_cast hm
  have hm₂ : (m : ℚ) + 1 / 2 ≤ 2 ^ 53 := by
    have : m + 1 ≤ 2 ^ 53 := hc.mantissa_lt
    have : (m : ℚ) + 1 ≤ 2 ^ 53 := by exact_mod_cast this
    linarith
  have he₁ : (2 : ℚ) ^ (-1074 : Int) ≤ 2 ^ e := zpow_le_zpow_right₀ (by norm_num) hc.exponent_ge
  have he₂ : (2 : ℚ) ^ e ≤ 2 ^ (971 : Int) := zpow_le_zpow_right₀ (by norm_num) hc.exponent_le
  rw [le_div_iff₀ h2] at h₁
  rw [div_le_iff₀ h2] at h₂
  -- the powers compared as naturals, too large for `norm_num`
  have hlow : ((2 : ℕ) ^ 1075 : ℚ) ≤ ((10 : ℕ) ^ 331 : ℚ) := by
    exact_mod_cast (show (2 : ℕ) ^ 1075 ≤ 10 ^ 331 by decide +kernel)
  have hhigh : ((2 : ℕ) ^ 1024 : ℚ) < ((10 : ℕ) ^ 310 : ℚ) := by
    exact_mod_cast (show (2 : ℕ) ^ 1024 < 10 ^ 310 by decide +kernel)
  constructor
  · calc (10 : ℚ) ^ (-331 : Int) = 1 / 10 ^ 331 := by rw [zpow_neg, zpow_ofNat, one_div]
      _ ≤ 1 / 2 ^ 1075 := one_div_le_one_div_of_le (by positivity) (by exact_mod_cast hlow)
      _ = 1 / 2 * 2 ^ (-1074 : Int) := by rw [zpow_neg, zpow_ofNat, pow_succ]; field_simp
      _ ≤ (m - 1 / 2) * 2 ^ e := mul_le_mul (by linarith) he₁ (by positivity) (by linarith)
      _ ≤ x := h₁
  · calc x ≤ (m + 1 / 2) * 2 ^ e := h₂
      _ ≤ 2 ^ 53 * 2 ^ (971 : Int) := mul_le_mul hm₂ he₂ h2.le (by positivity)
      _ = 2 ^ 1024 := by rw [zpow_ofNat, ← pow_add]
      _ < 10 ^ (310 : Int) := by rw [zpow_ofNat]; exact_mod_cast hhigh

/-! ## The round trip -/

/-- Every double reads back from its spelling in every layout style: NaN and the infinities
from their words, a zero from its digits, and a positive magnitude from the shortest decimal
in its neighbourhood, which rounds back to it. -/
theorem readFloat_render (s : Style) (x : Float) : readFloat? (render s x) = some x := by
  rcases hx : Binary64.ofFloat x with _ | neg | ⟨neg, m, e⟩
  · rw [render, hx, Binary64.eq_nan_of_ofFloat hx]
    dsimp only
    rfl
  · rw [render, hx, Binary64.eq_inf_of_ofFloat hx]
    dsimp only
    cases neg <;> rfl
  · obtain ⟨hc, -⟩ := Binary64.toBits_of_ofFloat hx
    rw [render, hx]
    dsimp only
    set d : Decimal := if m = 0 then ⟨0, 0⟩ else shortest s.evenTie m e
    obtain ⟨l, hl, hv⟩ := layout_isLiteral s d
    rw [readFloat?_signed hl]
    congr 1
    by_cases hm : m = 0
    · -- zero: the literal's digits are zeros, read as the zero of the sign
      have hd : d = ⟨0, 0⟩ := if_pos hm
      have hsig : l.significand = 0 := by
        rw [← Literal.value_eq_zero_iff, hv, hd]
        simp [Decimal.value]
      have he : e = -1074 := hc.normal.resolve_left (by omega)
      unfold Literal.toFloat
      rw [if_pos hsig]
      exact Binary64.ofRatio_eq_of_bits hx (by simp [Binary64.magnitudeBits, hm, he])
    · -- a positive magnitude: the shortest decimal lies in the neighbourhood
      have hd : d = shortest s.evenTie m e := if_neg hm
      obtain ⟨hpos, hcont⟩ := shortest_contains hc (Nat.pos_of_ne_zero hm) s.evenTie
      rw [← hd, ← hv] at hcont
      rw [← hd] at hpos
      obtain ⟨hlo, hhi⟩ := contains_bounds hc (Nat.pos_of_ne_zero hm) hcont
      have hs : 0 < l.significand := by
        refine Nat.pos_of_ne_zero fun h => ?_
        rw [← Literal.value_eq_zero_iff, hv, Decimal.value] at h
        exact mul_ne_zero (by exact_mod_cast hpos.ne') (zpow_ne_zero _ (by norm_num)) h
      obtain ⟨n, q, hn, hq, hratio, hf⟩ := l.toFloat_eq_ofRatio neg hs hlo hhi
      rw [hf]
      refine Binary64.ofRatio_eq_of_bits hx ?_
      rw [if_neg (by omega)]
      exact Binary64.roundRatioBits_eq hc (Nat.pos_of_ne_zero hm) hn hq (by rwa [hratio])

end Decimal

end Seaway
