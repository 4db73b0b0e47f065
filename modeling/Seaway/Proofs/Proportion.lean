import Mathlib
import Seaway.Proofs.Shortest
import Seaway.Proofs.Between

/-!
# Proportions of integers below `2 ^ 53`

Resampling weighs a time `g` between `ta` and `tb` by `(g - ta) / (tb - ta)`, with the three
times converted to doubles first. For integers below `2 ^ 53` in magnitude nothing is lost
before the division, and the division rounds a proportion below one to a double below one:

* `Binary64.unpack_magnitudeBits`: the model reads the pattern that `Binary64.roundRatioBits`
  writes for a canonical significand and exponent as that finite double;
* `Binary64.ofInt_exact`: an integer below `2 ^ 53` in magnitude converts exactly, since the
  neighbourhood of its double contains it (`Decimal.Neighbourhood.contains_center`);
* `Real64.value_sub_of_int`: the difference of two integral doubles less than `2 ^ 53` apart
  is exact;
* `Real64.roundWithAccuracy_below_one`: a value of at most `1 - 2 ^ -53`, cut with 53 bits,
  rounds below one; `Real64.div_below_one` and `Real64.div_mem_unit` apply it to a quotient,
  which then is a double in `[0, 1)`. Closer to one a quotient may round up to one itself.
-/

namespace Seaway

namespace Decimal.Neighbourhood

/-- The neighbourhood of a double contains the double itself. -/
theorem contains_center {m : Nat} (hm : 0 < m) (e : Int) : (ofBinary m e).Contains (m * 2 ^ e) := by
  obtain ⟨g, hlow, hhigh, hg, -⟩ := ofBinary_ends hm e
  have h2 : (0 : ℚ) < 2 ^ (e - 2) := zpow_pos (by norm_num) _
  have hg0 : 0 < g := by rcases hg with rfl | ⟨rfl, -⟩ <;> norm_num
  have hx : (m : ℚ) * 2 ^ e = 4 * m * 2 ^ (e - 2) := by
    rw [zpow_sub₀ two_ne_zero]
    ring
  apply contains_of_lt_of_lt
  · rw [ofBinary_unit, hlow, hx]
    exact mul_lt_mul_of_pos_right (by linarith) h2
  · rw [ofBinary_unit, hhigh, hx]
    exact mul_lt_mul_of_pos_right (by linarith) h2

end Decimal.Neighbourhood

namespace Binary64

open Float.Model UnpackedFloat

/-! ## Reading a finite pattern -/

/-- The model reads the pattern of a canonical significand and exponent under a sign bit as
that finite double: a zero exponent field is the subnormal range, any other adds the implicit
bit. -/
theorem unpack_magnitudeBits {b : BitVec Format.binary64.numBits} (neg : Bool) {m : Nat} {e : Int}
    (hc : Canonical m e) (hm : 0 < m) (hb : b.toNat = signBits neg + magnitudeBits m e) :
    UnpackedFloat.unpack .binary64 b = .finite (if neg then .negative else .positive) m e hm := by
  have hE : (unpackExponent b).toNat = b.toNat / 2 ^ 52 % 2048 := by
    simp [unpackExponent, Nat.shiftRight_eq_div_pow]
  have hM : (unpackMantissa b).toNat = b.toNat % 2 ^ 52 := by
    simp [unpackMantissa]
  have hS : (unpackSign b).toNat = b.toNat / 2 ^ 63 % 2 := by
    simp [unpackSign, Nat.shiftRight_eq_div_pow]
  have hlt := hc.mantissa_lt
  have he₁ := hc.exponent_ge
  have he₂ := hc.exponent_le
  have hnorm := hc.normal
  unfold signBits magnitudeBits at hb
  have hsign : Sign.ofBitVec (unpackSign b) = if neg then .negative else .positive := by
    unfold Sign.ofBitVec
    cases neg
    · rw [if_pos (BitVec.eq_of_toNat_eq (by rw [hS, hb]; simp; omega))]
      rfl
    · rw [if_neg (fun h => by have := congrArg BitVec.toNat h; rw [hS, hb] at this; simp at this; omega)]
      rfl
  have hnan : unpackExponent b ≠ -1#_ := fun h => by
    have := congrArg BitVec.toNat h
    rw [hE, hb] at this
    cases neg <;> simp at this <;> omega
  unfold UnpackedFloat.unpack
  dsimp only
  rw [if_neg hnan, hsign]
  rcases Nat.lt_or_ge m (2 ^ 52) with hsub | hn
  · -- subnormal: the exponent field is zero and the significand is `m`
    have he : e = -1074 := hnorm.resolve_left (by omega)
    subst he
    have hz : unpackExponent b = 0#_ := BitVec.eq_of_toNat_eq (by
      rw [hE, hb]; cases neg <;> simp <;> omega)
    have hmant : (unpackMantissa b).toNat = m := by
      rw [hM, hb]; cases neg <;> simp <;> omega
    have hne : unpackMantissa b ≠ 0#_ := fun h => by
      have := congrArg BitVec.toNat h
      rw [hmant] at this
      simp at this
      omega
    rw [if_pos hz, dif_neg hne]
    congr 1
    rw [hz]
    rfl
  · -- normal: the exponent field is `e + 1075` and the significand drops its leading bit
    have hexp : (unpackExponent b).toNat = (e + 1075).toNat := by
      rw [hE, hb]; cases neg <;> simp <;> omega
    have hnz : unpackExponent b ≠ 0#_ := fun h => by
      have := congrArg BitVec.toNat h
      rw [hexp] at this
      simp at this
      omega
    have hmant : (unpackMantissa b).toNat = m - 2 ^ 52 := by
      rw [hM, hb]; cases neg <;> simp <;> omega
    rw [if_neg hnz]
    congr 1
    · have hlt' := (unpackMantissa b).isLt
      change _ < 2 ^ 52 at hlt'
      simp only [BitVec.toNat_append, Nat.shiftLeft_eq]
      change 2 ^ 52 ||| _ = _
      rw [Nat.or_comm, Nat.or_two_pow_eq_add_of_lt hlt', hmant]
      omega
    · rw [hexp]
      change ((e + 1075).toNat : Int) - (1023 + 52) = e
      omega

/-- A ratio whose magnitude pattern is that of a canonical significand and exponent is that
finite double. -/
theorem unpack_ofRatio (neg : Bool) {n d : Nat} {m : Nat} {e : Int} (hc : Canonical m e)
    (hm : 0 < m) (hmag : (if n = 0 ∨ d = 0 then 0 else roundRatioBits n d) = magnitudeBits m e) :
    (ofRatio neg n d).toModel.unpack = .finite (if neg then .negative else .positive) m e hm := by
  have hlt : magnitudeBits m e < 2047 * 2 ^ 52 := magnitudeBits_lt_infBits hc
  unfold ofRatio
  dsimp only
  rw [hmag]
  show (Float.Model.pack (UnpackedFloat.unpack .binary64 (UInt64.ofNat _).toBitVec)).unpack = _
  rw [unpack_magnitudeBits neg hc hm (by
    simp only [UInt64.toNat_toBitVec, UInt64.toNat_ofNat', signBits]
    cases neg <;> simp <;> omega)]
  rcases Nat.lt_or_ge m (2 ^ 52) with hsub | hn
  · rw [hc.normal.resolve_left (by omega)]
    exact Real64.unpack_pack_subnormal _ hm hsub
  · exact Real64.unpack_pack_normal _ hm hn hc.mantissa_lt hc.exponent_ge hc.exponent_le

/-! ## Integers below `2 ^ 53` -/

/-- A positive integer below `2 ^ 53` shifted to 53 bits: its canonical significand and exponent. -/
theorem canonical_nat {n : Nat} (hn : 0 < n) (hlt : n < 2 ^ 53) :
    Canonical (n <<< (52 - n.log2)) ((n.log2 : Int) - 52) ∧
      ((n <<< (52 - n.log2) : Nat) : ℚ) * 2 ^ ((n.log2 : Int) - 52) = n := by
  have hk : n.log2 < 53 := (Nat.log2_lt (by omega)).2 hlt
  have hl : (n <<< (52 - n.log2)).log2 = 52 := by
    rw [Real64.log2_shiftLeft hn]
    omega
  have hpos : 0 < n <<< (52 - n.log2) := by rw [Nat.shiftLeft_eq]; positivity
  refine ⟨⟨?_, by omega, by omega, .inl ?_⟩, ?_⟩
  · have := @Nat.lt_log2_self (n <<< (52 - n.log2))
    rwa [hl] at this
  · have := Nat.log2_self_le hpos.ne'
    rwa [hl] at this
  · rw [Nat.shiftLeft_eq, Nat.cast_mul, Nat.cast_pow, Nat.cast_ofNat, ← zpow_natCast, mul_assoc,
      ← zpow_add₀ two_ne_zero, show ((52 - n.log2 : Nat) : Int) + ((n.log2 : Int) - 52) = 0 by omega,
      zpow_zero, mul_one]

/-- **Integers below `2 ^ 53` in magnitude convert to doubles exactly.** -/
theorem ofInt_exact {i : Int} (hi : i.natAbs < 2 ^ 53) :
    (ofInt i).isFinite = true ∧ Real64.value (ofInt i) = i := by
  rcases eq_or_ne i 0 with rfl | h0
  · exact ⟨rfl, rfl⟩
  have hn : 0 < i.natAbs := Int.natAbs_pos.2 h0
  obtain ⟨hc, hv⟩ := canonical_nat hn hi
  have hpos : 0 < i.natAbs <<< (52 - i.natAbs.log2) := by rw [Nat.shiftLeft_eq]; positivity
  have hu := unpack_ofRatio (decide (i < 0)) (n := i.natAbs) (d := 1) hc hpos (by
    rw [if_neg (by omega), roundRatioBits_eq hc hpos hn one_pos (by
      rw [Nat.cast_one, div_one, ← hv]
      exact Decimal.Neighbourhood.contains_center hpos _)])
  refine ⟨by show (ofInt i).toModel.unpack.isFinite = true; unfold ofInt; rw [hu]; rfl, ?_⟩
  show Real64.unpackedValue (ofInt i).toModel.unpack = i
  unfold ofInt
  rw [hu]
  simp only [Real64.unpackedValue]
  rcases lt_or_gt_of_ne h0 with hneg | hpos'
  · simp only [hneg, decide_true, ↓reduceIte, Sign.apply, Int.cast_neg, Int.cast_natCast, neg_mul, hv]
    rw [← Int.cast_natCast, show (i.natAbs : Int) = -i by omega, Int.cast_neg, neg_neg]
  · simp only [show ¬i < 0 by omega, decide_false, Bool.false_eq_true, ↓reduceIte, Sign.apply,
      Int.cast_natCast, hv]
    rw [← Int.cast_natCast, show (i.natAbs : Int) = i by omega]

end Binary64

namespace Real64

open Float.Model UnpackedFloat

/-! ## Exact differences of integers -/

/-- A signed mantissa whose value is an integer below `2 ^ 53` in magnitude rounds exactly. -/
theorem normalize_int {M E : Int} (z : Sign) {i : Int} (hi : (M : ℚ) * 2 ^ E = i)
    (hlt : i.natAbs < 2 ^ 53) :
    (overflow (normalize .binary64 M E z)).isFinite = true ∧
      unpackedValue (overflow (normalize .binary64 M E z)) = i := by
  rw [← hi]
  refine normalize_exact z (fun s m hm hv => ?_)
  have hn : (m : ℚ) * 2 ^ E = i.natAbs := by rw [hv, hi, Nat.cast_natAbs, Int.cast_abs]
  have hn₀ : 0 < i.natAbs := by
    have : (0 : ℚ) < m * 2 ^ E := mul_pos (by exact_mod_cast hm) (zpow_pos (by norm_num) _)
    rw [hn] at this
    exact_mod_cast this
  obtain ⟨hc, hval⟩ := Binary64.canonical_nat hn₀ hlt
  have hpos : 0 < i.natAbs <<< (52 - i.natAbs.log2) := by rw [Nat.shiftLeft_eq]; positivity
  refine ⟨_, _, hpos, ?_, hc.exponent_le, by rw [hval, hn]⟩
  rw [round_congr s hm hpos (hn.trans hval.symm)]
  exact round_canonical s hpos hc.mantissa_lt hc.exponent_ge hc.normal

/-- The difference of two finite doubles of integral values, less than `2 ^ 53` apart, is exact. -/
theorem value_sub_of_int {x y : Float} (hx : x.isFinite = true) (hy : y.isFinite = true)
    {a b : Int} (ha : value x = a) (hb : value y = b) (hab : (a - b).natAbs < 2 ^ 53) :
    (x - y).isFinite = true ∧ value (x - y) = a - b := by
  obtain ⟨M, E, z, -, hsub, hval⟩ := rounds_sub hx hy
  have := normalize_int z (i := a - b) (by rw [hval, ha, hb]; push_cast; ring) hab
  change (x - y).toModel.unpack.isFinite = true ∧ unpackedValue (x - y).toModel.unpack = a - b
  rw [hsub]
  exact_mod_cast this

/-! ## Quotients below one -/

/-- A quotient `q` and a remainder `r < d` say of `q + r / d` what its accuracy records. -/
theorem represents_ofFraction (q : Nat) {r d : Nat} (hd : 0 < d) (hr : r < d) :
    Represents (ExtendedMantissa.ofMantissaAndAccuracy q (accuracyOfFraction r d))
      (q + (r : ℚ) / d) := by
  have hdq : (0 : ℚ) < d := by exact_mod_cast hd
  have hlt : (r : ℚ) / d < 1 := (div_lt_one hdq).2 (by exact_mod_cast hr)
  unfold accuracyOfFraction
  split_ifs with h0
  · simp [Represents, ExtendedMantissa.ofMantissaAndAccuracy, h0]
  · have hpos : 0 < (r : ℚ) / d := div_pos (by exact_mod_cast Nat.pos_of_ne_zero h0) hdq
    rcases hc : compare (2 * r) d
    · have h2 : 2 * r < d := Nat.compare_eq_lt.1 hc
      have : (r : ℚ) / d < 1 / 2 := by
        rw [div_lt_iff₀ hdq]
        have : (2 * r : ℚ) < d := by exact_mod_cast h2
        linarith
      simp only [Represents, ExtendedMantissa.ofMantissaAndAccuracy, Bool.false_eq_true,
        ↓reduceIte]
      constructor <;> linarith
    · have h2 : 2 * r = d := Nat.compare_eq_eq.1 hc
      have : (r : ℚ) / d = 1 / 2 := by
        rw [div_eq_iff hdq.ne']
        have : (2 * r : ℚ) = d := by exact_mod_cast h2
        linarith
      simp only [Represents, ExtendedMantissa.ofMantissaAndAccuracy, Bool.false_eq_true,
        ↓reduceIte]
      linarith
    · have h2 : d < 2 * r := Nat.compare_eq_gt.1 hc
      have : 1 / 2 < (r : ℚ) / d := by
        rw [lt_div_iff₀ hdq]
        have : (d : ℚ) < 2 * r := by exact_mod_cast h2
        linarith
      simp only [Represents, ExtendedMantissa.ofMantissaAndAccuracy, ↓reduceIte]
      constructor <;> linarith

/-- The quotient `divCore` takes, with its accuracy, represents the exact quotient in units of
the exponent it returns. -/
theorem represents_divCore (m₁ : Nat) {m₂ : Nat} (hm₂ : 0 < m₂) (e₁ e₂ : Int) :
    Represents (ExtendedMantissa.ofMantissaAndAccuracy (divCore .binary64 m₁ e₁ m₂ e₂).1
        (divCore .binary64 m₁ e₁ m₂ e₂).2.2)
      ((m₁ : ℚ) * 2 ^ e₁ / (m₂ * 2 ^ e₂) / 2 ^ (divCore .binary64 m₁ e₁ m₂ e₂).2.1) := by
  simp only [divCore]
  generalize hT : min (e₁ - e₂) (Format.binary64.targetExponent
    (totalExponent m₁ e₁ - totalExponent m₂ e₂)) = T
  have hTle : T ≤ e₁ - e₂ := hT ▸ min_le_left _ _
  have hval : (m₁ : ℚ) * 2 ^ e₁ / (m₂ * 2 ^ e₂) / 2 ^ T =
      ((m₁ <<< (e₁ - e₂ - T).toNat) / m₂ : Nat) +
        (((m₁ <<< (e₁ - e₂ - T).toNat) % m₂ : Nat) : ℚ) / m₂ := by
    have hm₂q : (m₂ : ℚ) ≠ 0 := by exact_mod_cast hm₂.ne'
    have hsplit : ((m₁ <<< (e₁ - e₂ - T).toNat / m₂ : Nat) : ℚ) +
        (((m₁ <<< (e₁ - e₂ - T).toNat) % m₂ : Nat) : ℚ) / m₂ =
        ((m₁ <<< (e₁ - e₂ - T).toNat : Nat) : ℚ) / m₂ := by
      rw [eq_div_iff hm₂q, add_mul, div_mul_cancel₀ _ hm₂q]
      exact_mod_cast Nat.div_add_mod' _ _
    rw [hsplit, Nat.shiftLeft_eq, Nat.cast_mul, Nat.cast_pow, Nat.cast_ofNat, ← zpow_natCast,
      Int.toNat_of_nonneg (by omega), zpow_sub₀ two_ne_zero, zpow_sub₀ two_ne_zero]
    field_simp
  rw [hval]
  exact represents_ofFraction _ hm₂ (Nat.mod_lt _ hm₂)

/-- The floor of the base-two logarithm is monotone in the value. -/
theorem log2_add_le {m m' : Nat} (hm : 0 < m) {e e' : Int}
    (h : (m : ℚ) * 2 ^ e ≤ m' * 2 ^ e') : (m.log2 : Int) + e ≤ m'.log2 + e' := by
  have hlo : (2 : ℚ) ^ ((m.log2 : Int) + e) ≤ m * 2 ^ e := by
    rw [zpow_add₀ (by norm_num), zpow_natCast]
    exact mul_le_mul_of_nonneg_right (by exact_mod_cast Nat.log2_self_le (by omega))
      (zpow_nonneg (by norm_num) _)
  have hhi : (m' : ℚ) * 2 ^ e' < 2 ^ ((m'.log2 : Int) + 1 + e') := by
    rw [zpow_add₀ (by norm_num), ← Nat.cast_succ, zpow_natCast]
    exact mul_lt_mul_of_pos_right (by exact_mod_cast Nat.lt_log2_self) (zpow_pos (by norm_num) _)
  have hlt := (zpow_lt_zpow_iff_right₀ (by norm_num : (1 : ℚ) < 2)).1 ((hlo.trans h).trans_lt hhi)
  omega

/-- Rounding a mantissa cut with its accuracy settles, at the exponent the shift reaches, the
mantissa that represents the value in units of that exponent. -/
theorem roundWithAccuracy_eq_settle_of (s : Sign) (q : Nat) (T₀ : Int) (acc : Accuracy) {V : ℚ}
    (h : Represents (ExtendedMantissa.ofMantissaAndAccuracy q acc) (V / 2 ^ T₀)) :
    ∃ em, Represents em (V / 2 ^ max T₀ (target q T₀)) ∧ em.roundedMantissa ≤ 2 ^ 53 ∧
      roundWithAccuracy .binary64 s q T₀ acc = settle s em.roundedMantissa (max T₀ (target q T₀)) := by
  have hsh := h.shiftRight (target q T₀ - T₀).toNat
  have hV : V / 2 ^ T₀ / 2 ^ (target q T₀ - T₀).toNat = V / 2 ^ max T₀ (target q T₀) := by
    rw [div_div, ← zpow_natCast, ← zpow_add₀ two_ne_zero]
    congr 2
    omega
  rw [hV] at hsh
  -- the shifted mantissa has fewer than 54 bits, so rounding carries at most to `2 ^ 53`
  have hmant : (ExtendedMantissa.ofMantissaAndAccuracy q acc >>>
      (target q T₀ - T₀).toNat).mantissa < 2 ^ 53 := by
    rw [mantissa_shiftRight, mantissa_ofMantissaAndAccuracy,
      Nat.div_lt_iff_lt_mul (Nat.two_pow_pos _), ← Nat.pow_add]
    exact Nat.lt_of_lt_of_le Nat.lt_log2_self (Nat.pow_le_pow_right (by decide)
      (by unfold target; omega))
  have hshift : shiftToTargetExponent .binary64 q T₀ acc =
      (ExtendedMantissa.ofMantissaAndAccuracy q acc >>> (target q T₀ - T₀).toNat,
        max T₀ (target q T₀)) := by
    rw [shiftToTargetExponent_eq]
    rfl
  have hR : (shiftToTargetExponent .binary64 q T₀ acc).1.roundedMantissa ≤ 2 ^ 53 := by
    rw [hshift]
    have := roundedMantissa_le
      (ExtendedMantissa.ofMantissaAndAccuracy q acc >>> (target q T₀ - T₀).toNat)
    dsimp only
    omega
  refine ⟨_, hsh, by rw [hshift] at hR; exact hR, ?_⟩
  rw [roundWithAccuracy_eq_settle s q T₀ acc hR, hshift]

theorem divCore_exponent (m₁ m₂ : Nat) (e₁ e₂ : Int) :
    (divCore .binary64 m₁ e₁ m₂ e₂).2.1 =
      min (e₁ - e₂) (max ((m₁.log2 : Int) - m₂.log2 + (e₁ - e₂) - 53) (-1074)) := by
  simp only [divCore, Format.targetExponent, totalExponent, Format.mantissaBits,
    Format.minExponent]
  norm_num
  omega

/-- Dividing by a larger value gives an exponent of at most `-53`. -/
theorem divCore_exponent_le {m₁ m₂ : Nat} (hm₁ : 0 < m₁) {e₁ e₂ : Int}
    (h : (m₁ : ℚ) * 2 ^ e₁ ≤ m₂ * 2 ^ e₂) : (divCore .binary64 m₁ e₁ m₂ e₂).2.1 ≤ -53 := by
  have := log2_add_le hm₁ h
  rw [divCore_exponent]
  omega

/-- Above the least exponent the quotient is taken with 53 bits or more. -/
theorem divCore_canonical {m₁ m₂ : Nat} (hm₁ : 0 < m₁) (hm₁' : m₁ < 2 ^ 53) (hm₂ : 0 < m₂)
    {e₁ e₂ : Int} (hT : -1074 < (divCore .binary64 m₁ e₁ m₂ e₂).2.1) :
    2 ^ 52 ≤ (divCore .binary64 m₁ e₁ m₂ e₂).1 := by
  have hx : m₁.log2 < 53 := (Nat.log2_lt (by omega)).2 hm₁'
  rw [divCore_exponent] at hT
  -- the exponent is that of the quotient's 53 leading bits
  have hte : min (e₁ - e₂) (Format.binary64.targetExponent
      (totalExponent m₁ e₁ - totalExponent m₂ e₂)) =
      (m₁.log2 : Int) - m₂.log2 + (e₁ - e₂) - 53 := by
    simp only [Format.targetExponent, totalExponent, Format.mantissaBits, Format.minExponent]
    norm_num
    omega
  have hsh : (e₁ - e₂ - ((m₁.log2 : Int) - m₂.log2 + (e₁ - e₂) - 53)).toNat =
      53 + m₂.log2 - m₁.log2 := by omega
  simp only [divCore, hte, hsh, Nat.shiftLeft_eq]
  have hq : 2 ^ 52 * m₂ ≤ m₁ * 2 ^ (53 + m₂.log2 - m₁.log2) := by
    calc 2 ^ 52 * m₂ ≤ 2 ^ 52 * 2 ^ (m₂.log2 + 1) :=
          Nat.mul_le_mul_left _ Nat.lt_log2_self.le
      _ = 2 ^ m₁.log2 * 2 ^ (53 + m₂.log2 - m₁.log2) := by
          rw [← Nat.pow_add, ← Nat.pow_add]
          congr 1
          omega
      _ ≤ m₁ * 2 ^ (53 + m₂.log2 - m₁.log2) :=
          Nat.mul_le_mul_right _ (Nat.log2_self_le (by omega))
  exact (Nat.le_div_iff_mul_le hm₂).2 (Nat.mul_comm m₂ _ ▸ hq)

/-- A value of at most `1 - 2 ^ -53`, cut at an exponent of at most `-53` with 53 bits unless
the exponent is the least, rounds to a double below one: of exponent below `-53`, or at `-53`
with fewer than `2 ^ 53` units. -/
theorem roundWithAccuracy_below_one (s : Sign) (q : Nat) {T₀ : Int} (acc : Accuracy) {V : ℚ}
    (hrep : Represents (ExtendedMantissa.ofMantissaAndAccuracy q acc) (V / 2 ^ T₀))
    (hT₀ : T₀ ≤ -53) (hcan : -1074 < T₀ → 2 ^ 52 ≤ q) (hV : V ≤ 1 - 2 ^ (-53 : Int)) :
    ∃ R T, roundWithAccuracy .binary64 s q T₀ acc = settle s R T ∧
      -1074 ≤ T ∧ (-1074 < T → 2 ^ 52 ≤ R) ∧ (T < -53 ∧ R ≤ 2 ^ 53 ∨ T = -53 ∧ R < 2 ^ 53) := by
  have h53 : (0 : ℚ) < 2 ^ (-53 : Int) := zpow_pos (by norm_num) _
  have hone : (1 : ℚ) - 2 ^ (-53 : Int) = ((2 ^ 53 - 1 : Nat) : ℚ) * 2 ^ (-53 : Int) := by
    norm_num
  have hlog : (2 ^ 53 - 1 : Nat).log2 = 52 :=
    (Nat.log2_eq_iff (by norm_num)).2 ⟨by norm_num, by norm_num⟩
  -- the quotient cut at `T₀` is at most the value
  have hq : (q : ℚ) * 2 ^ T₀ ≤ V := by
    have := hrep.bounds.1
    rwa [mantissa_ofMantissaAndAccuracy, le_div_iff₀ (zpow_pos (by norm_num) _)] at this
  have htq : target q T₀ ≤ -53 := by
    rcases Nat.eq_zero_or_pos q with rfl | hq₀
    · unfold target
      simp only [Nat.log2_zero, Nat.cast_zero, zero_add]
      omega
    · have := log2_add_le hq₀ (hq.trans (hV.trans hone.le))
      rw [hlog] at this
      unfold target
      omega
  obtain ⟨em, hem, hR, hround⟩ := roundWithAccuracy_eq_settle_of s q T₀ acc hrep
  refine ⟨_, _, hround, le_max_of_le_right (le_max_right _ _), fun hT => ?_, ?_⟩
  · by_cases hcase : T₀ ≤ target q T₀
    · -- rounded at the quotient's own target: 53 bits
      rw [max_eq_right hcase] at hT hem
      have hq₀ : 0 < q := by
        rcases Nat.eq_zero_or_pos q with rfl | hq₀
        · unfold target at hT hcase
          simp at hT hcase
          omega
        · exact hq₀
      have hlo : (2 : ℚ) ^ 52 ≤ V / 2 ^ target q T₀ :=
        (le_div_target hq₀ hT).trans (div_le_div_of_nonneg_right hq (zpow_pos (by norm_num) _).le)
      have := (represents_exact (2 ^ 52)).roundedMantissa_mono hem (by exact_mod_cast hlo)
      rwa [roundedMantissa_exact] at this
    · -- no shift above the least exponent would leave fewer than 53 bits, which `hcan` excludes
      rw [max_eq_left (by omega)] at hT
      have hq52 := hcan hT
      have : 52 ≤ q.log2 := (Nat.le_log2 (by omega)).2 hq52
      unfold target at hcase
      omega
  · rcases lt_or_eq_of_le (max_le hT₀ htq) with hlt | heq
    · exact .inl ⟨hlt, hR⟩
    · -- at `-53` the value is at most `2 ^ 53 - 1` units
      refine .inr ⟨heq, ?_⟩
      rw [heq] at hem
      have hle : V / 2 ^ (-53 : Int) ≤ ((2 ^ 53 - 1 : Nat) : ℚ) := by
        rw [div_le_iff₀ h53]
        linarith
      have := hem.roundedMantissa_mono (represents_exact _) hle
      rw [roundedMantissa_exact] at this
      omega

/-- **A quotient by a larger value rounds below one.** A positive `m₁ · 2 ^ e₁` at most
`1 - 2 ^ -53` times `m₂ · 2 ^ e₂` divides to a double of exponent at most `-53`, below `2 ^ 53`
units at `-53`: below one. -/
theorem div_below_one (s : Sign) {m₁ m₂ : Nat} (hm₁ : 0 < m₁) (hm₁' : m₁ < 2 ^ 53) (hm₂ : 0 < m₂)
    {e₁ e₂ : Int} (h : (m₁ : ℚ) * 2 ^ e₁ ≤ m₂ * 2 ^ e₂ * (1 - 2 ^ (-53 : Int))) :
    ∃ R T, roundWithAccuracy .binary64 s (divCore .binary64 m₁ e₁ m₂ e₂).1
        (divCore .binary64 m₁ e₁ m₂ e₂).2.1 (divCore .binary64 m₁ e₁ m₂ e₂).2.2 = settle s R T ∧
      -1074 ≤ T ∧ (-1074 < T → 2 ^ 52 ≤ R) ∧ (T < -53 ∧ R ≤ 2 ^ 53 ∨ T = -53 ∧ R < 2 ^ 53) := by
  have hy : (0 : ℚ) < m₂ * 2 ^ e₂ := mul_pos (by exact_mod_cast hm₂) (zpow_pos (by norm_num) _)
  have h53 : (0 : ℚ) < 2 ^ (-53 : Int) := zpow_pos (by norm_num) _
  have hV : (m₁ : ℚ) * 2 ^ e₁ / (m₂ * 2 ^ e₂) ≤ 1 - 2 ^ (-53 : Int) := by
    rw [div_le_iff₀ hy]
    linarith
  exact roundWithAccuracy_below_one s _ _ (represents_divCore m₁ hm₂ e₁ e₂)
    (divCore_exponent_le hm₁ (h.trans (by nlinarith))) (divCore_canonical hm₁ hm₁' hm₂) hV

/-- A finite double of nonnegative value is a zero or a positive finite double. -/
theorem unpack_of_value_nonneg {x : Float} (hx : x.isFinite = true) (h : 0 ≤ value x) :
    (∃ s, x.toModel.unpack = .zero s) ∨ ∃ m e hm, x.toModel.unpack = .finite .positive m e hm := by
  change x.toModel.unpack.isFinite = true at hx
  change 0 ≤ unpackedValue x.toModel.unpack at h
  rcases hu : x.toModel.unpack with _ | s | s | ⟨s, m, e, hm⟩ <;> rw [hu] at hx h
  · cases hx
  · cases hx
  · exact .inl ⟨s, rfl⟩
  · cases s with
    | negative =>
      have : (0 : ℚ) < m * 2 ^ e := mul_pos (by exact_mod_cast hm) (zpow_pos (by norm_num) _)
      simp only [unpackedValue, Sign.apply, Int.cast_neg, Int.cast_natCast, neg_mul] at h
      linarith
    | positive => exact .inr ⟨m, e, hm, rfl⟩

theorem unpack_div (x y : Float) : (x / y).toModel.unpack =
    (Float.Model.pack (UnpackedFloat.div .binary64 x.toModel.unpack y.toModel.unpack)).unpack :=
  rfl

/-- **A proportion of at most `1 - 2 ^ -53` divides to a double in `[0, 1)`.** -/
theorem div_mem_unit {x y : Float} (hx : x.isFinite = true) (hy : y.isFinite = true)
    (hx₀ : 0 ≤ value x) (hy₀ : 0 < value y) (h : value x ≤ value y * (1 - 2 ^ (-53 : Int))) :
    0.0 ≤ x / y ∧ x / y < 1.0 := by
  -- the divisor is a positive finite double
  obtain ⟨m₂, e₂, hm₂, hyu⟩ := (unpack_of_value_nonneg hy hy₀.le).resolve_left (by
    rintro ⟨s, hs⟩
    unfold value at hy₀
    rw [hs] at hy₀
    simp [unpackedValue] at hy₀)
  suffices H : (x / y).toModel.unpack.isNaN = false ∧
      RankLE (2, 0, 0) (unpackedRank (x / y).toModel.unpack) ∧
      RankLT (unpackedRank (x / y).toModel.unpack) (3, -52, 2 ^ 52) by
    rw [le_iff_rank, lt_iff_rank]
    exact ⟨⟨rfl, H.1, H.2.1⟩, H.1, rfl, H.2.2⟩
  rw [unpack_div, hyu]
  rcases unpack_of_value_nonneg hx hx₀ with ⟨s, hxu⟩ | ⟨m₁, e₁, hm₁, hxu⟩
  · -- a zero numerator gives a zero
    rw [hxu]
    simp only [UnpackedFloat.div, unpack_pack_zero]
    exact ⟨rfl, by simp [unpackedRank, RankLE], by simp [unpackedRank, RankLT]⟩
  · unfold value at h
    rw [hxu, hyu] at h
    simp only [unpackedValue, Sign.apply, Int.cast_natCast] at h
    obtain ⟨R, T, hround, hT, hn, hRT⟩ :=
      div_below_one .positive hm₁ (mantissa_lt_of_unpack hxu) hm₂ h
    have hdiv : UnpackedFloat.div .binary64 (.finite .positive m₁ e₁ hm₁)
        (.finite .positive m₂ e₂ hm₂) = settle .positive R T := hround
    have hR : R ≤ 2 ^ 53 := by omega
    rw [hxu, hdiv, unpack_pack_settle _ hT hn]
    exact ⟨isNaN_overflow (isNaN_settle _ _ _),
      rankLE_overflow (rankLE_zero_settle_positive R T .positive),
      rankLT_settle_positive hR (by norm_num) (by norm_num) (by omega)⟩

end Real64

end Seaway
