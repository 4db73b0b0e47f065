import Mathlib
import Seaway.Proofs.Quotient

/-!
# Rounding to nearest is monotone

Rounding to nearest never reverses the order of two values, and packing sends what is too
large to the infinity of its sign, which keeps the order too. So adding one finite double to
two doubles in order gives sums in order: `add_le_add_right_of_le`. In the logical model of
`Float`, rounding a positive value `m · 2 ^ e` shifts the mantissa to the target exponent of
the value, keeping what is shifted out in a round bit and a sticky bit, and rounds half to
even:

* `Represents`: what a mantissa with its round and sticky bits says of the exact value it was
  cut from; `Represents.roundedMantissa_mono` rounds larger values to larger mantissas;
* `round_eq_settle`: rounding is that rounded mantissa at the target exponent, carried into
  the exponent when it reaches `2 ^ 53` (`settle`);
* `rankLE_normalize`: a signed mantissa rounds monotonically in its value;
* `add_eq_normalize`: the sum of two zeros or finite doubles is their exact sum rounded, and
  `value_le_of_rankLE` reads the order of doubles as the order of their values.
-/

namespace Seaway

namespace Real64

open Float.Model UnpackedFloat

/-! ## Round and sticky bits -/

/-- What a mantissa with its round and sticky bits says of the value `x` it was cut from, in
units of its last place: below, at or above the midpoint to the next mantissa, or exactly
the mantissa. -/
def Represents (em : ExtendedMantissa) (x : ℚ) : Prop :=
  if em.roundBit then
    if em.stickyBit then (em.mantissa : ℚ) + 1 / 2 < x ∧ x < em.mantissa + 1
    else x = em.mantissa + 1 / 2
  else
    if em.stickyBit then (em.mantissa : ℚ) < x ∧ x < em.mantissa + 1 / 2
    else x = em.mantissa

theorem represents_exact (m : Nat) :
    Represents (ExtendedMantissa.ofMantissaAndAccuracy m .exact) m := by
  simp [Represents, ExtendedMantissa.ofMantissaAndAccuracy]

theorem Represents.bounds {em : ExtendedMantissa} {x : ℚ} (h : Represents em x) :
    (em.mantissa : ℚ) ≤ x ∧ x < em.mantissa + 1 := by
  rcases em with ⟨m, _ | _, _ | _⟩ <;>
    simp only [Represents, Bool.false_eq_true, ↓reduceIte] at h ⊢ <;>
    constructor <;> linarith [h]

theorem Represents.shiftRightOne {em : ExtendedMantissa} {x : ℚ} (h : Represents em x) :
    Represents em.shiftRightOne (x / 2) := by
  rcases em with ⟨m, r, s⟩
  have hc : ((m % 2 : Nat) : ℚ) + 2 * ((m / 2 : Nat) : ℚ) = (m : ℚ) := by
    exact_mod_cast Nat.mod_add_div m 2
  -- the bit shifted out becomes the round bit, and the old round bit joins the sticky bit
  rcases Nat.mod_two_eq_zero_or_one m with hr | hr <;> rw [hr] at hc <;>
    cases r <;> cases s <;>
    simp_all [Represents, ExtendedMantissa.shiftRightOne] <;>
    (try constructor) <;> linarith

theorem Represents.shiftRight {em : ExtendedMantissa} {x : ℚ} (h : Represents em x) (n : Nat) :
    Represents (em >>> n) (x / 2 ^ n) := by
  induction n with
  | zero => simpa [HShiftRight.hShiftRight, Nat.repeat] using h
  | succ n ih =>
    rw [pow_succ, ← div_div]
    exact ih.shiftRightOne

theorem Represents.roundedMantissa_of_lt {em : ExtendedMantissa} {x : ℚ} (h : Represents em x)
    (hx : x < em.mantissa + 1 / 2) : em.roundedMantissa = em.mantissa := by
  rcases em with ⟨m, _ | _, _ | _⟩ <;>
    simp only [Represents, ExtendedMantissa.roundedMantissa, ExtendedMantissa.accuracy,
      Accuracy.roundToNearestEven, Bool.false_eq_true, ↓reduceIte] at h hx ⊢ <;>
    grind

theorem Represents.roundedMantissa_of_eq {em : ExtendedMantissa} {x : ℚ} (h : Represents em x)
    (hx : x = em.mantissa + 1 / 2) : em.roundedMantissa = em.mantissa + em.mantissa % 2 := by
  rcases em with ⟨m, _ | _, _ | _⟩ <;>
    simp only [Represents, ExtendedMantissa.roundedMantissa, ExtendedMantissa.accuracy,
      Accuracy.roundToNearestEven, Bool.false_eq_true, ↓reduceIte] at h hx ⊢ <;>
    grind

theorem Represents.roundedMantissa_of_gt {em : ExtendedMantissa} {x : ℚ} (h : Represents em x)
    (hx : em.mantissa + 1 / 2 < x) : em.roundedMantissa = em.mantissa + 1 := by
  rcases em with ⟨m, _ | _, _ | _⟩ <;>
    simp only [Represents, ExtendedMantissa.roundedMantissa, ExtendedMantissa.accuracy,
      Accuracy.roundToNearestEven, Bool.false_eq_true, ↓reduceIte] at h hx ⊢ <;>
    grind

/-- Rounding half to even is monotone: a larger value never rounds to a smaller mantissa. -/
theorem Represents.roundedMantissa_mono {em em' : ExtendedMantissa} {x y : ℚ}
    (h : Represents em x) (h' : Represents em' y) (hxy : x ≤ y) :
    em.roundedMantissa ≤ em'.roundedMantissa := by
  have hb := h.bounds
  have hb' := h'.bounds
  rcases Nat.lt_trichotomy em.mantissa em'.mantissa with hlt | heq | hgt
  · have := roundedMantissa_le em
    have := le_roundedMantissa em'
    omega
  · -- one mantissa: rounding goes up only from the midpoint on, and `y` is at least as far
    have hm : (em'.mantissa : ℚ) = em.mantissa := by rw [heq]
    rcases lt_trichotomy y (em'.mantissa + 1 / 2) with hy | hy | hy
    · rw [h.roundedMantissa_of_lt (by linarith), h'.roundedMantissa_of_lt hy, heq]
    · rw [h'.roundedMantissa_of_eq hy, ← heq]
      rcases lt_or_eq_of_le (show x ≤ em.mantissa + 1 / 2 by linarith) with hx | hx
      · rw [h.roundedMantissa_of_lt hx]
        omega
      · rw [h.roundedMantissa_of_eq hx]
    · rw [h'.roundedMantissa_of_gt hy, ← heq]
      exact roundedMantissa_le em
  · exfalso
    have : (em'.mantissa : ℚ) + 1 ≤ em.mantissa := by exact_mod_cast hgt
    linarith [hb.1, hb'.2]

/-! ## Rounding at the target exponent -/

/-- The exponent at which a positive value `m · 2 ^ e` is rounded: that of its 53 leading
bits, or the least exponent of subnormal doubles. -/
def target (m : Nat) (e : Int) : Int := max ((m.log2 : Int) + e - 52) (-1074)

theorem targetExponent_eq (m : Nat) (e : Int) :
    Format.binary64.targetExponent (totalExponent m e) = target m e := by
  simp only [Format.targetExponent, totalExponent, Format.mantissaBits, Format.minExponent, target]
  norm_num
  omega

theorem log2_shiftLeft {m : Nat} (hm : 0 < m) (d : Nat) : (m <<< d).log2 = m.log2 + d := by
  have hpos : 0 < m <<< d := by rw [Nat.shiftLeft_eq]; positivity
  rw [Nat.log2_eq_iff (by omega), Nat.shiftLeft_eq, Nat.pow_add, Nat.add_right_comm, Nat.pow_add]
  exact ⟨Nat.mul_le_mul_right _ (Nat.log2_self_le (by omega)),
    Nat.mul_lt_mul_of_pos_right Nat.lt_log2_self (Nat.two_pow_pos d)⟩

/-- A mantissa rounded at exponent `T`, at most `2 ^ 53`, as an unpacked double: a zero, the
mantissa at `T`, or, when rounding carried out of 53 bits, the next power of two. -/
def settle (s : Sign) (R : Nat) (T : Int) : UnpackedFloat :=
  if h : R = 0 then .zero s
  else if R < 2 ^ 53 then .finite s R T (Nat.pos_of_ne_zero h)
  else .finite s (2 ^ 52) (T + 1) (Nat.two_pow_pos 52)

/-- The second shift of `roundWithAccuracy` only moves a carry into the exponent. -/
theorem roundWithAccuracy_eq_settle (s : Sign) (M : Nat) (E : Int) (acc : Accuracy)
    (hR : (shiftToTargetExponent .binary64 M E acc).1.roundedMantissa ≤ 2 ^ 53) :
    roundWithAccuracy .binary64 s M E acc =
      settle s (shiftToTargetExponent .binary64 M E acc).1.roundedMantissa
        (shiftToTargetExponent .binary64 M E acc).2 := by
  have hT : -1074 ≤ (shiftToTargetExponent .binary64 M E acc).2 := by
    rw [shiftToTargetExponent_eq]
    omega
  unfold roundWithAccuracy
  generalize shiftToTargetExponent .binary64 M E acc = p at hR hT ⊢
  obtain ⟨em, T⟩ := p
  dsimp only at hR hT ⊢
  rw [shiftToTargetExponent_eq em.roundedMantissa T .exact]
  dsimp only
  unfold settle
  rcases Nat.lt_or_ge em.roundedMantissa (2 ^ 53) with hlt | hge
  · -- no carry: the second shift moves nothing
    have hlog : em.roundedMantissa.log2 ≤ 52 := by
      rcases Nat.eq_zero_or_pos em.roundedMantissa with h0 | hpos
      · simp [h0]
      · have := (Nat.log2_lt (Nat.pos_iff_ne_zero.1 hpos) (k := 53)).2 hlt
        omega
    have hk : (max ((em.roundedMantissa.log2 : Int) + T - 52) (-1074) - T).toNat = 0 := by omega
    have hE : max T (max ((em.roundedMantissa.log2 : Int) + T - 52) (-1074)) = T := by omega
    have hF : (ExtendedMantissa.ofMantissaAndAccuracy em.roundedMantissa .exact >>> 0).mantissa =
        em.roundedMantissa := rfl
    rw [hk, hE, hF]
    by_cases h0 : em.roundedMantissa = 0
    · rw [dif_pos h0, dif_pos h0]
    · rw [dif_neg h0, dif_neg h0, if_pos hlt]
  · -- a carry out of 53 bits: one more shift, exactly
    have hR53 : em.roundedMantissa = 2 ^ 53 := by omega
    have hlogR : em.roundedMantissa.log2 = 53 := by rw [hR53]; exact Nat.log2_two_pow
    have hk : (max ((em.roundedMantissa.log2 : Int) + T - 52) (-1074) - T).toNat = 1 := by omega
    have hE : max T (max ((em.roundedMantissa.log2 : Int) + T - 52) (-1074)) = T + 1 := by omega
    have hF : (ExtendedMantissa.ofMantissaAndAccuracy em.roundedMantissa .exact >>> 1).mantissa =
        2 ^ 52 := by
      rw [mantissa_shiftRight, hR53]
      rfl
    rw [hk, hE, hF, dif_neg (by omega), dif_neg (by omega), if_neg (by omega)]

theorem div_target_eq (m : Nat) (e : Int) :
    (m : ℚ) * 2 ^ e / 2 ^ target m e = m * 2 ^ (e - target m e) := by
  rw [zpow_sub₀ (by norm_num), mul_div_assoc]

/-- In units of its target exponent a value has fewer than 53 bits. -/
theorem div_target_lt (m : Nat) (e : Int) : (m : ℚ) * 2 ^ e / 2 ^ target m e < 2 ^ 53 := by
  rw [div_target_eq]
  have hm : (m : ℚ) < 2 ^ (m.log2 + 1) := by exact_mod_cast Nat.lt_log2_self
  have hle : (2 : ℚ) ^ (e - target m e) ≤ 2 ^ (52 - (m.log2 : Int)) :=
    zpow_le_zpow_right₀ (by norm_num) (by unfold target; omega)
  calc (m : ℚ) * 2 ^ (e - target m e) ≤ m * 2 ^ (52 - (m.log2 : Int)) :=
        mul_le_mul_of_nonneg_left hle (Nat.cast_nonneg m)
    _ < 2 ^ (m.log2 + 1) * 2 ^ (52 - (m.log2 : Int)) :=
        mul_lt_mul_of_pos_right hm (zpow_pos (by norm_num) _)
    _ = 2 ^ 53 := by
        have h53 : ((m.log2 + 1 : Nat) : Int) + (52 - (m.log2 : Int)) = 53 := by omega
        rw [← zpow_natCast, ← zpow_add₀ (by norm_num), h53]
        norm_num

/-- Above the least exponent a value has 53 bits in units of its target exponent. -/
theorem le_div_target {m : Nat} (hm : 0 < m) {e : Int} (hT : -1074 < target m e) :
    2 ^ 52 ≤ (m : ℚ) * 2 ^ e / 2 ^ target m e := by
  rw [div_target_eq]
  have hm : (2 : ℚ) ^ m.log2 ≤ m := by exact_mod_cast Nat.log2_self_le (by omega)
  have he : e - target m e = 52 - (m.log2 : Int) := by unfold target at hT ⊢; omega
  calc (2 : ℚ) ^ 52 = 2 ^ m.log2 * 2 ^ (52 - (m.log2 : Int)) := by
        have h52 : (m.log2 : Int) + (52 - (m.log2 : Int)) = 52 := by omega
        rw [← zpow_natCast (2 : ℚ) m.log2, ← zpow_add₀ (by norm_num), h52]
        norm_num
    _ ≤ m * 2 ^ (e - target m e) := by
        rw [he]
        exact mul_le_mul_of_nonneg_right hm (zpow_nonneg (by norm_num) _)

/-- Rounding a positive value `m · 2 ^ e` settles, at the target exponent `T`, the mantissa
cut from `m · 2 ^ e / 2 ^ T` and rounded half to even. -/
theorem round_eq_settle (s : Sign) {m : Nat} (hm : 0 < m) (e : Int) :
    ∃ em, Represents em ((m : ℚ) * 2 ^ e / 2 ^ target m e) ∧
      UnpackedFloat.round .binary64 s m e = settle s em.roundedMantissa (target m e) := by
  unfold UnpackedFloat.round decreaseExponent
  rw [targetExponent_eq]
  dsimp only
  generalize hd : (e - target m e).toNat = d
  -- the mantissa moved up towards the target exponent keeps its target
  have htarget : target (m <<< d) (e - d) = target m e := by
    unfold target at hd ⊢
    rw [log2_shiftLeft hm d]
    omega
  have hrep := (represents_exact (m <<< d)).shiftRight (target m e - (e - d)).toNat
  have hval : (((m <<< d : Nat) : ℚ)) / 2 ^ (target m e - (e - d)).toNat =
      (m : ℚ) * 2 ^ e / 2 ^ target m e := by
    rw [div_target_eq, Nat.shiftLeft_eq, Nat.cast_mul, Nat.cast_pow, Nat.cast_ofNat, mul_div_assoc,
      ← zpow_natCast, ← zpow_natCast, ← zpow_sub₀ (by norm_num)]
    congr 2
    omega
  rw [hval] at hrep
  have hsh : shiftToTargetExponent .binary64 (m <<< d) (e - d) .exact =
      (ExtendedMantissa.ofMantissaAndAccuracy (m <<< d) .exact >>>
        (target m e - (e - d)).toNat, target m e) := by
    rw [shiftToTargetExponent_eq]
    have := htarget
    unfold target at this hd ⊢
    rw [this]
    congr 1
    omega
  have hR := hrep.roundedMantissa_mono (represents_exact (2 ^ 53))
    (by exact_mod_cast (div_target_lt m e).le)
  refine ⟨_, hrep, ?_⟩
  rw [roundWithAccuracy_eq_settle _ _ _ _ (by rw [hsh]; exact hR), hsh]

/-- Rounding a positive value settles a mantissa of 53 bits unless the value is subnormal. -/
theorem round_eq_settle_canonical (s : Sign) {m : Nat} (hm : 0 < m) (e : Int) :
    ∃ R, UnpackedFloat.round .binary64 s m e = settle s R (target m e) ∧
      (-1074 < target m e → 2 ^ 52 ≤ R) := by
  obtain ⟨em, hrep, hround⟩ := round_eq_settle s hm e
  refine ⟨_, hround, fun hT => ?_⟩
  exact (represents_exact (2 ^ 52)).roundedMantissa_mono hrep
    (by exact_mod_cast le_div_target hm hT)

theorem target_mono {m m' : Nat} (hm : 0 < m) {e e' : Int}
    (h : (m : ℚ) * 2 ^ e ≤ m' * 2 ^ e') : target m e ≤ target m' e' := by
  have hlo : (2 : ℚ) ^ ((m.log2 : Int) + e) ≤ m * 2 ^ e := by
    rw [zpow_add₀ (by norm_num), zpow_natCast]
    exact mul_le_mul_of_nonneg_right (by exact_mod_cast Nat.log2_self_le (by omega))
      (zpow_nonneg (by norm_num) _)
  have hhi : (m' : ℚ) * 2 ^ e' < 2 ^ ((m'.log2 : Int) + 1 + e') := by
    rw [zpow_add₀ (by norm_num), ← Nat.cast_succ, zpow_natCast]
    exact mul_lt_mul_of_pos_right (by exact_mod_cast Nat.lt_log2_self) (zpow_pos (by norm_num) _)
  have hv : (2 : ℚ) ^ ((m.log2 : Int) + e) < 2 ^ ((m'.log2 : Int) + 1 + e') :=
    (hlo.trans h).trans_lt hhi
  have hlt := (zpow_lt_zpow_iff_right₀ (by norm_num : (1 : ℚ) < 2)).1 hv
  unfold target
  omega

/-- Two positive values in order round, at their target exponents, to mantissas in order: at
one exponent the mantissas compare, and at a higher exponent the larger value has 53 bits. -/
theorem round_settle_le (s : Sign) {m m' : Nat} (hm : 0 < m) (hm' : 0 < m') {e e' : Int}
    (h : (m : ℚ) * 2 ^ e ≤ m' * 2 ^ e') :
    ∃ R R', UnpackedFloat.round .binary64 s m e = settle s R (target m e) ∧
      UnpackedFloat.round .binary64 s m' e' = settle s R' (target m' e') ∧ R ≤ 2 ^ 53 ∧
      (target m e < target m' e' ∧ 2 ^ 52 ≤ R' ∨ target m e = target m' e' ∧ R ≤ R') := by
  obtain ⟨em, hrep, hround⟩ := round_eq_settle s hm e
  obtain ⟨em', hrep', hround'⟩ := round_eq_settle s hm' e'
  have hR := hrep.roundedMantissa_mono (represents_exact (2 ^ 53))
    (by exact_mod_cast (div_target_lt m e).le)
  refine ⟨_, _, hround, hround', hR, ?_⟩
  rcases lt_or_eq_of_le (target_mono hm h) with hlt | heq
  · -- the larger value is above the least exponent, so it has 53 bits
    have h52 := (represents_exact (2 ^ 52)).roundedMantissa_mono hrep'
      (by exact_mod_cast le_div_target hm' (by unfold target at hlt ⊢; omega))
    exact .inl ⟨hlt, h52⟩
  · refine .inr ⟨heq, hrep.roundedMantissa_mono hrep' ?_⟩
    rw [heq]
    exact div_le_div_of_nonneg_right h (zpow_nonneg (by norm_num) _)

/-! ## Rounded signed mantissas in order -/

theorem RankLE.trans {k l n : Int × Int × Int} (h₁ : RankLE k l) (h₂ : RankLE l n) :
    RankLE k n := by
  unfold RankLE at *
  omega

theorem rankLE_settle_positive {R R' : Nat} {T T' : Int} (hR : R ≤ 2 ^ 53)
    (h : T < T' ∧ 2 ^ 52 ≤ R' ∨ T = T' ∧ R ≤ R') :
    RankLE (unpackedRank (settle .positive R T)) (unpackedRank (settle .positive R' T')) := by
  unfold settle
  split_ifs <;> simp only [unpackedRank, RankLE, true_and] <;> omega

/-- Negative values are keyed by their magnitudes reversed. -/
theorem rankLE_settle_negative {R R' : Nat} {T T' : Int} (hR : R ≤ 2 ^ 53)
    (h : T < T' ∧ 2 ^ 52 ≤ R' ∨ T = T' ∧ R ≤ R') :
    RankLE (unpackedRank (settle .negative R' T')) (unpackedRank (settle .negative R T)) := by
  unfold settle
  split_ifs <;> simp only [unpackedRank, RankLE, true_and] <;> omega

theorem rankLE_settle_negative_zero (R : Nat) (T : Int) (z : Sign) :
    RankLE (unpackedRank (settle .negative R T)) (unpackedRank (.zero z)) := by
  unfold settle
  split_ifs <;> simp [unpackedRank, RankLE]

theorem rankLE_zero_settle_positive (R : Nat) (T : Int) (z : Sign) :
    RankLE (unpackedRank (.zero z)) (unpackedRank (settle .positive R T)) := by
  unfold settle
  split_ifs <;> simp [unpackedRank, RankLE]

theorem normalize_of_neg {M : Int} (hM : M < 0) (E : Int) (z : Sign) :
    normalize .binary64 M E z = UnpackedFloat.round .binary64 .negative (-M).toNat E := by
  unfold UnpackedFloat.normalize
  rw [Int.compare_eq_lt.2 hM]

theorem normalize_of_pos {M : Int} (hM : 0 < M) (E : Int) (z : Sign) :
    normalize .binary64 M E z = UnpackedFloat.round .binary64 .positive M.toNat E := by
  unfold UnpackedFloat.normalize
  rw [Int.compare_eq_gt.2 hM]

theorem normalize_zero (E : Int) (z : Sign) : normalize .binary64 0 E z = .zero z := rfl

theorem rankLE_normalize_zero {M : Int} (hM : M ≤ 0) (E : Int) (z z' : Sign) :
    RankLE (unpackedRank (normalize .binary64 M E z)) (unpackedRank (.zero z')) := by
  rcases lt_or_eq_of_le hM with hM | rfl
  · obtain ⟨R, hround, -⟩ := round_eq_settle_canonical .negative (show 0 < (-M).toNat by omega) E
    rw [normalize_of_neg hM, hround]
    exact rankLE_settle_negative_zero _ _ _
  · simp [normalize_zero, unpackedRank, RankLE]

theorem rankLE_zero_normalize {M : Int} (hM : 0 ≤ M) (E : Int) (z z' : Sign) :
    RankLE (unpackedRank (.zero z)) (unpackedRank (normalize .binary64 M E z')) := by
  rcases lt_or_eq_of_le hM with hM | rfl
  · obtain ⟨R, hround, -⟩ := round_eq_settle_canonical .positive (show 0 < M.toNat by omega) E
    rw [normalize_of_pos hM, hround]
    exact rankLE_zero_settle_positive _ _ _
  · simp [normalize_zero, unpackedRank, RankLE]

theorem cast_toNat_of_nonneg {M : Int} (h : 0 ≤ M) : ((M.toNat : Nat) : ℚ) = M := by
  exact_mod_cast Int.toNat_of_nonneg h

/-- Rounding a signed mantissa is monotone in its value. -/
theorem rankLE_normalize {M M' E E' : Int} (h : (M : ℚ) * 2 ^ E ≤ M' * 2 ^ E') (z z' : Sign) :
    RankLE (unpackedRank (normalize .binary64 M E z))
      (unpackedRank (normalize .binary64 M' E' z')) := by
  have hE : (0 : ℚ) < 2 ^ E := zpow_pos (by norm_num) E
  have hE' : (0 : ℚ) < 2 ^ E' := zpow_pos (by norm_num) E'
  rcases lt_or_ge M' 0 with hM' | hM'
  · -- two negative values: their magnitudes compare the other way
    have hM : M < 0 := by
      by_contra hM
      have h₁ : (0 : ℚ) ≤ M * 2 ^ E := mul_nonneg (by exact_mod_cast not_lt.1 hM) hE.le
      have h₂ : (M' : ℚ) * 2 ^ E' < 0 := mul_neg_of_neg_of_pos (by exact_mod_cast hM') hE'
      linarith
    have hmag : (((-M').toNat : Nat) : ℚ) * 2 ^ E' ≤ ((-M).toNat : Nat) * 2 ^ E := by
      rw [cast_toNat_of_nonneg (by omega), cast_toNat_of_nonneg (by omega)]
      push_cast
      linarith
    obtain ⟨R', R, h₁, h₂, hR, hle⟩ := round_settle_le .negative (by omega) (by omega) hmag
    rw [normalize_of_neg hM, normalize_of_neg hM', h₁, h₂]
    exact rankLE_settle_negative hR hle
  rcases le_or_gt M 0 with hM | hM
  · -- values of opposite signs are parted by the zeros
    exact (rankLE_normalize_zero hM E z .positive).trans (rankLE_zero_normalize hM' E' .positive z')
  · -- two positive values
    have hM'' : 0 < M' := by
      by_contra hM''
      have h₁ : 0 < (M : ℚ) * 2 ^ E := mul_pos (by exact_mod_cast hM) hE
      have h₂ : (M' : ℚ) * 2 ^ E' ≤ 0 :=
        mul_nonpos_of_nonpos_of_nonneg (by exact_mod_cast not_lt.1 hM'') hE'.le
      linarith
    have hmag : ((M.toNat : Nat) : ℚ) * 2 ^ E ≤ ((M'.toNat : Nat) : ℚ) * 2 ^ E' := by
      rw [cast_toNat_of_nonneg (by omega), cast_toNat_of_nonneg (by omega)]
      exact h
    obtain ⟨R, R', h₁, h₂, hR, hle⟩ := round_settle_le .positive (by omega) (by omega) hmag
    rw [normalize_of_pos hM, normalize_of_pos hM'', h₁, h₂]
    exact rankLE_settle_positive hR hle

/-! ## Packing -/

/-- A subnormal double is packed and unpacked unchanged. -/
theorem unpack_pack_subnormal (s : Sign) {m : Nat} (hm : 0 < m) (hlt : m < 2 ^ 52) :
    (Float.Model.pack (.finite s m (-1074) hm)).unpack = .finite s m (-1074) hm := by
  have hl : m.log2 < 52 := (Nat.log2_lt (by omega)).2 hlt
  have hn : ¬2 ^ Format.binary64.exponentBits ≤
      ((-1074 : Int) + Format.binary64.exponentBias +
        Format.binary64.mantissaBitsWithoutImplicit).toNat + 1 := by
    decide
  simp only [Float.Model.pack, Float.Model.unpack, UInt64.toBitVec_ofBitVec, UnpackedFloat.pack,
    if_neg hn]
  rw [if_neg (show m.log2 + 1 ≠ Format.binary64.mantissaBits by change m.log2 + 1 ≠ 53; omega)]
  simp only [UnpackedFloat.unpack, unpackMantissa_packComponents, unpackExponent_packComponents,
    unpackSign_packComponents]
  have hmant : (BitVec.ofNat 52 m).toNat = m := by
    rw [BitVec.toNat_ofNat, Nat.mod_eq_of_lt hlt]
  have hne : BitVec.ofNat 52 m ≠ 0#52 := by
    intro h
    have := congrArg BitVec.toNat h
    rw [hmant] at this
    simp at this
    omega
  have hs : Sign.ofBitVec s.toBitVec = s := by cases s <;> rfl
  simp [hne, hmant, hs]
  rfl

/-- Packing moves a finite double of exponent above `971` to the infinity of its sign. -/
def overflow : UnpackedFloat → UnpackedFloat
  | .finite s m e h => if 971 < e then .infinity s else .finite s m e h
  | u => u

theorem unpack_pack_settle (s : Sign) {R : Nat} {T : Int} (hT : -1074 ≤ T)
    (hn : -1074 < T → 2 ^ 52 ≤ R) :
    (Float.Model.pack (settle s R T)).unpack = overflow (settle s R T) := by
  unfold settle
  split_ifs with h0 hlt
  · exact unpack_pack_zero s
  · simp only [overflow]
    split_ifs with hover
    · exact unpack_pack_overflow s _ hover
    · rcases lt_or_eq_of_le hT with hT | hT
      · exact unpack_pack_normal s _ (hn hT) hlt hT.le (by omega)
      · -- at the least exponent the mantissa may have fewer than 53 bits
        subst hT
        rcases Nat.lt_or_ge R (2 ^ 52) with hsub | hnorm
        · exact unpack_pack_subnormal s _ hsub
        · exact unpack_pack_normal s _ hnorm hlt (by omega) (by omega)
  · simp only [overflow]
    split_ifs with hover
    · exact unpack_pack_overflow s _ hover
    · exact unpack_pack_normal s _ le_rfl (by decide) (by omega) (by omega)

theorem unpack_pack_round (s : Sign) {m : Nat} (hm : 0 < m) (e : Int) :
    (Float.Model.pack (UnpackedFloat.round .binary64 s m e)).unpack =
      overflow (UnpackedFloat.round .binary64 s m e) := by
  obtain ⟨R, hround, hR⟩ := round_eq_settle_canonical s hm e
  rw [hround]
  exact unpack_pack_settle s (le_max_right _ _) hR

theorem unpack_pack_normalize (M E : Int) (z : Sign) :
    (Float.Model.pack (normalize .binary64 M E z)).unpack = overflow (normalize .binary64 M E z) := by
  rcases lt_trichotomy M 0 with hM | rfl | hM
  · rw [normalize_of_neg hM]
    exact unpack_pack_round _ (by omega) E
  · exact unpack_pack_zero z
  · rw [normalize_of_pos hM]
    exact unpack_pack_round _ (by omega) E

/-- Overflow to the infinities keeps the order. -/
theorem rankLE_overflow {u v : UnpackedFloat} (h : RankLE (unpackedRank u) (unpackedRank v)) :
    RankLE (unpackedRank (overflow u)) (unpackedRank (overflow v)) := by
  rcases u with ⟨_ | _⟩ | _ | ⟨_ | _⟩ | ⟨_ | _, m, e, hm⟩ <;>
    rcases v with ⟨_ | _⟩ | _ | ⟨_ | _⟩ | ⟨_ | _, m', e', hm'⟩ <;>
    simp only [overflow, unpackedRank, RankLE] at h ⊢ <;> grind

theorem isNaN_overflow {u : UnpackedFloat} (h : u.isNaN = false) : (overflow u).isNaN = false := by
  cases u with
  | finite s m e hm =>
    simp only [overflow]
    split <;> rfl
  | _ => exact h

theorem isNaN_settle (s : Sign) (R : Nat) (T : Int) : (settle s R T).isNaN = false := by
  unfold settle
  split_ifs <;> rfl

theorem isNaN_overflow_normalize (M E : Int) (z : Sign) :
    (overflow (normalize .binary64 M E z)).isNaN = false := by
  rcases lt_trichotomy M 0 with hM | rfl | hM
  · obtain ⟨R, hround, -⟩ := round_eq_settle_canonical .negative (show 0 < (-M).toNat by omega) E
    rw [normalize_of_neg hM, hround]
    exact isNaN_overflow (isNaN_settle _ _ _)
  · rfl
  · obtain ⟨R, hround, -⟩ := round_eq_settle_canonical .positive (show 0 < M.toNat by omega) E
    rw [normalize_of_pos hM, hround]
    exact isNaN_overflow (isNaN_settle _ _ _)

/-! ## Values of doubles -/

/-- The value of a zero or a finite unpacked double; the infinities and NaN are given `0`. -/
def unpackedValue : UnpackedFloat → ℚ
  | .finite s m e _ => ((s.apply m : Int) : ℚ) * 2 ^ e
  | _ => 0

/-- A canonical mantissa and exponent, 53 bits or subnormal, round to themselves. -/
theorem round_canonical (s : Sign) {m : Nat} {e : Int} (hm : 0 < m) (hlt : m < 2 ^ 53)
    (he : -1074 ≤ e) (hc : 2 ^ 52 ≤ m ∨ e = -1074) :
    UnpackedFloat.round .binary64 s m e = .finite s m e hm := by
  have hlog : m.log2 ≤ 52 := Nat.le_of_lt_succ ((Nat.log2_lt (by omega)).2 hlt)
  have htarget : target m e = e := by
    unfold target
    rcases hc with hc | hc
    · have : 52 ≤ m.log2 := (Nat.le_log2 (by omega)).2 hc
      omega
    · omega
  obtain ⟨em, hrep, hround⟩ := round_eq_settle s hm e
  rw [htarget, mul_div_cancel_right₀ _ (zpow_ne_zero e (by norm_num))] at hrep
  -- the value is the mantissa itself, so nothing is rounded away
  have hR : em.roundedMantissa = m := Nat.le_antisymm
    (hrep.roundedMantissa_mono (represents_exact m) le_rfl)
    ((represents_exact m).roundedMantissa_mono hrep le_rfl)
  rw [hround, hR, htarget]
  unfold settle
  rw [dif_neg (by omega), if_pos hlt]

/-- A double's own mantissa and exponent round to the double itself. -/
theorem round_unpack {a : Float.Model} {s : Sign} {m : Nat} {e : Int} {hm : 0 < m}
    (h : a.unpack = .finite s m e hm) : UnpackedFloat.round .binary64 s m e = .finite s m e hm :=
  round_canonical s hm (mantissa_lt_of_unpack h) (unpack_canonical h).1 (unpack_canonical h).2

theorem normalize_apply (s : Sign) {m : Nat} (hm : 0 < m) (E : Int) (z : Sign) :
    normalize .binary64 (s.apply m) E z = UnpackedFloat.round .binary64 s m E := by
  cases s with
  | negative => rw [Sign.apply, normalize_of_neg (by omega), neg_neg, Int.toNat_natCast]
  | positive => rw [Sign.apply, normalize_of_pos (by omega), Int.toNat_natCast]

theorem value_shiftLeft (s : Sign) (m : Nat) {e E : Int} (hE : E ≤ e) :
    ((s.apply ↑(m <<< (e - E).toNat) : Int) : ℚ) * 2 ^ E = ((s.apply m : Int) : ℚ) * 2 ^ e := by
  have hsplit : (2 : ℚ) ^ e = 2 ^ (e - E).toNat * 2 ^ E := by
    rw [← zpow_natCast, ← zpow_add₀ (by norm_num), Int.toNat_of_nonneg (by omega)]
    congr 1
    omega
  rw [hsplit, Nat.shiftLeft_eq]
  cases s <;> simp only [Sign.apply] <;> push_cast <;> ring

/-- The sum of two zeros or finite doubles is a signed mantissa, rounded, whose value is the
exact sum. -/
theorem add_eq_normalize {a c : Float.Model} (ha : a.unpack.isFinite = true)
    (hc : c.unpack.isFinite = true) :
    ∃ M E z, UnpackedFloat.add .binary64 a.unpack c.unpack = normalize .binary64 M E z ∧
      (M : ℚ) * 2 ^ E = unpackedValue a.unpack + unpackedValue c.unpack := by
  rcases hua : a.unpack with _ | _ | s | ⟨s, m, e, hm⟩ <;> rw [hua] at ha <;> cases ha
  all_goals
    rcases huc : c.unpack with _ | _ | t | ⟨t, m', e', hm'⟩ <;> rw [huc] at hc <;> cases hc
  · -- two zeros
    refine ⟨0, 0, if s == t then s else .positive, ?_, by simp [unpackedValue]⟩
    simp only [UnpackedFloat.add, normalize_zero]
    split <;> rfl
  · -- a zero and a finite double: the double itself, which rounds to itself
    refine ⟨t.apply m', e', .positive, ?_, by simp [unpackedValue]⟩
    rw [normalize_apply t hm', round_unpack huc]
    rfl
  · refine ⟨s.apply m, e, .positive, ?_, by simp [unpackedValue]⟩
    rw [normalize_apply s hm, round_unpack hua]
    rfl
  · -- two finite doubles: both brought to the smaller exponent
    refine ⟨_, _, _, rfl, ?_⟩
    simp only [unpackedValue]
    rw [Int.cast_add, add_mul, value_shiftLeft s m (min_le_left e e'),
      value_shiftLeft t m' (min_le_right e e')]

/-- Of two canonical magnitudes, the one with the larger key is the larger value. -/
theorem magnitude_le {m m' : Nat} {e e' : Int} (hm : m < 2 ^ 53) (he : -1074 ≤ e)
    (hc' : 2 ^ 52 ≤ m' ∨ e' = -1074) (h : e < e' ∨ e = e' ∧ m ≤ m') :
    (m : ℚ) * 2 ^ e ≤ m' * 2 ^ e' := by
  rcases h with h | ⟨rfl, h⟩
  · -- a higher exponent is that of a 53-bit mantissa, which outweighs any lower one
    have hm' : (2 : ℚ) ^ 52 ≤ m' := by exact_mod_cast hc'.resolve_right (by omega)
    calc (m : ℚ) * 2 ^ e ≤ 2 ^ 53 * 2 ^ e :=
          mul_le_mul_of_nonneg_right (by exact_mod_cast hm.le) (zpow_nonneg (by norm_num) _)
      _ = 2 ^ 52 * 2 ^ (e + 1) := by
          rw [zpow_add_one₀ (by norm_num)]
          ring
      _ ≤ m' * 2 ^ e' :=
          mul_le_mul hm' (zpow_le_zpow_right₀ (by norm_num) (by omega))
            (zpow_nonneg (by norm_num) _) (Nat.cast_nonneg _)
  · exact mul_le_mul_of_nonneg_right (by exact_mod_cast h) (zpow_nonneg (by norm_num) _)

/-- Zeros and finite doubles in order have values in order. -/
theorem value_le_of_rankLE {a b : Float.Model} (ha : a.unpack.isFinite = true)
    (hb : b.unpack.isFinite = true) (h : RankLE (unpackedRank a.unpack) (unpackedRank b.unpack)) :
    unpackedValue a.unpack ≤ unpackedValue b.unpack := by
  rcases hua : a.unpack with _ | _ | s | ⟨s, m, e, hm⟩ <;> rw [hua] at ha h <;> cases ha
  all_goals
    rcases hub : b.unpack with _ | _ | t | ⟨t, m', e', hm'⟩ <;> rw [hub] at hb h <;> cases hb
  · simp [unpackedValue]
  · -- a zero below a finite double: the double is positive
    cases t with
    | negative => simp [unpackedRank, RankLE] at h
    | positive =>
      simp only [unpackedValue, Sign.apply, Int.cast_natCast]
      positivity
  · -- a finite double below a zero: the double is negative
    cases s with
    | negative =>
      simp only [unpackedValue, Sign.apply, Int.cast_neg, Int.cast_natCast, neg_mul, neg_nonpos]
      positivity
    | positive => simp [unpackedRank, RankLE] at h
  · have hca := unpack_canonical hua
    have hcb := unpack_canonical hub
    have hma := mantissa_lt_of_unpack hua
    have hmb := mantissa_lt_of_unpack hub
    cases s <;> cases t <;> simp only [unpackedRank, RankLE] at h <;>
      simp only [unpackedValue, Sign.apply]
    · -- two negative values: the magnitudes compare the other way
      have := magnitude_le hmb hcb.1 hca.2 (by omega)
      push_cast
      linarith
    · have h₁ : (0 : ℚ) ≤ m * 2 ^ e := by positivity
      have h₂ : (0 : ℚ) ≤ m' * 2 ^ e' := by positivity
      push_cast
      linarith
    · omega
    · have := magnitude_le hma hca.1 hcb.2 (by omega)
      push_cast
      exact this

/-! ## Sums -/

theorem rankLE_negInf (u : UnpackedFloat) :
    RankLE (unpackedRank (.infinity .negative)) (unpackedRank u) := by
  rcases u with ⟨_ | _⟩ | _ | ⟨_ | _⟩ | ⟨_ | _, m, e, hm⟩ <;> simp [unpackedRank, RankLE]

theorem rankLE_posInf (u : UnpackedFloat) :
    RankLE (unpackedRank u) (unpackedRank (.infinity .positive)) := by
  rcases u with ⟨_ | _⟩ | _ | ⟨_ | _⟩ | ⟨_ | _, m, e, hm⟩ <;> simp [unpackedRank, RankLE]

theorem add_infinity {u : UnpackedFloat} (hu : u.isFinite = true) (s : Sign) :
    UnpackedFloat.add .binary64 (.infinity s) u = .infinity s := by
  rcases u with _ | _ | t | ⟨t, m, e, hm⟩ <;> cases hu <;> cases s <;> rfl

/-- An infinity plus a finite double is that infinity. -/
theorem unpack_add_infinity {a c : Float} {s : Sign} (ha : a.toModel.unpack = .infinity s)
    (hc : c.isFinite = true) : (a + c).toModel.unpack = .infinity s := by
  show (Float.Model.pack (UnpackedFloat.add .binary64 a.toModel.unpack c.toModel.unpack)).unpack = _
  rw [ha, add_infinity hc, unpack_pack_infinity]

/-- The sum of a zero or a finite double and a finite double is their exact sum rounded, or an
infinity where that overflows. -/
theorem unpack_add_eq_overflow {a c : Float} (ha : a.isFinite = true) (hc : c.isFinite = true) :
    ∃ M E z, (a + c).toModel.unpack = overflow (normalize .binary64 M E z) ∧
      (M : ℚ) * 2 ^ E = unpackedValue a.toModel.unpack + unpackedValue c.toModel.unpack := by
  obtain ⟨M, E, z, hadd, hval⟩ := add_eq_normalize ha hc
  refine ⟨M, E, z, ?_, hval⟩
  show (Float.Model.pack (UnpackedFloat.add .binary64 a.toModel.unpack c.toModel.unpack)).unpack = _
  rw [hadd, unpack_pack_normalize]

theorem isNaN_add {a c : Float} (ha : a.isNaN = false) (hc : c.isFinite = true) :
    (a + c).isNaN = false := by
  show (a + c).toModel.unpack.isNaN = false
  cases hfin : a.isFinite
  · -- neither NaN nor finite: an infinity, which the sum keeps
    obtain ⟨s, hs⟩ : ∃ s, a.toModel.unpack = .infinity s := by
      change a.toModel.unpack.isNaN = false at ha
      change a.toModel.unpack.isFinite = false at hfin
      rcases hua : a.toModel.unpack with s | _ | _ | _ <;> rw [hua] at ha hfin <;> cases ha <;>
        cases hfin
      exact ⟨s, rfl⟩
    rw [unpack_add_infinity hs hc]
    rfl
  · obtain ⟨M, E, z, hsum, -⟩ := unpack_add_eq_overflow hfin hc
    rw [hsum]
    exact isNaN_overflow_normalize M E z

/-- Two doubles in order, neither NaN, the lower not the negative infinity and the upper not
the positive one, are zeros or finite. -/
theorem isFinite_of_rankLE {u v : UnpackedFloat} (hu : u.isNaN = false) (hv : v.isNaN = false)
    (h : RankLE (unpackedRank u) (unpackedRank v)) (hu' : u ≠ .infinity .negative)
    (hv' : v ≠ .infinity .positive) : u.isFinite = true ∧ v.isFinite = true := by
  rcases u with ⟨_ | _⟩ | _ | ⟨_ | _⟩ | ⟨_ | _, m, e, hm⟩ <;>
    rcases v with ⟨_ | _⟩ | _ | ⟨_ | _⟩ | ⟨_ | _, m', e', hm'⟩
  all_goals simp_all [unpackedRank, RankLE, UnpackedFloat.isFinite, UnpackedFloat.isNaN]

/-- **Adding a finite double keeps the order.** -/
theorem add_le_add_right_of_le {a b c : Float} (hab : a ≤ b) (hc : c.isFinite = true) :
    a + c ≤ b + c := by
  obtain ⟨ha, hb, h⟩ := le_iff_rank.1 hab
  refine le_iff_rank.2 ⟨isNaN_add ha hc, isNaN_add hb hc, ?_⟩
  simp only [rank] at h ⊢
  by_cases hna : a.toModel.unpack = .infinity .negative
  · rw [unpack_add_infinity hna hc]
    exact rankLE_negInf _
  by_cases hpb : b.toModel.unpack = .infinity .positive
  · rw [unpack_add_infinity hpb hc]
    exact rankLE_posInf _
  -- otherwise both are zeros or finite: the exact sums compare as the operands do, and
  -- rounding keeps that order
  obtain ⟨hfa, hfb⟩ := isFinite_of_rankLE ha hb h hna hpb
  obtain ⟨M, E, z, hsa, hva⟩ := unpack_add_eq_overflow hfa hc
  obtain ⟨M', E', z', hsb, hvb⟩ := unpack_add_eq_overflow hfb hc
  rw [hsa, hsb]
  refine rankLE_overflow (rankLE_normalize ?_ z z')
  have hab : unpackedValue a.toModel.unpack ≤ unpackedValue b.toModel.unpack :=
    value_le_of_rankLE hfa hfb h
  rw [hva, hvb]
  linarith

end Real64

end Seaway
