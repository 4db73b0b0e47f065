import Mathlib
import Seaway.Proofs.Rounding

/-!
# A step along a segment stays between its ends

Interpolating between two doubles `a` and `b` by a weight `w` computes `a + (b - a) * w` with
three roundings. For a weight `0 ≤ w < 1` and a finite difference the result never leaves the
closed interval between `a` and `b` (`lerp_between`); a weight of one may, as `a + (b - a)` can
round past `b`. In the logical model of `Float`:

* `Rounds u x`: `u` is the value `x` rounded. Each operation on finite doubles is its exact
  result rounded (`rounds_add`, `rounds_sub`, `rounds_mul`), and rounding is monotone
  (`Rounds.rankLE`) and depends on the value alone (`round_congr`);
* `normalize_small`: a difference below `2 ^ -1021` is exact;
* `Rounds.rankLT_of_le`: a normal double times a weight below one rounds strictly lower, and
  `Rounds.rankLT_of_ge` is its mirror for a negative double;
* so the product `(b - a) * w` never passes the exact difference, and adding it to `a` stays
  between `a` and `b` (`lerp_mem_of_le`, `lerp_mem_of_ge`);
* `isZero_or_isNaN_sub_self`, `isNaN_div`: a weight `(x - x) / (x - x)` is NaN, and NaN passes
  through a product and a sum.
-/

namespace Seaway

namespace Real64

open Float.Model UnpackedFloat

/-! ## The model's rounding -/

theorem exponent_le_of_unpack {a : Float.Model} {s : Sign} {m : Nat} {e : Int} {hm : 0 < m}
    (h : a.unpack = .finite s m e hm) : e ≤ 971 := by
  unfold Float.Model.unpack UnpackedFloat.unpack at h
  dsimp only at h
  split at h
  · split at h <;> cases h
  · rename_i hinf
    split at h
    · rename_i hzero
      split at h
      · cases h
      · cases h
        simp only [hzero, BitVec.toNat_ofNat]
        decide
    · cases h
      have hlt := (@unpackExponent .binary64 a.toBits.toBitVec).isLt
      have hne : (@unpackExponent .binary64 a.toBits.toBitVec).toNat ≠ 2047 := fun h2 =>
        hinf (BitVec.eq_of_toNat_eq (by simpa using h2))
      change _ < 2 ^ 11 at hlt
      change ((@unpackExponent .binary64 a.toBits.toBitVec).toNat : Int) - (1023 + 52) ≤ 971
      omega

theorem overflow_unpack (a : Float.Model) : overflow a.unpack = a.unpack := by
  rcases h : a.unpack with _ | _ | _ | ⟨s, m, e, hm⟩ <;> simp only [overflow]
  rw [if_neg (by have := exponent_le_of_unpack h; omega)]

/-- Rounding depends on the value alone. -/
theorem round_congr (s : Sign) {m m' : Nat} (hm : 0 < m) (hm' : 0 < m') {e e' : Int}
    (h : (m : ℚ) * 2 ^ e = m' * 2 ^ e') :
    UnpackedFloat.round .binary64 s m e = UnpackedFloat.round .binary64 s m' e' := by
  obtain ⟨em, hrep, hround⟩ := round_eq_settle s hm e
  obtain ⟨em', hrep', hround'⟩ := round_eq_settle s hm' e'
  have hT : target m e = target m' e' := le_antisymm (target_mono hm h.le) (target_mono hm' h.ge)
  rw [h, hT] at hrep
  rw [hround, hround', hT, Nat.le_antisymm (hrep.roundedMantissa_mono hrep' le_rfl)
    (hrep'.roundedMantissa_mono hrep le_rfl)]

/-! ## Rounded values -/

/-- The value of a zero or finite double. -/
def value (a : Float) : ℚ := unpackedValue a.toModel.unpack

/-- `u` is the value `x`, written as a signed mantissa at an exponent, rounded to nearest with
ties to even and sent to the infinity of its sign where it overflows. -/
def Rounds (u : UnpackedFloat) (x : ℚ) : Prop :=
  ∃ M E z, u = overflow (normalize .binary64 M E z) ∧ (M : ℚ) * 2 ^ E = x

section Rounds

variable {u v : UnpackedFloat} {x y : ℚ}

/-- Larger values round to doubles no lower. -/
theorem Rounds.rankLE (hu : Rounds u x) (hv : Rounds v y) (h : x ≤ y) :
    RankLE (unpackedRank u) (unpackedRank v) := by
  obtain ⟨M, E, z, rfl, rfl⟩ := hu
  obtain ⟨M', E', z', rfl, rfl⟩ := hv
  exact rankLE_overflow (rankLE_normalize h z z')

theorem Rounds.isNaN (hu : Rounds u x) : u.isNaN = false := by
  obtain ⟨M, E, z, rfl, -⟩ := hu
  exact isNaN_overflow_normalize M E z

/-- A zero or finite double is its own value rounded. -/
theorem rounds_unpack {a : Float.Model} (ha : a.unpack.isFinite = true) :
    Rounds a.unpack (unpackedValue a.unpack) := by
  rcases hu : a.unpack with _ | _ | s | ⟨s, m, e, hm⟩ <;> rw [hu] at ha <;> cases ha
  · exact ⟨0, 0, s, rfl, by simp [unpackedValue]⟩
  · refine ⟨s.apply m, e, .positive, ?_, rfl⟩
    rw [normalize_apply s hm, round_unpack hu, ← hu, overflow_unpack]

end Rounds

/-! ## The operations on doubles -/

/-- The difference of two zeros or finite doubles is a signed mantissa at an exponent of at
least `-1074`, rounded, whose value is the exact difference. -/
theorem sub_eq_normalize {a c : Float.Model} (ha : a.unpack.isFinite = true)
    (hc : c.unpack.isFinite = true) :
    ∃ M E z, -1074 ≤ E ∧ UnpackedFloat.sub .binary64 a.unpack c.unpack = normalize .binary64 M E z ∧
      (M : ℚ) * 2 ^ E = unpackedValue a.unpack - unpackedValue c.unpack := by
  rcases hua : a.unpack with _ | _ | s | ⟨s, m, e, hm⟩ <;> rw [hua] at ha <;> cases ha
  all_goals
    rcases huc : c.unpack with _ | _ | t | ⟨t, m', e', hm'⟩ <;> rw [huc] at hc <;> cases hc
  · -- two zeros
    refine ⟨0, 0, if s == -t then s else .positive, by decide, ?_, by simp [unpackedValue]⟩
    simp only [UnpackedFloat.sub, normalize_zero]
    split <;> rfl
  · -- a zero less a finite double: the double negated, which rounds to itself
    obtain ⟨he', hc'⟩ := unpack_canonical huc
    refine ⟨(-t).apply m', e', .positive, he', ?_, ?_⟩
    · rw [normalize_apply _ hm', round_canonical _ hm' (mantissa_lt_of_unpack huc) he' hc']
      rfl
    · cases t <;> simp [unpackedValue, Sign.apply]
  · obtain ⟨he, -⟩ := unpack_canonical hua
    refine ⟨s.apply m, e, .positive, he, ?_, by simp [unpackedValue]⟩
    rw [normalize_apply s hm, round_unpack hua]
    rfl
  · -- two finite doubles: both brought to the smaller exponent
    refine ⟨_, _, _, le_min (unpack_canonical hua).1 (unpack_canonical huc).1, rfl, ?_⟩
    simp only [unpackedValue]
    rw [Int.cast_sub, sub_mul, value_shiftLeft s m (min_le_left e e'),
      value_shiftLeft t m' (min_le_right e e')]

/-- Rounding moves nothing down when the exponent is already at or below its target. -/
theorem round_eq_roundWithAccuracy (s : Sign) (m : Nat) {e : Int} (h : e ≤ target m e) :
    UnpackedFloat.round .binary64 s m e = roundWithAccuracy .binary64 s m e .exact := by
  unfold UnpackedFloat.round decreaseExponent
  rw [targetExponent_eq]
  have hd : (e - target m e).toNat = 0 := by omega
  simp only [hd, Nat.shiftLeft_zero, Nat.cast_zero, sub_zero]

/-- The product of two canonical mantissas is at or below its target exponent: it has 53 bits
or more unless both factors are subnormal, and then its exponent is far below the least. -/
theorem le_target_mul {m m' : Nat} {e e' : Int} (hm : 0 < m) (hm' : 0 < m')
    (hc : 2 ^ 52 ≤ m ∨ e = -1074) (hc' : 2 ^ 52 ≤ m' ∨ e' = -1074) :
    e + e' ≤ target (m * m') (e + e') := by
  have hlog : 2 ^ 52 ≤ m * m' → 52 ≤ (m * m').log2 := fun h =>
    (Nat.le_log2 (Nat.mul_ne_zero (by omega) (by omega))).2 h
  unfold target
  rcases hc with hc | hc
  · have := hlog (Nat.le_trans hc (Nat.le_mul_of_pos_right m hm'))
    omega
  rcases hc' with hc' | hc'
  · have := hlog (Nat.le_trans hc' (Nat.le_mul_of_pos_left m' hm))
    omega
  omega

theorem apply_mul (s t : Sign) (m m' : Nat) :
    (((s * t).apply ((m * m' : Nat) : Int) : Int) : ℚ) =
      ((s.apply m : Int) : ℚ) * ((t.apply m' : Int) : ℚ) := by
  cases s <;> cases t <;> simp [Sign.apply]

/-- The product of two zeros or finite doubles is a signed mantissa, rounded, whose value is the
exact product. -/
theorem mul_eq_normalize {a c : Float.Model} (ha : a.unpack.isFinite = true)
    (hc : c.unpack.isFinite = true) :
    ∃ M E z, UnpackedFloat.mul .binary64 a.unpack c.unpack = normalize .binary64 M E z ∧
      (M : ℚ) * 2 ^ E = unpackedValue a.unpack * unpackedValue c.unpack := by
  rcases hua : a.unpack with _ | _ | s | ⟨s, m, e, hm⟩ <;> rw [hua] at ha <;> cases ha
  all_goals
    rcases huc : c.unpack with _ | _ | t | ⟨t, m', e', hm'⟩ <;> rw [huc] at hc <;> cases hc
  -- a zero factor gives a zero
  · exact ⟨0, 0, s * t, rfl, by simp [unpackedValue]⟩
  · exact ⟨0, 0, s * t, rfl, by simp [unpackedValue]⟩
  · exact ⟨0, 0, s * t, rfl, by simp [unpackedValue]⟩
  · -- two finite doubles: the product of the mantissas, rounded once
    refine ⟨(s * t).apply ((m * m' : Nat) : Int), e + e', .positive, ?_, ?_⟩
    · rw [normalize_apply _ (Nat.mul_pos hm hm'), round_eq_roundWithAccuracy _ _
        (le_target_mul hm hm' (unpack_canonical hua).2 (unpack_canonical huc).2)]
      rfl
    · simp only [unpackedValue]
      rw [apply_mul, zpow_add₀ (by norm_num)]
      ring


section Operations

variable {a c : Float}

theorem rounds_add (ha : a.isFinite = true) (hc : c.isFinite = true) :
    Rounds (a + c).toModel.unpack (value a + value c) :=
  unpack_add_eq_overflow ha hc

theorem rounds_sub (ha : a.isFinite = true) (hc : c.isFinite = true) :
    ∃ M E z, -1074 ≤ E ∧ (a - c).toModel.unpack = overflow (normalize .binary64 M E z) ∧
      (M : ℚ) * 2 ^ E = value a - value c := by
  obtain ⟨M, E, z, hE, hsub, hval⟩ := sub_eq_normalize ha hc
  refine ⟨M, E, z, hE, ?_, hval⟩
  show (Float.Model.pack (UnpackedFloat.sub .binary64 a.toModel.unpack c.toModel.unpack)).unpack = _
  rw [hsub, unpack_pack_normalize]

theorem rounds_mul (ha : a.isFinite = true) (hc : c.isFinite = true) :
    Rounds (a * c).toModel.unpack (value a * value c) := by
  obtain ⟨M, E, z, hmul, hval⟩ := mul_eq_normalize ha hc
  refine ⟨M, E, z, ?_, hval⟩
  show (Float.Model.pack (UnpackedFloat.mul .binary64 a.toModel.unpack c.toModel.unpack)).unpack = _
  rw [hmul, unpack_pack_normalize]

/-- A finite difference is that of two finite doubles: an infinity or NaN operand gives an
infinity or NaN. -/
theorem isFinite_of_sub (h : (c - a).isFinite = true) : a.isFinite = true ∧ c.isFinite = true := by
  change (Float.Model.pack (UnpackedFloat.sub .binary64 c.toModel.unpack a.toModel.unpack)).unpack.isFinite
    = true at h
  change a.toModel.unpack.isFinite = true ∧ c.toModel.unpack.isFinite = true
  rcases hc : c.toModel.unpack with _ | t | t | ⟨t, m', e', hm'⟩ <;>
    rcases ha : a.toModel.unpack with _ | s | s | ⟨s, m, e, hm⟩ <;>
    rw [hc, ha] at h <;> simp only [UnpackedFloat.isFinite, and_self]
  all_goals
    simp only [UnpackedFloat.sub] at h
    (try split at h) <;> (try rw [unpack_pack_infinity] at h) <;>
      first | exact absurd h (by decide) | simp [UnpackedFloat.isFinite] at h

end Operations

/-! ## Exact differences near zero -/

/-- A value of at least `2 ^ -1074` units below `2 ^ -1021` is a subnormal double, or a normal
one of the least exponent: it is rounded exactly. -/
theorem round_small (s : Sign) {m : Nat} (hm : 0 < m) {E : Int} (hE : -1074 ≤ E)
    (h : (m : ℚ) * 2 ^ E < 2 ^ (-1021 : Int)) :
    ∃ N hN, UnpackedFloat.round .binary64 s m E = .finite s N (-1074) hN ∧
      (N : ℚ) * 2 ^ (-1074 : Int) = m * 2 ^ E := by
  have hpos : 0 < m * 2 ^ (E + 1074).toNat := Nat.mul_pos hm (Nat.two_pow_pos _)
  have hv : ((m * 2 ^ (E + 1074).toNat : Nat) : ℚ) * 2 ^ (-1074 : Int) = m * 2 ^ E := by
    have hk : ((2 : ℚ) ^ (E + 1074).toNat) = 2 ^ (E + 1074) := by
      rw [← zpow_natCast, Int.toNat_of_nonneg (by omega)]
    rw [Nat.cast_mul, Nat.cast_pow, Nat.cast_ofNat, hk, mul_assoc, ← zpow_add₀ two_ne_zero,
      show E + 1074 + -1074 = E by omega]
  have hN : m * 2 ^ (E + 1074).toNat < 2 ^ 53 := by
    have h53 : (2 : ℚ) ^ (-1021 : Int) = 2 ^ 53 * 2 ^ (-1074 : Int) := by
      rw [← zpow_natCast, ← zpow_add₀ (by norm_num)]
      norm_num
    rw [← hv, h53] at h
    exact_mod_cast lt_of_mul_lt_mul_right h (zpow_nonneg (by norm_num) _)
  exact ⟨_, hpos, (round_congr s hm hpos hv.symm).trans
    (round_canonical s hpos hN le_rfl (.inr rfl)), hv⟩

/-- A signed mantissa whose magnitude rounds to a finite double of the same value is rounded
exactly, whatever its sign. -/
theorem normalize_exact {M E : Int} (z : Sign)
    (h : ∀ s (m : Nat), 0 < m → (m : ℚ) * 2 ^ E = |(M : ℚ) * 2 ^ E| →
      ∃ N e hN, UnpackedFloat.round .binary64 s m E = .finite s N e hN ∧ e ≤ 971 ∧
        (N : ℚ) * 2 ^ e = m * 2 ^ E) :
    (overflow (normalize .binary64 M E z)).isFinite = true ∧
      unpackedValue (overflow (normalize .binary64 M E z)) = M * 2 ^ E := by
  have h2 : (0 : ℚ) < 2 ^ E := zpow_pos (by norm_num) E
  have hfin : ∀ s N e hN, e ≤ 971 → overflow (.finite s N e hN) = .finite s N e hN := by
    intro s N e hN he
    simp only [overflow]
    rw [if_neg (by omega)]
  rcases lt_trichotomy M 0 with hM | rfl | hM
  · have hcast : (((-M).toNat : Nat) : ℚ) = -M := by
      rw [cast_toNat_of_nonneg (by omega)]
      push_cast
      ring
    have hneg : (M : ℚ) * 2 ^ E < 0 := mul_neg_of_neg_of_pos (by exact_mod_cast hM) h2
    obtain ⟨N, e, hN, hround, he, hv⟩ := h .negative (-M).toNat (by omega)
      (by rw [hcast, abs_of_neg hneg]; ring)
    rw [normalize_of_neg hM, hround, hfin _ _ _ _ he]
    refine ⟨rfl, ?_⟩
    simp only [unpackedValue, Sign.apply, Int.cast_neg, Int.cast_natCast, neg_mul]
    rw [hv, hcast]
    ring
  · exact ⟨rfl, by simp [normalize_zero, overflow, unpackedValue]⟩
  · have hcast : ((M.toNat : Nat) : ℚ) = M := cast_toNat_of_nonneg (by omega)
    have hpos : 0 < (M : ℚ) * 2 ^ E := mul_pos (by exact_mod_cast hM) h2
    obtain ⟨N, e, hN, hround, he, hv⟩ := h .positive M.toNat (by omega)
      (by rw [hcast, abs_of_pos hpos])
    rw [normalize_of_pos hM, hround, hfin _ _ _ _ he]
    refine ⟨rfl, ?_⟩
    simp only [unpackedValue, Sign.apply, Int.cast_natCast]
    rw [hv, hcast]

/-- A signed mantissa at an exponent of at least `-1074`, of magnitude below `2 ^ -1021`, rounds
to a finite double of its own value. -/
theorem normalize_small {M E : Int} (hE : -1074 ≤ E) (h : |(M : ℚ) * 2 ^ E| < 2 ^ (-1021 : Int))
    (z : Sign) :
    (overflow (normalize .binary64 M E z)).isFinite = true ∧
      unpackedValue (overflow (normalize .binary64 M E z)) = M * 2 ^ E := by
  refine normalize_exact z (fun s m hm hv => ?_)
  obtain ⟨N, hN, hround, hv'⟩ := round_small s hm hE (by rw [hv]; exact h)
  exact ⟨N, -1074, hN, hround, by norm_num, hv'⟩

/-! ## Shrinking a normal double -/

theorem roundedMantissa_exact (k : Nat) :
    (ExtendedMantissa.ofMantissaAndAccuracy k .exact).roundedMantissa = k := rfl

/-- A positive value at most `m · 2 ^ e · (1 - 2 ^ -53)`, for a normal `m · 2 ^ e` above the
least exponent, rounds to a mantissa and exponent below `m` and `e`. The value stays under the
midpoint between the double and the one below it: at the exponent `e` it is under `m - 1/2`,
and when `m = 2 ^ 52` the double below is `(2 ^ 53 - 1) · 2 ^ (e - 1)`, which it does not pass. -/
theorem round_below (s : Sign) {n m : Nat} (hn : 0 < n) {E e : Int} (hm : 2 ^ 52 ≤ m)
    (hm' : m < 2 ^ 53) (he : -1074 < e) (h : (n : ℚ) * 2 ^ E ≤ m * 2 ^ e * (1 - 2 ^ (-53 : Int))) :
    ∃ R T, UnpackedFloat.round .binary64 s n E = settle s R T ∧ R ≤ 2 ^ 53 ∧
      (T < e ∧ (R < 2 ^ 53 ∨ T + 1 < e ∨ 2 ^ 52 < m) ∨ T = e ∧ R < m) := by
  obtain ⟨em, hrep, hround⟩ := round_eq_settle s hn E
  have h2e : (0 : ℚ) < 2 ^ e := zpow_pos (by norm_num) e
  have h53 : (2 : ℚ) ^ (-53 : Int) = 1 / 2 ^ 53 := by norm_num
  have hmq : (2 : ℚ) ^ 52 ≤ m := by exact_mod_cast hm
  -- the value in units of `2 ^ e`
  have hX : (n : ℚ) * 2 ^ E / 2 ^ e ≤ m * (1 - 2 ^ (-53 : Int)) := by
    rw [div_le_iff₀ h2e]
    linarith
  have hme : target m e = e := by
    have : m.log2 = 52 := (Nat.log2_eq_iff (by omega)).2 ⟨hm, hm'⟩
    unfold target
    omega
  have hT : target n E ≤ e := by
    refine hme ▸ target_mono hn (h.trans ?_)
    have : (0 : ℚ) ≤ m * 2 ^ e * 2 ^ (-53 : Int) := by positivity
    linarith
  have hR : em.roundedMantissa ≤ 2 ^ 53 := hrep.roundedMantissa_mono (represents_exact (2 ^ 53))
    (by exact_mod_cast (div_target_lt n E).le)
  refine ⟨_, _, hround, hR, ?_⟩
  rcases lt_or_eq_of_le hT with hlt | heq
  · refine .inl ⟨hlt, ?_⟩
    by_cases hcase : target n E + 1 < e ∨ 2 ^ 52 < m
    · exact .inr hcase
    · -- one exponent below `2 ^ 52 · 2 ^ e`, the value is at most `2 ^ 53 - 1` units
      have hT1 : target n E = e - 1 := by omega
      have hm52 : (m : ℚ) = 2 ^ 52 := by exact_mod_cast (show m = 2 ^ 52 by omega)
      have hle : (n : ℚ) * 2 ^ E / 2 ^ target n E ≤ ((2 ^ 53 - 1 : Nat) : ℚ) := by
        have hdiv : (n : ℚ) * 2 ^ E / 2 ^ (e - 1) = (n : ℚ) * 2 ^ E / 2 ^ e * 2 := by
          rw [zpow_sub_one₀ two_ne_zero]
          field_simp
        rw [hT1, hdiv]
        rw [hm52, h53] at hX
        push_cast
        linarith
      have hR' := hrep.roundedMantissa_mono (represents_exact _) hle
      rw [roundedMantissa_exact] at hR'
      exact .inl (Nat.lt_of_le_of_lt hR' (by norm_num))
  · -- at the exponent `e` the value is below `m - 1/2`, so it rounds to at most `m - 1`
    refine .inr ⟨heq, ?_⟩
    have h52 := le_div_target hn (show -1074 < target n E by omega)
    rw [heq] at h52 hrep
    have hm1 : (2 : ℚ) ^ 52 + 1 ≤ m := by
      by_contra hc
      have : (m : ℚ) = 2 ^ 52 := by
        have : m < 2 ^ 52 + 1 := by exact_mod_cast not_le.1 hc
        exact_mod_cast (show m = 2 ^ 52 by omega)
      rw [this, h53] at hX
      linarith
    have hhalf : (n : ℚ) * 2 ^ E / 2 ^ e < (m - 1 : Nat) + 1 / 2 := by
      rw [Nat.cast_sub (by omega), h53] at *
      push_cast
      nlinarith
    obtain ⟨hb₁, -⟩ := hrep.bounds
    have hmant : em.mantissa ≤ m - 1 := by
      have : (em.mantissa : ℚ) < (m - 1 : Nat) + 1 := by linarith
      exact Nat.lt_succ_iff.1 (by exact_mod_cast this)
    rcases Nat.lt_or_ge em.mantissa (m - 1) with hlt | hge
    · have := roundedMantissa_le em
      omega
    · have heqm : em.mantissa = m - 1 := by omega
      rw [hrep.roundedMantissa_of_lt (by rw [heqm]; exact hhalf), heqm]
      omega

theorem rankLT_settle_positive {R m : Nat} {T e : Int} (hR : R ≤ 2 ^ 53) (hm : m < 2 ^ 53)
    (he : e ≤ 971)
    (h : T < e ∧ (R < 2 ^ 53 ∨ T + 1 < e ∨ 2 ^ 52 < m) ∨ T = e ∧ R < m) :
    RankLT (unpackedRank (overflow (settle .positive R T))) (3, e, m) := by
  unfold settle
  split_ifs <;> simp only [overflow] <;> (try split_ifs) <;>
    simp only [unpackedRank, RankLT, true_and] <;> omega

theorem rankLT_settle_negative {R m : Nat} {T e : Int} (hR : R ≤ 2 ^ 53) (hm : m < 2 ^ 53)
    (he : e ≤ 971)
    (h : T < e ∧ (R < 2 ^ 53 ∨ T + 1 < e ∨ 2 ^ 52 < m) ∨ T = e ∧ R < m) :
    RankLT (1, -e, -m) (unpackedRank (overflow (settle .negative R T))) := by
  unfold settle
  split_ifs <;> simp only [overflow] <;> (try split_ifs) <;>
    simp only [unpackedRank, RankLT, true_and] <;> omega

section Shrink

variable {u : UnpackedFloat} {x : ℚ} {m : Nat} {e : Int}

/-- **A positive normal double shrunk by a factor below one rounds strictly lower.** -/
theorem Rounds.rankLT_of_le (hu : Rounds u x) (hm : 2 ^ 52 ≤ m) (hm' : m < 2 ^ 53)
    (he : -1074 < e) (he' : e ≤ 971) (hx₀ : 0 ≤ x) (hx : x ≤ m * 2 ^ e * (1 - 2 ^ (-53 : Int))) :
    RankLT (unpackedRank u) (3, e, m) := by
  obtain ⟨M, E, z, rfl, rfl⟩ := hu
  rcases lt_trichotomy M 0 with hM | rfl | hM
  · have : (M : ℚ) * 2 ^ E < 0 :=
      mul_neg_of_neg_of_pos (by exact_mod_cast hM) (zpow_pos (by norm_num) E)
    linarith
  · simp [normalize_zero, overflow, unpackedRank, RankLT]
  · obtain ⟨R, T, hround, hR, hc⟩ := round_below .positive (show 0 < M.toNat by omega) hm hm' he
      (by rw [cast_toNat_of_nonneg hM.le]; exact hx)
    rw [normalize_of_pos hM, hround]
    exact rankLT_settle_positive hR hm' he' hc

/-- **A negative normal double shrunk by a factor below one rounds strictly higher.** -/
theorem Rounds.rankLT_of_ge (hu : Rounds u x) (hm : 2 ^ 52 ≤ m) (hm' : m < 2 ^ 53)
    (he : -1074 < e) (he' : e ≤ 971) (hx₀ : x ≤ 0) (hx : -(m * 2 ^ e * (1 - 2 ^ (-53 : Int))) ≤ x) :
    RankLT (1, -e, -m) (unpackedRank u) := by
  obtain ⟨M, E, z, rfl, rfl⟩ := hu
  rcases lt_trichotomy M 0 with hM | rfl | hM
  · obtain ⟨R, T, hround, hR, hc⟩ := round_below .negative (show 0 < (-M).toNat by omega) hm hm' he
      (show (((-M).toNat : Nat) : ℚ) * 2 ^ E ≤ _ by
        rw [cast_toNat_of_nonneg (by omega)]; push_cast; linarith)
    rw [normalize_of_neg hM, hround]
    exact rankLT_settle_negative hR hm' he' hc
  · simp [normalize_zero, overflow, unpackedRank, RankLT]
  · have : 0 < (M : ℚ) * 2 ^ E := mul_pos (by exact_mod_cast hM) (zpow_pos (by norm_num) E)
    linarith

end Shrink

/-- A weight `0 ≤ w < 1` is zero or a finite double of value at most `1 - 2 ^ -53`, the double
just below one. -/
theorem value_mem_of_lt_one {w : Float} (hw₀ : 0.0 ≤ w) (hw₁ : w < 1.0) :
    w.isFinite = true ∧ 0 ≤ value w ∧ value w ≤ 1 - 2 ^ (-53 : Int) := by
  obtain ⟨-, hwn, h₀⟩ := le_iff_rank.1 hw₀
  obtain ⟨-, -, h₁⟩ := lt_iff_rank.1 hw₁
  have hzero : rank 0.0 = (2, 0, 0) := rfl
  have hone : rank 1.0 = (3, -52, 2 ^ 52) := rfl
  rw [hzero] at h₀
  rw [hone] at h₁
  simp only [rank] at h₀ h₁
  change w.toModel.unpack.isNaN = false at hwn
  change w.toModel.unpack.isFinite = true ∧ 0 ≤ unpackedValue w.toModel.unpack ∧
    unpackedValue w.toModel.unpack ≤ _
  cases hu : w.toModel.unpack with
  | notANumber => rw [hu] at hwn; cases hwn
  | infinity s => rw [hu] at h₀ h₁; cases s <;> simp [unpackedRank, RankLE, RankLT] at h₀ h₁
  | zero s => exact ⟨rfl, le_rfl, by norm_num [unpackedValue]⟩
  | finite s m e hm =>
    rw [hu] at h₀ h₁
    cases s with
    | negative => simp [unpackedRank, RankLE] at h₀
    | positive =>
      -- below one a positive double has exponent at most `-53`
      simp only [unpackedRank, RankLT] at h₁
      have hc := unpack_canonical hu
      have hlt := mantissa_lt_of_unpack hu
      have he : e ≤ -53 := by omega
      refine ⟨rfl, by simp only [unpackedValue, Sign.apply, Int.cast_natCast]; positivity, ?_⟩
      simp only [unpackedValue, Sign.apply, Int.cast_natCast]
      have hmq : (m : ℚ) ≤ 2 ^ 53 - 1 := by
        have : (m : ℚ) + 1 ≤ 2 ^ 53 := by exact_mod_cast hlt
        linarith
      calc (m : ℚ) * 2 ^ e ≤ (2 ^ 53 - 1) * 2 ^ (-53 : Int) :=
            mul_le_mul hmq (zpow_le_zpow_right₀ (by norm_num) he) (zpow_nonneg (by norm_num) _)
              (by norm_num)
        _ = 1 - 2 ^ (-53 : Int) := by norm_num

/-! ## Between the ends of a segment -/

section Between

variable {a b c r w : Float} {x : ℚ}

/-- What lies between two zeros or finite doubles in order, and is not NaN, is zero or finite. -/
theorem isFinite_of_between {u v t : UnpackedFloat} (hu : u.isFinite = true)
    (ht : t.isFinite = true) (hv : v.isNaN = false) (h₁ : RankLE (unpackedRank u) (unpackedRank v))
    (h₂ : RankLE (unpackedRank v) (unpackedRank t)) : v.isFinite = true := by
  refine (isFinite_of_rankLE hv (by cases t <;> first | rfl | cases ht) h₂ ?_ ?_).1
  · rintro rfl
    rcases u with _ | _ | _ | ⟨_ | _, m, e, hm⟩ <;>
      simp [unpackedRank, RankLE, UnpackedFloat.isFinite] at h₁ hu
  · rintro rfl
    cases ht

theorem Rounds.value_ge (hr : Rounds r.toModel.unpack x) (hrf : r.isFinite = true)
    (hc : c.isFinite = true) (h : value c ≤ x) : value c ≤ value r :=
  value_le_of_rankLE hc hrf ((rounds_unpack hc).rankLE hr h)

theorem Rounds.value_le (hr : Rounds r.toModel.unpack x) (hrf : r.isFinite = true)
    (hc : c.isFinite = true) (h : x ≤ value c) : value r ≤ value c :=
  value_le_of_rankLE hrf hc (hr.rankLE (rounds_unpack hc) h)

/-- A value between two finite doubles rounds to a finite double between them. -/
theorem Rounds.mem (hr : Rounds r.toModel.unpack x) (ha : a.isFinite = true)
    (hb : b.isFinite = true) (h₁ : value a ≤ x) (h₂ : x ≤ value b) :
    r.isFinite = true ∧ value a ≤ value r ∧ value r ≤ value b := by
  have hrf : r.isFinite = true := isFinite_of_between ha hb hr.isNaN
    ((rounds_unpack ha).rankLE hr h₁) (hr.rankLE (rounds_unpack hb) h₂)
  exact ⟨hrf, hr.value_ge hrf ha h₁, hr.value_le hrf hb h₂⟩

theorem le_of_rounds (hr : Rounds r.toModel.unpack x) (hc : c.isFinite = true) (h : value c ≤ x) :
    c ≤ r :=
  le_iff_rank.2 ⟨isNaN_of_isFinite hc, hr.isNaN, (rounds_unpack hc).rankLE hr h⟩

theorem rounds_le (hr : Rounds r.toModel.unpack x) (hc : c.isFinite = true) (h : x ≤ value c) :
    r ≤ c :=
  le_iff_rank.2 ⟨hr.isNaN, isNaN_of_isFinite hc, hr.rankLE (rounds_unpack hc) h⟩

theorem value_zero : value 0.0 = 0 := rfl

theorem isFinite_zero : (0.0 : Float).isFinite = true := rfl

theorem twiceLeastNormal_value : (2 : ℚ) ^ 52 * 2 ^ (-1073 : Int) = 2 ^ (-1021 : Int) := by
  rw [← zpow_natCast, ← zpow_add₀ two_ne_zero]
  norm_num

/-- `± 2 ^ -1021`, twice the least normal double: below it every difference of doubles is
exact. -/
theorem rounds_twiceLeastNormal (s : Sign) :
    Rounds (.finite s (2 ^ 52) (-1073) (Nat.two_pow_pos 52))
      ((s.apply (1 : Nat) : Int) * 2 ^ (-1021 : Int)) := by
  refine ⟨s.apply (2 ^ 52 : Nat), -1073, .positive, ?_, ?_⟩
  · rw [normalize_apply s (Nat.two_pow_pos 52), round_canonical s _ (by norm_num) (by norm_num)
      (.inl le_rfl)]
    simp only [overflow]
    rw [if_neg (by norm_num)]
  · rw [← twiceLeastNormal_value]
    cases s <;> norm_num [Sign.apply]

/-- **Going up a segment by a weight below one stays on it.** For doubles `a ≤ b` whose
difference is finite and a weight `0 ≤ w < 1`, `a + (b - a) * w` lies in `[a, b]`. The product
never passes the exact difference `b - a`: where the difference is below `2 ^ -1021` it is
exact, and above, it rounds to a normal double that the weight shrinks strictly. -/
theorem lerp_mem_of_le (hab : a ≤ b) (hd : (b - a).isFinite = true) (hw₀ : 0.0 ≤ w)
    (hw₁ : w < 1.0) : a ≤ a + (b - a) * w ∧ a + (b - a) * w ≤ b := by
  obtain ⟨ha, hb⟩ := isFinite_of_sub hd
  obtain ⟨hw, hw₀', hw₁'⟩ := value_mem_of_lt_one hw₀ hw₁
  have hvab : value a ≤ value b := value_le_of_rankLE ha hb (le_iff_rank.1 hab).2.2
  obtain ⟨M, E, z, hE, hsub, hval⟩ := rounds_sub hb ha
  have hdr : Rounds (b - a).toModel.unpack (value b - value a) := ⟨M, E, z, hsub, hval⟩
  have hd₀ : 0 ≤ value (b - a) :=
    hdr.value_ge hd isFinite_zero (by rw [value_zero]; linarith)
  -- the product lies between zero and the difference
  have hp := rounds_mul hd hw
  obtain ⟨hpf, hp₀, hpd⟩ := hp.mem isFinite_zero hd
    (by rw [value_zero]; exact mul_nonneg hd₀ hw₀')
    (mul_le_of_le_one_right hd₀ (by linarith [zpow_pos (two_pos (α := ℚ)) (-53 : Int)]))
  rw [value_zero] at hp₀
  -- and it does not pass the exact difference
  have hkey : value ((b - a) * w) ≤ value b - value a := by
    by_cases hsmall : value b - value a < 2 ^ (-1021 : Int)
    · have hexact := (normalize_small hE (by rw [hval, abs_of_nonneg (by linarith)]; exact hsmall)
        z).2
      have : value (b - a) = value b - value a := by
        show unpackedValue (b - a).toModel.unpack = _
        rw [hsub, hexact, hval]
      linarith
    · by_contra hlt
      have h₁ := hdr.rankLE (rounds_unpack hpf) (not_le.1 hlt).le
      have hnorm := (rounds_twiceLeastNormal .positive).rankLE hdr (by
        simpa [Sign.apply] using not_lt.1 hsmall)
      change (b - a).toModel.unpack.isFinite = true at hd
      simp only [value] at hp hd₀ hpd
      rcases hdu : (b - a).toModel.unpack with _ | _ | _ | ⟨_ | _, m, e, hm⟩ <;>
        rw [hdu] at hnorm hd h₁ hd₀ hp hpd <;>
        simp [unpackedRank, RankLE, UnpackedFloat.isFinite] at hnorm hd
      -- a normal positive double, which the weight shrinks strictly
      have hc := unpack_canonical hdu
      have hlt' := hp.rankLT_of_le (hc.2.resolve_right (by omega)) (mantissa_lt_of_unpack hdu)
        (by omega) (exponent_le_of_unpack hdu) (mul_nonneg hd₀ hw₀')
        (mul_le_mul_of_nonneg_left hw₁' hd₀)
      simp only [unpackedRank, RankLE, RankLT] at h₁ hlt'
      omega
  -- the sum of `a` and a product in `[0, b - a]` lies in `[a, b]`
  have hr := rounds_add ha hpf
  exact ⟨le_of_rounds hr ha (by linarith), rounds_le hr hb (by linarith)⟩

/-- **Going down a segment by a weight below one stays on it**: the mirror of
`lerp_mem_of_le` for `b ≤ a`, where the difference and the product are at most zero. -/
theorem lerp_mem_of_ge (hba : b ≤ a) (hd : (b - a).isFinite = true) (hw₀ : 0.0 ≤ w)
    (hw₁ : w < 1.0) : b ≤ a + (b - a) * w ∧ a + (b - a) * w ≤ a := by
  obtain ⟨ha, hb⟩ := isFinite_of_sub hd
  obtain ⟨hw, hw₀', hw₁'⟩ := value_mem_of_lt_one hw₀ hw₁
  have hvba : value b ≤ value a := value_le_of_rankLE hb ha (le_iff_rank.1 hba).2.2
  obtain ⟨M, E, z, hE, hsub, hval⟩ := rounds_sub hb ha
  have hdr : Rounds (b - a).toModel.unpack (value b - value a) := ⟨M, E, z, hsub, hval⟩
  have hd₀ : value (b - a) ≤ 0 :=
    hdr.value_le hd isFinite_zero (by rw [value_zero]; linarith)
  -- the product lies between the difference and zero
  have hp := rounds_mul hd hw
  obtain ⟨hpf, hpd, hp₀⟩ := hp.mem hd isFinite_zero
    (by nlinarith [zpow_pos (two_pos (α := ℚ)) (-53 : Int)])
    (by rw [value_zero]; nlinarith)
  rw [value_zero] at hp₀
  -- and it does not pass the exact difference
  have hkey : value b - value a ≤ value ((b - a) * w) := by
    by_cases hsmall : -2 ^ (-1021 : Int) < value b - value a
    · have hexact := (normalize_small hE (by rw [hval, abs_of_nonpos (by linarith)]; linarith)
        z).2
      have : value (b - a) = value b - value a := by
        show unpackedValue (b - a).toModel.unpack = _
        rw [hsub, hexact, hval]
      linarith
    · by_contra hlt
      have h₁ := (rounds_unpack hpf).rankLE hdr (not_le.1 hlt).le
      have hnorm := hdr.rankLE (rounds_twiceLeastNormal .negative) (by
        simpa [Sign.apply] using not_lt.1 hsmall)
      change (b - a).toModel.unpack.isFinite = true at hd
      simp only [value] at hp hd₀ hpd hw₀' hw₁'
      rcases hdu : (b - a).toModel.unpack with _ | _ | _ | ⟨_ | _, m, e, hm⟩ <;>
        rw [hdu] at hnorm hd h₁ hd₀ hp hpd <;>
        simp [unpackedRank, RankLE, UnpackedFloat.isFinite] at hnorm hd
      -- a normal negative double, which the weight shrinks strictly
      have hc := unpack_canonical hdu
      have hvd : unpackedValue (.finite .negative m e hm) = -(m * 2 ^ e) := by
        simp [unpackedValue, Sign.apply]
      rw [hvd] at hp hd₀
      have hlt' := hp.rankLT_of_ge (hc.2.resolve_right (by omega)) (mantissa_lt_of_unpack hdu)
        (by omega) (exponent_le_of_unpack hdu) (mul_nonpos_of_nonpos_of_nonneg hd₀ hw₀')
        (by nlinarith [mul_le_mul_of_nonpos_left hw₁' hd₀])
      simp only [unpackedRank, RankLE, RankLT] at h₁ hlt'
      omega
  -- the sum of `a` and a product in `[b - a, 0]` lies in `[b, a]`
  have hr := rounds_add ha hpf
  exact ⟨le_of_rounds hr hb (by linarith), rounds_le hr ha (by linarith)⟩

/-- `x` lies in the closed interval between `a` and `b`, whichever is the larger. -/
def Between (a b x : Float) : Prop := a ≤ x ∧ x ≤ b ∨ b ≤ x ∧ x ≤ a

/-- **A step along a segment stays between its ends.** For ends whose difference is finite and
a weight `0 ≤ w < 1`, `a + (b - a) * w` lies between `a` and `b`. -/
theorem lerp_between (hd : (b - a).isFinite = true) (hw₀ : 0.0 ≤ w) (hw₁ : w < 1.0) :
    Between a b (a + (b - a) * w) := by
  obtain ⟨ha, hb⟩ := isFinite_of_sub hd
  rcases le_total (isNaN_of_isFinite ha) (isNaN_of_isFinite hb) with hab | hba
  · exact .inl (lerp_mem_of_le hab hd hw₀ hw₁)
  · exact .inr (lerp_mem_of_ge hba hd hw₀ hw₁)

theorem between_left (ha : a.isNaN = false) (hb : b.isNaN = false) : Between a b a :=
  (le_total ha hb).elim (fun h => .inl ⟨le_refl ha, h⟩) (fun h => .inr ⟨h, le_refl ha⟩)

theorem between_right (ha : a.isNaN = false) (hb : b.isNaN = false) : Between a b b :=
  (le_total ha hb).elim (fun h => .inl ⟨h, le_refl hb⟩) (fun h => .inr ⟨le_refl hb, h⟩)

/-- NaN lies between no two doubles. -/
theorem not_between_of_isNaN {v : Float} (hv : v.isNaN = true) : ¬Between a b v := by
  rintro (⟨h, -⟩ | ⟨h, -⟩) <;> rw [isNaN_right_of_le h] at hv <;> cases hv

end Between

/-! ## NaN -/

theorem unpack_pack_nan : (Float.Model.pack .notANumber).unpack = .notANumber := rfl

/-- A double less itself is a zero, or NaN for an infinity or NaN. -/
theorem isZero_or_isNaN_sub_self (x : Float) : IsZero (x - x) ∨ (x - x).isNaN = true := by
  change IsZero ⟨Float.Model.pack (UnpackedFloat.sub .binary64 x.toModel.unpack x.toModel.unpack)⟩ ∨
    (Float.Model.pack (UnpackedFloat.sub .binary64 x.toModel.unpack x.toModel.unpack)).unpack.isNaN
      = true
  cases x.toModel.unpack with
  | notANumber => exact .inr rfl
  | infinity s => exact .inr (by cases s <;> rfl)
  | zero s => exact .inl (isZero_pack (by cases s <;> exact ⟨_, rfl⟩))
  | finite s m e hm =>
    exact .inl (isZero_pack ⟨.positive, by simp [UnpackedFloat.sub, UnpackedFloat.normalize]⟩)

theorem unpack_nan_of_isNaN {c : Float} (hc : c.isNaN = true) : c.toModel.unpack = .notANumber := by
  change c.toModel.unpack.isNaN = true at hc
  cases h : c.toModel.unpack <;> rw [h] at hc <;> first | rfl | cases hc

/-- A zero or NaN divided by a zero or NaN is NaN. -/
theorem isNaN_div {a b : Float} (ha : IsZero a ∨ a.isNaN = true) (hb : IsZero b ∨ b.isNaN = true) :
    (a / b).isNaN = true := by
  change (Float.Model.pack (UnpackedFloat.div .binary64 a.toModel.unpack b.toModel.unpack)).unpack.isNaN
    = true
  rcases ha with ⟨s, ha⟩ | ha <;> rcases hb with ⟨t, hb⟩ | hb
  · rw [ha, hb]
    simp [UnpackedFloat.div, unpack_pack_nan]
  · rw [unpack_nan_of_isNaN hb]
    cases a.toModel.unpack <;> simp [UnpackedFloat.div, unpack_pack_nan]
  all_goals
    rw [unpack_nan_of_isNaN ha]
    simp [UnpackedFloat.div, unpack_pack_nan]

theorem isNaN_mul_right (a : Float) {c : Float} (hc : c.isNaN = true) : (a * c).isNaN = true := by
  change (Float.Model.pack (UnpackedFloat.mul .binary64 a.toModel.unpack c.toModel.unpack)).unpack.isNaN
    = true
  rw [unpack_nan_of_isNaN hc]
  cases a.toModel.unpack <;> simp [UnpackedFloat.mul, unpack_pack_nan]

theorem isNaN_add_right (a : Float) {c : Float} (hc : c.isNaN = true) : (a + c).isNaN = true := by
  change (Float.Model.pack (UnpackedFloat.add .binary64 a.toModel.unpack c.toModel.unpack)).unpack.isNaN
    = true
  rw [unpack_nan_of_isNaN hc]
  cases a.toModel.unpack <;> simp [UnpackedFloat.add, unpack_pack_nan]



end Real64

end Seaway
