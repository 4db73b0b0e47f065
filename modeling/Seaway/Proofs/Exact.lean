import Mathlib
import Seaway.Proofs.Order

/-!
# Exact zeros and small differences of doubles

The shoelace sum of a ring whose vertices share one longitude is an exact zero in doubles:
each edge's cross product multiplies a difference of equal longitudes, an exact zero, by a
difference of latitudes. That the product is a zero and not NaN needs the difference of
latitudes to be finite, which holds because both lie in `[-180, 180]`. The facts of binary64
arithmetic behind this, in the logical model of `Float`:

* `round_exponent_le`: rounding carries a value at most one binade above its target
  exponent, so `sub_exponentLE` bounds the exponent of a difference by those of its operands
  and `isFinite_sub_of_mem` finds the difference of two doubles of `[-180, 180]` finite;
* `isZero_sub_of_le_of_le`: two finite doubles that compare equal differ by a zero;
* `isZero_add`, `isZero_mul_left` and their companions: sums and differences of zeros, and
  products of a zero with a finite double, are zeros.
-/

namespace Seaway

namespace Real64

open Float.Model UnpackedFloat

/-! ## Rounding does not carry far -/

theorem mantissa_shiftRight (k : Nat) (em : ExtendedMantissa) :
    (em >>> k).mantissa = em.mantissa / 2 ^ k := by
  induction k generalizing em with
  | zero => simp [HShiftRight.hShiftRight, Nat.repeat]
  | succ k ih =>
    show (ExtendedMantissa.shiftRightOne (em >>> k)).mantissa = _
    simp only [ExtendedMantissa.shiftRightOne, ih, Nat.div_div_eq_div_mul, Nat.pow_succ]

@[simp] theorem mantissa_ofMantissaAndAccuracy (m : Nat) (acc : Accuracy) :
    (ExtendedMantissa.ofMantissaAndAccuracy m acc).mantissa = m := by
  cases acc with
  | exact => rfl
  | inexact o => cases o <;> rfl

theorem roundedMantissa_le (em : ExtendedMantissa) : em.roundedMantissa ≤ em.mantissa + 1 := by
  rcases em with ⟨m, _ | _, _ | _⟩
  all_goals
    simp only [ExtendedMantissa.roundedMantissa, ExtendedMantissa.accuracy,
      Accuracy.roundToNearestEven]
    omega

theorem shiftToTargetExponent_eq (m : Nat) (e : Int) (acc : Accuracy) :
    shiftToTargetExponent .binary64 m e acc =
      (ExtendedMantissa.ofMantissaAndAccuracy m acc >>>
        (max ((m.log2 : Int) + e - 52) (-1074) - e).toNat,
        max e (max ((m.log2 : Int) + e - 52) (-1074))) := by
  simp only [shiftToTargetExponent, shiftToExponent, Format.targetExponent, totalExponent,
    Format.mantissaBits, Format.minExponent, Prod.mk.injEq]
  constructor
  · congr 2
    norm_num
    omega
  · norm_num
    omega

/-- Rounding never carries a value more than one binade up: the exponent of the result is at
most one above the larger of the given exponent and the target exponent of the value. -/
theorem roundWithAccuracy_exponent_le (s : Sign) (m : Nat) (e : Int) (acc : Accuracy) :
    roundWithAccuracy .binary64 s m e acc = .zero s ∨
      ∃ F E h, roundWithAccuracy .binary64 s m e acc = .finite s F E h ∧
        E ≤ max e (max ((m.log2 : Int) + e - 52) (-1074)) + 1 := by
  -- the first shift leaves fewer than 53 bits, so the rounded mantissa has at most 54
  have hfirst : (ExtendedMantissa.ofMantissaAndAccuracy m acc >>>
      (max ((m.log2 : Int) + e - 52) (-1074) - e).toNat).mantissa < 2 ^ 53 := by
    rw [mantissa_shiftRight, mantissa_ofMantissaAndAccuracy,
      Nat.div_lt_iff_lt_mul (Nat.two_pow_pos _), ← Nat.pow_add]
    exact Nat.lt_of_lt_of_le Nat.lt_log2_self (Nat.pow_le_pow_right (by decide) (by omega))
  unfold roundWithAccuracy
  rw [shiftToTargetExponent_eq m e acc]
  dsimp only
  generalize ExtendedMantissa.ofMantissaAndAccuracy m acc >>>
      (max ((m.log2 : Int) + e - 52) (-1074) - e).toNat = em at hfirst ⊢
  have hlog : em.roundedMantissa.log2 ≤ 53 := by
    have hR := roundedMantissa_le em
    rcases Nat.eq_zero_or_pos em.roundedMantissa with h0 | hpos
    · simp [h0]
    · have := (Nat.log2_lt (Nat.pos_iff_ne_zero.1 hpos) (k := 54)).2 (by omega)
      omega
  rw [shiftToTargetExponent_eq em.roundedMantissa]
  dsimp only
  split
  · exact .inl rfl
  · exact .inr ⟨_, _, Nat.pos_of_ne_zero ‹_›, rfl, by omega⟩

theorem log2_shiftLeft_le (m d : Nat) : (m <<< d).log2 ≤ m.log2 + d := by
  rcases Nat.eq_zero_or_pos (m <<< d) with h0 | hpos
  · simp [h0]
  · have hlt : m <<< d < 2 ^ (m.log2 + d + 1) := by
      rw [Nat.shiftLeft_eq, Nat.add_right_comm, Nat.pow_add]
      exact Nat.mul_lt_mul_of_pos_right Nat.lt_log2_self (Nat.two_pow_pos d)
    have := (Nat.log2_lt (Nat.pos_iff_ne_zero.1 hpos)).2 hlt
    omega

/-- Rounding a value of mantissa `m` and exponent `e` gives a zero or a finite value of
exponent at most one above the target exponent of the value. -/
theorem round_exponent_le (s : Sign) (m : Nat) (e : Int) :
    UnpackedFloat.round .binary64 s m e = .zero s ∨ ∃ F E h, UnpackedFloat.round .binary64 s m e = .finite s F E h ∧
      E ≤ max ((m.log2 : Int) + e - 52) (-1074) + 1 := by
  have ht : Format.binary64.targetExponent (totalExponent m e) =
      max ((m.log2 : Int) + e - 52) (-1074) := by
    simp only [Format.targetExponent, totalExponent, Format.mantissaBits, Format.minExponent]
    norm_num
    omega
  unfold UnpackedFloat.round decreaseExponent
  rw [ht]
  dsimp only
  generalize hd : (e - max ((m.log2 : Int) + e - 52) (-1074)).toNat = d
  -- moving the mantissa up to the target exponent keeps the value's target exponent
  have hlog := log2_shiftLeft_le m d
  rcases roundWithAccuracy_exponent_le s (m <<< d) (e - d) .exact with h | ⟨F, E, hF, h, hE⟩
  · exact .inl h
  · exact .inr ⟨F, E, hF, h, by omega⟩

/-! ## Differences of small doubles -/

/-- An unpacked double that is a zero, or a finite value whose exponent is at most `k`. -/
def ExponentLE (k : Int) : UnpackedFloat → Prop
  | .zero _ => True
  | .finite _ _ e _ => e ≤ k
  | _ => False

theorem round_exponentLE (s : Sign) {n j : Nat} (hpos : 0 < n) (hn : n < 2 ^ j) (e : Int) :
    ExponentLE (max (j + e - 53) (-1074) + 1) (UnpackedFloat.round .binary64 s n e) := by
  have := (Nat.log2_lt (Nat.pos_iff_ne_zero.1 hpos)).2 hn
  rcases round_exponent_le s n e with h | ⟨F, E, hF, h, hE⟩
  · rw [h]; trivial
  · rw [h]; simp only [ExponentLE]; omega

theorem normalize_exponentLE {M : Int} {j : Nat} (hM : M.natAbs < 2 ^ j) (e : Int) (z : Sign) :
    ExponentLE (max (j + e - 53) (-1074) + 1) (UnpackedFloat.normalize .binary64 M e z) := by
  unfold UnpackedFloat.normalize
  split
  · rename_i hlt
    have := Int.compare_eq_lt.1 hlt
    exact round_exponentLE .negative (by omega) (by omega) e
  · trivial
  · rename_i hgt
    have := Int.compare_eq_gt.1 hgt
    exact round_exponentLE .positive (by omega) (by omega) e

theorem ExponentLE.mono {k k' : Int} {u : UnpackedFloat} (h : ExponentLE k u) (hk : k ≤ k') :
    ExponentLE k' u := by
  cases u with
  | finite _ _ e _ => exact Int.le_trans h hk
  | _ => exact h

/-- The mantissa of an unpacked double has at most 53 bits. -/
theorem mantissa_lt_of_unpack {a : Float.Model} {s : Sign} {m : Nat} {e : Int} {hm : 0 < m}
    (h : a.unpack = .finite s m e hm) : m < 2 ^ 53 := by
  unfold Float.Model.unpack UnpackedFloat.unpack at h
  dsimp only at h
  have hb := (@unpackMantissa .binary64 a.toBits.toBitVec).isLt
  split at h
  · split at h <;> cases h
  · split at h
    · split at h
      · cases h
      · cases h
        change _ < 2 ^ 52 at hb
        omega
    · cases h
      change _ < 2 ^ 52 at hb
      simp only [BitVec.toNat_append]
      change (1 <<< 52 ||| _) < _
      rw [← Nat.shiftLeft_add_eq_or_of_lt hb]
      simp only [Nat.one_shiftLeft]
      omega

theorem natAbs_apply (s : Sign) (n : Nat) : (s.apply n).natAbs = n := by
  cases s <;> simp [Sign.apply]

/-- The difference of two doubles that are zeros or finite with exponents at most `k` is a
zero or finite with exponent at most `k + 2` (or at the least exponent): the exact
difference has at most 54 bits above the smaller exponent. -/
theorem sub_exponentLE {a b : Float.Model} {k : Int} (ha : ExponentLE k a.unpack)
    (hb : ExponentLE k b.unpack) :
    ExponentLE (max (k + 1) (-1074) + 1) (UnpackedFloat.sub .binary64 a.unpack b.unpack) := by
  rcases hua : a.unpack with _ | _ | s₁ | ⟨s₁, m₁, e₁, h₁⟩ <;> rw [hua] at ha <;>
    simp only [ExponentLE] at ha <;>
  rcases hub : b.unpack with _ | _ | s₂ | ⟨s₂, m₂, e₂, h₂⟩ <;> rw [hub] at hb <;>
    simp only [ExponentLE] at hb
  · simp only [UnpackedFloat.sub]
    split <;> trivial
  · simp only [UnpackedFloat.sub, ExponentLE]
    omega
  · simp only [UnpackedFloat.sub, ExponentLE]
    omega
  · -- two finite values: the exact difference at the smaller exponent
    have hm₁ := mantissa_lt_of_unpack hua
    have hm₂ := mantissa_lt_of_unpack hub
    simp only [UnpackedFloat.sub, decreaseExponent]
    generalize hE : min e₁ e₂ = E
    have hshift : ∀ m e, m < 2 ^ 53 → e ≤ k → E ≤ e →
        m <<< (e - E).toNat < 2 ^ 53 * 2 ^ (k - E).toNat := by
      intro m e hm he hEe
      rw [Nat.shiftLeft_eq]
      calc m * 2 ^ (e - E).toNat < 2 ^ 53 * 2 ^ (e - E).toNat :=
            Nat.mul_lt_mul_of_pos_right hm (Nat.two_pow_pos _)
        _ ≤ 2 ^ 53 * 2 ^ (k - E).toNat :=
            Nat.mul_le_mul_left _ (Nat.pow_le_pow_right (by decide) (by omega))
    have hM : (s₁.apply ↑(m₁ <<< (e₁ - E).toNat) - s₂.apply ↑(m₂ <<< (e₂ - E).toNat)).natAbs <
        2 ^ (54 + (k - E).toNat) := by
      have h₁ := hshift m₁ e₁ hm₁ ha (by omega)
      have h₂ := hshift m₂ e₂ hm₂ hb (by omega)
      have habs := Int.natAbs_sub_le (s₁.apply ↑(m₁ <<< (e₁ - E).toNat))
        (s₂.apply ↑(m₂ <<< (e₂ - E).toNat))
      rw [natAbs_apply, natAbs_apply] at habs
      rw [Nat.pow_add]
      omega
    exact (normalize_exponentLE hM E .positive).mono (by omega)

theorem isFinite_unpack_of_exponent_ne {b : BitVec Format.binary64.numBits}
    (h : unpackExponent b ≠ -1#_) : (UnpackedFloat.unpack .binary64 b).isFinite = true := by
  unfold UnpackedFloat.unpack
  simp only [h, if_false]
  split
  · split <;> rfl
  · rfl

/-- A zero, or a finite value of exponent at most `970`, is packed into the bits of a zero or a
finite double. -/
theorem isFinite_unpack_pack {u : UnpackedFloat} {k : Int} (h : ExponentLE k u) (hk : k ≤ 970) :
    (Float.Model.pack u).unpack.isFinite = true := by
  rcases u with _ | _ | s | ⟨s, m, e, hm⟩ <;> simp only [ExponentLE] at h
  · simp [Float.Model.pack, Float.Model.unpack, UnpackedFloat.pack]
    rfl
  · simp only [Float.Model.pack, Float.Model.unpack, UInt64.toBitVec_ofBitVec]
    apply isFinite_unpack_of_exponent_ne
    unfold UnpackedFloat.pack
    dsimp only
    have hbias : Format.binary64.exponentBias = 1023 := by decide
    rw [hbias]
    rw [if_neg (by omega)]
    split
    · rw [unpackExponent_packComponents]
      intro heq
      have := congrArg BitVec.toNat heq
      simp only [BitVec.toNat_ofNat] at this
      change _ % 2 ^ 11 = 2047 at this
      omega
    · rw [unpackExponent_packComponents]
      decide

/-! ## Zeros -/

/-- A double that is a zero of either sign. -/
def IsZero (a : Float) : Prop := ∃ s, a.toModel.unpack = .zero s

section Zeros

variable {a b : Float}

theorem unpack_pack_zero (s : Sign) : (Float.Model.pack (.zero s)).unpack = .zero s := by
  simp [Float.Model.pack, Float.Model.unpack, UnpackedFloat.pack]

theorem isZero_pack {u : UnpackedFloat} (h : ∃ s, u = .zero s) :
    IsZero ⟨Float.Model.pack u⟩ := by
  obtain ⟨s, rfl⟩ := h
  exact ⟨s, unpack_pack_zero s⟩

theorem isZero_zero : IsZero 0 := ⟨.positive, rfl⟩

theorem isNaN_of_isFinite (h : a.isFinite = true) : a.isNaN = false := by
  change a.toModel.unpack.isFinite = true at h
  show a.toModel.unpack.isNaN = false
  cases hu : a.toModel.unpack <;> rw [hu] at h <;> first | rfl | cases h

theorem IsZero.isFinite (h : IsZero a) : a.isFinite = true := by
  obtain ⟨s, h⟩ := h
  show a.toModel.unpack.isFinite = true
  rw [h]
  rfl

theorem IsZero.isNaN (h : IsZero a) : a.isNaN = false := by
  obtain ⟨s, h⟩ := h
  show a.toModel.unpack.isNaN = false
  rw [h]
  rfl

theorem IsZero.le_zero (h : IsZero a) : a ≤ 0.0 := by
  refine le_iff_rank.2 ⟨h.isNaN, rfl, ?_⟩
  obtain ⟨s, h⟩ := h
  simp only [rank, h]
  cases s <;> decide

theorem isZero_add (ha : IsZero a) (hb : IsZero b) : IsZero (a + b) := by
  obtain ⟨s, ha⟩ := ha
  obtain ⟨t, hb⟩ := hb
  refine isZero_pack ?_
  simp only [ha, hb, UnpackedFloat.add]
  split
  · exact ⟨_, rfl⟩
  · exact ⟨_, rfl⟩

theorem isZero_sub (ha : IsZero a) (hb : IsZero b) : IsZero (a - b) := by
  obtain ⟨s, ha⟩ := ha
  obtain ⟨t, hb⟩ := hb
  refine isZero_pack ?_
  simp only [ha, hb, UnpackedFloat.sub]
  split
  · exact ⟨_, rfl⟩
  · exact ⟨_, rfl⟩

theorem isZero_mul_left (ha : IsZero a) (hb : b.isFinite = true) : IsZero (a * b) := by
  obtain ⟨s, ha⟩ := ha
  refine isZero_pack ?_
  change b.toModel.unpack.isFinite = true at hb
  rw [ha]
  rcases hu : b.toModel.unpack with _ | _ | t | ⟨t, m, e, hm⟩ <;> rw [hu] at hb
  all_goals first | exact ⟨_, rfl⟩ | cases hb

theorem isZero_mul_right (ha : a.isFinite = true) (hb : IsZero b) : IsZero (a * b) := by
  obtain ⟨t, hb⟩ := hb
  refine isZero_pack ?_
  change a.toModel.unpack.isFinite = true at ha
  rw [hb]
  rcases hu : a.toModel.unpack with _ | _ | s | ⟨s, m, e, hm⟩ <;> rw [hu] at ha
  all_goals first | exact ⟨_, rfl⟩ | cases ha

theorem isZero_div_two (ha : IsZero a) : IsZero (a / 2) := by
  obtain ⟨s, ha⟩ := ha
  refine isZero_pack ?_
  have h2 : (2 : Float).toModel.unpack = .finite .positive (2 ^ 52) (-51) (by decide) := rfl
  rw [ha, h2]
  exact ⟨_, rfl⟩

theorem isZero_abs (ha : IsZero a) : IsZero a.abs := by
  obtain ⟨s, ha⟩ := ha
  refine isZero_pack ?_
  rw [ha]
  exact ⟨_, rfl⟩

theorem isZero_neg (ha : IsZero a) : IsZero (-a) := by
  obtain ⟨s, ha⟩ := ha
  refine isZero_pack ?_
  rw [ha]
  exact ⟨_, rfl⟩

end Zeros

/-! ## Exact cancellation and bounded differences -/

/-- Two unpacked doubles of equal rank, the first finite and the second not NaN, are two
zeros or one value. -/
theorem eq_of_rank_eq {u v : UnpackedFloat} (hu : u.isFinite = true) (hv : v.isNaN = false)
    (h₁ : RankLE (unpackedRank u) (unpackedRank v)) (h₂ : RankLE (unpackedRank v) (unpackedRank u)) :
    (∃ s t, u = .zero s ∧ v = .zero t) ∨ u = v := by
  -- values of different kinds or signs differ in the first component of their rank
  cases u with
  | notANumber | infinity _ => simp [UnpackedFloat.isFinite] at hu
  | zero s =>
    cases v with
    | zero t => exact .inl ⟨s, t, rfl, rfl⟩
    | notANumber => simp [UnpackedFloat.isNaN] at hv
    | infinity t => cases t <;> simp [unpackedRank, RankLE] at h₁ h₂
    | finite t m e hm => cases t <;> simp [unpackedRank, RankLE] at h₁ h₂
  | finite s m e hm =>
    cases v with
    | zero t => cases s <;> simp [unpackedRank, RankLE] at h₁ h₂
    | notANumber => simp [UnpackedFloat.isNaN] at hv
    | infinity t => cases s <;> cases t <;> simp [unpackedRank, RankLE] at h₁ h₂
    | finite t m' e' hm' =>
      cases s <;> cases t <;> simp only [unpackedRank, RankLE] at h₁ h₂
      all_goals first
        | omega
        | (obtain ⟨rfl, rfl⟩ : m = m' ∧ e = e' := by omega
           exact .inr rfl)

/-- Two finite doubles that compare equal differ by an exact zero. -/
theorem isZero_sub_of_le_of_le {a b : Float} (ha : a.isFinite = true) (h₁ : a ≤ b) (h₂ : b ≤ a) :
    IsZero (a - b) := by
  obtain ⟨-, -, h₁⟩ := le_iff_rank.1 h₁
  obtain ⟨hb, -, h₂⟩ := le_iff_rank.1 h₂
  refine isZero_pack ?_
  change a.toModel.unpack.isFinite = true at ha
  rcases eq_of_rank_eq ha hb h₁ h₂ with ⟨s, t, hs, ht⟩ | heq
  · simp only [hs, ht, UnpackedFloat.sub]
    split <;> exact ⟨_, rfl⟩
  · rw [← heq]
    cases hu : a.toModel.unpack with
    | notANumber | infinity _ => rw [hu] at ha; cases ha
    | zero s =>
      simp only [UnpackedFloat.sub]
      split <;> exact ⟨_, rfl⟩
    | finite s m e hm => simp [UnpackedFloat.sub, decreaseExponent, UnpackedFloat.normalize]

/-- A double of `[-180, 180]` is a zero or finite with exponent at most `-45`: `180` is
`180 · 2 ^ 45 · 2 ^ -45` with a 53-bit mantissa. -/
theorem exponentLE_of_mem {a : Float} (h₁ : -180.0 ≤ a) (h₂ : a ≤ 180.0) :
    ExponentLE (-45) a.toModel.unpack := by
  obtain ⟨-, hn, h₁⟩ := le_iff_rank.1 h₁
  obtain ⟨-, -, h₂⟩ := le_iff_rank.1 h₂
  have hlo : rank (-180.0) = (1, 45, -(180 * 2 ^ 45)) := rfl
  have hhi : rank 180.0 = (3, -45, 180 * 2 ^ 45) := rfl
  rw [hlo] at h₁
  rw [hhi] at h₂
  change a.toModel.unpack.isNaN = false at hn
  simp only [rank] at h₁ h₂
  cases hu : a.toModel.unpack with
  | notANumber => rw [hu] at hn; cases hn
  | infinity s => rw [hu] at h₁ h₂; cases s <;> simp [unpackedRank, RankLE] at h₁ h₂
  | zero s => trivial
  | finite s m e hm =>
    rw [hu] at h₁ h₂
    cases s <;> simp only [unpackedRank, RankLE, ExponentLE] at h₁ h₂ ⊢ <;> omega

/-- The difference of two doubles of `[-180, 180]` is finite: it never rounds to an infinity. -/
theorem isFinite_sub_of_mem {a b : Float} (ha₁ : -180.0 ≤ a) (ha₂ : a ≤ 180.0) (hb₁ : -180.0 ≤ b)
    (hb₂ : b ≤ 180.0) : (a - b).isFinite = true :=
  isFinite_unpack_pack (sub_exponentLE (exponentLE_of_mem ha₁ ha₂) (exponentLE_of_mem hb₁ hb₂))
    (by norm_num)

end Real64

end Seaway
