import Mathlib
import Seaway.Proofs.Exact

/-!
# Saturated factors of doubles

A factor `1 - min(q, 1)` of doubles is an exact zero as soon as the quotient `q` reaches one,
and a product with an exact zero is a zero or NaN, never a positive double. Whether `q`
reaches one is decided by the operands alone: a double divided by a smaller positive
double is never below one. Rounding to nearest is monotone, and one is a double, so a
quotient whose exact value exceeds one cannot round below it. In the logical model of
`Float`:

* `unpack_canonical`: an unpacked finite double has a 53-bit mantissa or is subnormal;
* `divCore_oneLE`: the quotient of a larger by a smaller canonical mantissa, before rounding,
  has at least 53 bits and a value of at least one (`OneLE`);
* `roundWithAccuracy_normal`: rounding such a mantissa gives a normal double whose value is
  still at least one;
* `not_div_lt_one`: for doubles `0 < c < x`, `x / c` is not below `1.0`;
* `atLeast_mul_of_isZero_left` and its mirror: a product with a zero factor is a zero or
  NaN, so raising it to a double of at least zero gives that double.
-/

namespace Seaway

namespace Real64

open Float.Model UnpackedFloat

/-! ## Canonical doubles -/

/-- An unpacked finite double has exponent at least `-1074`, and a mantissa of 53 bits unless
it is subnormal, at exponent `-1074`. -/
theorem unpack_canonical {a : Float.Model} {s : Sign} {m : Nat} {e : Int} {hm : 0 < m}
    (h : a.unpack = .finite s m e hm) : -1074 ≤ e ∧ (2 ^ 52 ≤ m ∨ e = -1074) := by
  unfold Float.Model.unpack UnpackedFloat.unpack at h
  dsimp only at h
  split at h
  · split at h <;> cases h
  · rename_i hinf
    split at h
    · -- subnormal: the exponent field is zero
      rename_i hzero
      split at h
      · cases h
      · cases h
        refine ⟨?_, .inr ?_⟩ <;> simp only [hzero, BitVec.toNat_ofNat] <;> decide
    · -- normal: the exponent field is neither zero nor all ones, and the leading bit is set
      rename_i hnzero
      cases h
      have hb := (@unpackMantissa .binary64 a.toBits.toBitVec).isLt
      have he0 : (@unpackExponent .binary64 a.toBits.toBitVec).toNat ≠ 0 :=
        fun h0 => hnzero (BitVec.eq_of_toNat_eq h0)
      change _ < 2 ^ 52 at hb
      refine ⟨?_, .inl ?_⟩
      · change -1074 ≤ ((@unpackExponent .binary64 a.toBits.toBitVec).toNat : Int)
          - (1023 + 52)
        omega
      · simp only [BitVec.toNat_append]
        change _ ≤ (1 <<< 52 ||| _)
        rw [← Nat.shiftLeft_add_eq_or_of_lt hb]
        simp only [Nat.one_shiftLeft]
        omega

/-! ## Values of at least one -/

/-- The value `m · 2 ^ e` is at least one. -/
def OneLE (m : Nat) (e : Int) : Prop :=
  if 0 ≤ e then 0 < m else 2 ^ (-e).toNat ≤ m

theorem OneLE.mono {m m' : Nat} {e : Int} (h : OneLE m e) (hm : m ≤ m') : OneLE m' e := by
  unfold OneLE at h ⊢
  split <;> split at h <;> omega

/-- Dropping the `k` low bits of a mantissa of at least `k` bits, and raising its exponent by
`k`, keeps a value of at least one at least one. -/
theorem OneLE.shiftRight {q k : Nat} {e : Int} (h : OneLE q e) (hk : 2 ^ k ≤ q) :
    OneLE (q / 2 ^ k) (e + k) := by
  unfold OneLE at h ⊢
  split
  · exact Nat.div_pos hk (Nat.two_pow_pos k)
  · rw [if_neg (by omega)] at h
    rw [Nat.le_div_iff_mul_le (Nat.two_pow_pos k), ← Nat.pow_add]
    exact Nat.le_trans (Nat.pow_le_pow_right (by decide) (by omega)) h

/-- A carry out of 53 bits keeps the value: `2 ^ 53 · 2 ^ e = 2 ^ 52 · 2 ^ (e + 1)`. -/
theorem OneLE.carry {e : Int} (h : OneLE (2 ^ 53) e) : OneLE (2 ^ 52) (e + 1) := by
  unfold OneLE at h ⊢
  split
  · exact Nat.two_pow_pos 52
  · rw [if_neg (by omega)] at h
    have := (Nat.pow_le_pow_iff_right (by decide : 1 < 2)).1 h
    exact Nat.pow_le_pow_right (by decide) (by omega)

/-- A value of at least one with a mantissa below `2 ^ 53` has exponent at least `-52`, and a
mantissa of 53 bits at that exponent. -/
theorem OneLE.exponent_ge {F : Nat} {E : Int} (h : OneLE F E) (hF : F < 2 ^ 53) :
    -52 < E ∨ E = -52 ∧ 2 ^ 52 ≤ F := by
  unfold OneLE at h
  split at h
  · omega
  · have hlt := (Nat.pow_lt_pow_iff_right (by decide : 1 < 2)).1 (Nat.lt_of_le_of_lt h hF)
    rcases Int.lt_or_eq_of_le (show -52 ≤ E by omega) with hE | hE
    · exact .inl hE
    · subst hE
      exact .inr ⟨rfl, h⟩

/-! ## The quotient before rounding -/

/-- The exact quotient of a mantissa `mx · 2 ^ ex` by a smaller one `mc · 2 ^ ec`, both of at
most 53 bits, is taken with at least 53 bits, at an exponent of at least `-1074`, and has a
value of at least one. -/
theorem divCore_oneLE {mx mc : Nat} {ex ec : Int} (hmx : mx < 2 ^ 53) (hmc : 0 < mc)
    (hmc' : mc < 2 ^ 53) (hle : ec ≤ ex) (hlt : mc ≤ mx * 2 ^ (ex - ec).toNat) :
    2 ^ 52 ≤ (divCore .binary64 mx ex mc ec).1 ∧ -1074 ≤ (divCore .binary64 mx ex mc ec).2.1 ∧
      OneLE (divCore .binary64 mx ex mc ec).1 (divCore .binary64 mx ex mc ec).2.1 := by
  have hmx0 : mx ≠ 0 := by
    rintro rfl
    rw [Nat.zero_mul] at hlt
    omega
  have hx : mx.log2 < 53 := (Nat.log2_lt hmx0).2 hmx
  have hc : mc.log2 < 53 := (Nat.log2_lt (by omega)).2 hmc'
  -- the exponent of the quotient is that of its 53 leading bits
  have hte : min (ex - ec) (Format.binary64.targetExponent
      (totalExponent mx ex - totalExponent mc ec)) =
      (mx.log2 : Int) - mc.log2 + (ex - ec) - 53 := by
    simp only [Format.targetExponent, totalExponent, Format.mantissaBits, Format.minExponent]
    norm_num
    omega
  have hsh : (ex - ec - ((mx.log2 : Int) - mc.log2 + (ex - ec) - 53)).toNat =
      53 + mc.log2 - mx.log2 := by omega
  simp only [divCore, hte, hsh, Nat.shiftLeft_eq]
  -- `mx · 2 ^ (53 + log mc - log mx)` is at least `2 ^ 52 · 2 ^ (log mc + 1) > 2 ^ 52 · mc`
  have hq : 2 ^ 52 * mc ≤ mx * 2 ^ (53 + mc.log2 - mx.log2) := by
    calc 2 ^ 52 * mc ≤ 2 ^ 52 * 2 ^ (mc.log2 + 1) :=
          Nat.mul_le_mul_left _ Nat.lt_log2_self.le
      _ = 2 ^ mx.log2 * 2 ^ (53 + mc.log2 - mx.log2) := by
          rw [← Nat.pow_add, ← Nat.pow_add]
          congr 1
          omega
      _ ≤ mx * 2 ^ (53 + mc.log2 - mx.log2) :=
          Nat.mul_le_mul_right _ (Nat.log2_self_le hmx0)
  have hq52 : 2 ^ 52 ≤ mx * 2 ^ (53 + mc.log2 - mx.log2) / mc :=
    (Nat.le_div_iff_mul_le hmc).2 (Nat.mul_comm mc _ ▸ hq)
  refine ⟨hq52, by omega, ?_⟩
  unfold OneLE
  split
  · exact Nat.lt_of_lt_of_le (Nat.two_pow_pos 52) hq52
  · -- a negative exponent: the shift is the exponent gap plus the exponent's size
    rename_i hneg
    rw [Nat.le_div_iff_mul_le hmc]
    have hsplit : 53 + mc.log2 - mx.log2 = (ex - ec).toNat +
        (-((mx.log2 : Int) - mc.log2 + (ex - ec) - 53)).toNat := by omega
    rw [hsplit, Nat.pow_add, ← Nat.mul_assoc, Nat.mul_comm (2 ^ _) mc]
    exact Nat.mul_le_mul_right _ hlt

/-! ## Rounding -/

theorem le_roundedMantissa (em : ExtendedMantissa) : em.mantissa ≤ em.roundedMantissa := by
  rcases em with ⟨m, _ | _, _ | _⟩
  all_goals
    simp only [ExtendedMantissa.roundedMantissa, ExtendedMantissa.accuracy,
      Accuracy.roundToNearestEven]
    omega

/-- Keeping the leading 53 bits of a mantissa of at least 53 bits leaves 53 bits. -/
theorem mantissa_shiftRight_leading {q : Nat} (hq : 2 ^ 52 ≤ q) (acc : Accuracy) :
    (ExtendedMantissa.ofMantissaAndAccuracy q acc >>> (q.log2 - 52)).mantissa =
        q / 2 ^ (q.log2 - 52) ∧
      2 ^ 52 ≤ q / 2 ^ (q.log2 - 52) ∧ q / 2 ^ (q.log2 - 52) < 2 ^ 53 := by
  have hlog : 52 ≤ q.log2 := (Nat.le_log2 (by omega)).2 hq
  refine ⟨by rw [mantissa_shiftRight, mantissa_ofMantissaAndAccuracy], ?_, ?_⟩
  · rw [Nat.le_div_iff_mul_le (Nat.two_pow_pos _), ← Nat.pow_add]
    exact Nat.le_trans (Nat.pow_le_pow_right (by decide) (by omega)) (Nat.log2_self_le (by omega))
  · rw [Nat.div_lt_iff_lt_mul (Nat.two_pow_pos _), ← Nat.pow_add]
    exact Nat.lt_of_lt_of_le Nat.lt_log2_self (Nat.pow_le_pow_right (by decide) (by omega))

/-- Rounding a mantissa of at least 53 bits, at an exponent of at least `-1074`, gives a
normal double (53 bits) at an exponent no lower, and a value of at least one stays so. -/
theorem roundWithAccuracy_normal (s : Sign) {q : Nat} {e : Int} (hq : 2 ^ 52 ≤ q)
    (he : -1074 ≤ e) (acc : Accuracy) :
    ∃ F E h, roundWithAccuracy .binary64 s q e acc = .finite s F E h ∧ 2 ^ 52 ≤ F ∧
      F < 2 ^ 53 ∧ e ≤ E ∧ (OneLE q e → OneLE F E) := by
  have hlog : 52 ≤ q.log2 := (Nat.le_log2 (by omega)).2 hq
  -- the first shift drops the bits below the leading 53
  have hk : (max ((q.log2 : Int) + e - 52) (-1074) - e).toNat = q.log2 - 52 := by omega
  have he₁ : max e (max ((q.log2 : Int) + e - 52) (-1074)) = e + (q.log2 - 52 : Nat) := by
    omega
  unfold roundWithAccuracy
  rw [shiftToTargetExponent_eq q e acc, hk, he₁]
  dsimp only
  obtain ⟨hm₁, hlo, hhi⟩ := mantissa_shiftRight_leading hq acc
  rw [← hm₁] at hlo hhi
  generalize ExtendedMantissa.ofMantissaAndAccuracy q acc >>> (q.log2 - 52) = em at hm₁ hlo hhi ⊢
  have hk2 : 2 ^ (q.log2 - 52) ≤ q :=
    Nat.le_trans (Nat.pow_le_pow_right (by decide) (Nat.sub_le _ _)) (Nat.log2_self_le (by omega))
  have hone : OneLE q e → OneLE em.mantissa (e + (q.log2 - 52 : Nat)) := fun h =>
    hm₁ ▸ h.shiftRight hk2
  have hR₁ := le_roundedMantissa em
  have hR₂ := roundedMantissa_le em
  have he₁' : e ≤ e + ((q.log2 - 52 : Nat) : Int) := by omega
  generalize e + ((q.log2 - 52 : Nat) : Int) = e₁ at hone he₁' ⊢
  rw [shiftToTargetExponent_eq em.roundedMantissa e₁ .exact]
  dsimp only
  -- the rounded mantissa has 53 bits, or is `2 ^ 53` and carries
  rcases Nat.lt_or_ge em.roundedMantissa (2 ^ 53) with hR | hR
  · have hlogR : em.roundedMantissa.log2 = 52 :=
      (Nat.log2_eq_iff (by omega)).2 ⟨by omega, hR⟩
    have hk₂ : (max ((em.roundedMantissa.log2 : Int) + e₁ - 52) (-1074) - e₁).toNat = 0 := by
      omega
    have hE : max e₁ (max ((em.roundedMantissa.log2 : Int) + e₁ - 52) (-1074)) = e₁ := by
      omega
    have hF : (ExtendedMantissa.ofMantissaAndAccuracy em.roundedMantissa .exact >>> 0).mantissa =
        em.roundedMantissa := rfl
    rw [hk₂, hE, hF, dif_neg (by omega)]
    exact ⟨_, _, _, rfl, by omega, hR, he₁', fun h => (hone h).mono hR₁⟩
  · have hR53 : em.roundedMantissa = 2 ^ 53 := by omega
    have hlogR : em.roundedMantissa.log2 = 53 := by rw [hR53]; exact Nat.log2_two_pow
    have hk₂ : (max ((em.roundedMantissa.log2 : Int) + e₁ - 52) (-1074) - e₁).toNat = 1 := by
      omega
    have hE : max e₁ (max ((em.roundedMantissa.log2 : Int) + e₁ - 52) (-1074)) = e₁ + 1 := by
      omega
    have hF : (ExtendedMantissa.ofMantissaAndAccuracy em.roundedMantissa .exact >>> 1).mantissa =
        2 ^ 52 := by
      rw [mantissa_shiftRight, hR53]
      rfl
    rw [hk₂, hE, hF, dif_neg (by omega)]
    exact ⟨_, _, _, rfl, le_rfl, by decide, by omega,
      fun h => OneLE.carry (hR53 ▸ (hone h).mono hR₁)⟩

/-! ## Packing normal doubles -/

theorem unpackSign_packComponents (s : Sign) (ee : BitVec 11) (mm : BitVec 52) :
    unpackSign (packComponents Format.binary64 s ee mm) = s.toBitVec := by
  change (s.toBitVec ++ ee ++ mm).extractLsb' 63 1 = s.toBitVec
  rw [BitVec.extractLsb'_append_eq_of_le (by decide), BitVec.extractLsb'_append_eq_of_le (by decide)]
  cases s <;> rfl

/-- A normal double of exponent at most `971` is packed and unpacked unchanged. -/
theorem unpack_pack_normal (s : Sign) {m : Nat} {e : Int} (hm : 0 < m) (hlo : 2 ^ 52 ≤ m)
    (hhi : m < 2 ^ 53) (he : -1074 ≤ e) (he' : e ≤ 971) :
    (Float.Model.pack (.finite s m e hm)).unpack = .finite s m e hm := by
  have hl : m.log2 = 52 := (Nat.log2_eq_iff (by omega)).2 ⟨hlo, hhi⟩
  have hn : ¬2 ^ Format.binary64.exponentBits ≤
      (e + Format.binary64.exponentBias + Format.binary64.mantissaBitsWithoutImplicit).toNat + 1 := by
    change ¬2048 ≤ (e + 1023 + 52).toNat + 1
    omega
  simp only [Float.Model.pack, Float.Model.unpack, UInt64.toBitVec_ofBitVec, UnpackedFloat.pack,
    if_neg hn, hl]
  rw [if_pos (show 52 + 1 = Format.binary64.mantissaBits from rfl)]
  simp only [UnpackedFloat.unpack, unpackMantissa_packComponents, unpackExponent_packComponents,
    unpackSign_packComponents]
  have hbe : (BitVec.ofNat 11 (e + ↑Format.binary64.exponentBias + ↑52).toNat).toNat =
      (e + 1075).toNat := by
    change (e + 1023 + 52).toNat % 2048 = (e + 1075).toNat
    omega
  have hne : BitVec.ofNat 11 (e + ↑Format.binary64.exponentBias + ↑52).toNat ≠ 2047#11 := by
    intro h
    have := congrArg BitVec.toNat h
    rw [hbe] at this
    change (e + 1075).toNat = 2047 at this
    omega
  have hnz : BitVec.ofNat 11 (e + ↑Format.binary64.exponentBias + ↑52).toNat ≠ 0#11 := by
    intro h
    have := congrArg BitVec.toNat h
    rw [hbe] at this
    change (e + 1075).toNat = 0 at this
    omega
  have hmant : (1#1 ++ BitVec.ofNat 52 m).toNat = m := by
    simp only [BitVec.toNat_append, BitVec.toNat_ofNat, Nat.shiftLeft_eq]
    change 2 ^ 52 ||| (m % 2 ^ 52) = m
    rw [Nat.or_comm, Nat.or_two_pow_eq_add_of_lt (Nat.mod_lt m (Nat.two_pow_pos 52))]
    omega
  have hexp : max (e + 1075) 0 - (↑Format.binary64.exponentBias + 52) = e := by
    change max (e + 1075) 0 - (1023 + 52) = e
    omega
  have hs : Sign.ofBitVec s.toBitVec = s := by cases s <;> rfl
  simp [hne, hnz, hbe, hmant, hexp, hs]

/-- A finite double of exponent above `971` is packed as an infinity of its sign. -/
theorem unpack_pack_overflow (s : Sign) {m : Nat} {e : Int} (hm : 0 < m) (he : 971 < e) :
    (Float.Model.pack (.finite s m e hm)).unpack = .infinity s := by
  have hn : 2 ^ Format.binary64.exponentBits ≤
      (e + Format.binary64.exponentBias + Format.binary64.mantissaBitsWithoutImplicit).toNat + 1 := by
    change 2048 ≤ (e + 1023 + 52).toNat + 1
    omega
  simp only [Float.Model.pack, Float.Model.unpack, UInt64.toBitVec_ofBitVec, UnpackedFloat.pack,
    if_pos hn, packedInfinity, UnpackedFloat.unpack, unpackMantissa_packComponents,
    unpackExponent_packComponents, unpackSign_packComponents]
  cases s <;> rfl

theorem unpack_pack_infinity (s : Sign) : (Float.Model.pack (.infinity s)).unpack = .infinity s := by
  cases s <;> rfl

/-! ## Quotients of at least one -/

/-- Of two positive finite doubles, the larger has an exponent at least the smaller's, and
its mantissa brought to the smaller's exponent is at least the smaller's mantissa. -/
theorem le_shift_of_rankLT {ma mb : Nat} {ea eb : Int} (hb : -1074 ≤ eb)
    (ha : 2 ^ 52 ≤ ma ∨ ea = -1074) (hmb : mb < 2 ^ 53) (h : RankLT (3, eb, mb) (3, ea, ma)) :
    eb ≤ ea ∧ mb ≤ ma * 2 ^ (ea - eb).toNat := by
  simp only [RankLT, lt_self_iff_false, true_and, false_or, Nat.cast_lt] at h
  rcases h with h | ⟨rfl, h⟩
  · -- a larger exponent than a double's own is that of a normal double
    have hma : 2 ^ 52 ≤ ma := ha.resolve_right (by omega)
    have h2 : 2 ≤ 2 ^ (ea - eb).toNat :=
      Nat.le_trans (by decide) (Nat.pow_le_pow_right (by decide) (by omega : 1 ≤ (ea - eb).toNat))
    refine ⟨h.le, Nat.le_of_lt (Nat.lt_of_lt_of_le hmb ?_)⟩
    calc 2 ^ 53 = 2 ^ 52 * 2 := by rw [Nat.pow_succ]
      _ ≤ ma * 2 ^ (ea - eb).toNat := Nat.mul_le_mul hma h2
  · simp only [sub_self, Int.toNat_zero, Nat.pow_zero, Nat.mul_one]
    exact ⟨le_rfl, by omega⟩

/-- A positive finite double divided by a smaller one rounds to a normal double of value at
least one, or overflows: either way the quotient is not below one. -/
theorem not_div_finite_lt_one {x c : Float} {mx mc : Nat} {ex ec : Int} {hmx : 0 < mx}
    {hmc : 0 < mc} (hux : x.toModel.unpack = .finite .positive mx ex hmx)
    (huc : c.toModel.unpack = .finite .positive mc ec hmc) (hcx : RankLT (3, ec, mc) (3, ex, mx)) :
    ¬RankLT (unpackedRank (Float.Model.pack (UnpackedFloat.div .binary64
      (.finite .positive mx ex hmx) (.finite .positive mc ec hmc))).unpack) (3, -52, 2 ^ 52) := by
  intro h
  obtain ⟨hcx₁, hcx₂⟩ := le_shift_of_rankLT (unpack_canonical huc).1 (unpack_canonical hux).2
    (mantissa_lt_of_unpack huc) hcx
  obtain ⟨hq, hte, hq1⟩ := divCore_oneLE (mantissa_lt_of_unpack hux) hmc
    (mantissa_lt_of_unpack huc) hcx₁ hcx₂
  have hpos : Sign.positive / Sign.positive = .positive := rfl
  simp only [UnpackedFloat.div, hpos] at h
  generalize divCore .binary64 mx ex mc ec = r at h hq hte hq1
  obtain ⟨q, te, acc⟩ := r
  dsimp only at h hq hte hq1
  obtain ⟨F, E, hF, hr, hF52, hF53, hE, hFE⟩ := roundWithAccuracy_normal .positive hq hte acc
  rw [hr] at h
  rcases le_or_gt E 971 with hE' | hE'
  · rw [unpack_pack_normal .positive hF hF52 hF53 (by omega) hE'] at h
    simp only [unpackedRank, RankLT] at h
    rcases (hFE hq1).exponent_ge hF53 with h' | ⟨rfl, h'⟩ <;> omega
  · rw [unpack_pack_overflow .positive hF hE'] at h
    simp [unpackedRank, RankLT] at h

/-- A positive double divided by a smaller positive double is not below one. -/
theorem not_div_lt_one {x c : Float} (hc : 0 < c) (hcx : c < x) : ¬x / c < 1.0 := by
  intro h
  obtain ⟨-, -, h⟩ := lt_iff_rank.1 h
  obtain ⟨-, -, hc⟩ := lt_iff_rank.1 hc
  obtain ⟨-, -, hcx⟩ := lt_iff_rank.1 hcx
  have hone : rank 1.0 = (3, -52, 2 ^ 52) := rfl
  have hzero : rank 0 = (2, 0, 0) := rfl
  have hpos : Sign.positive / Sign.positive = .positive := rfl
  rw [hone] at h
  rw [hzero] at hc
  simp only [rank] at h hc hcx
  change RankLT (unpackedRank (Float.Model.pack
    (UnpackedFloat.div .binary64 x.toModel.unpack c.toModel.unpack)).unpack) _ at h
  -- `c` is a positive finite double, and `x` a larger one or the positive infinity
  rcases huc : c.toModel.unpack with ⟨_ | _⟩ | _ | ⟨_ | _⟩ | ⟨_ | _, mc, ec, hmc⟩ <;>
    rw [huc] at hc hcx h <;> simp only [unpackedRank, RankLT] at hc <;> try omega
  all_goals
    rcases hux : x.toModel.unpack with ⟨_ | _⟩ | _ | ⟨_ | _⟩ | ⟨_ | _, mx, ex, hmx⟩ <;>
      rw [hux] at hcx h <;> simp only [unpackedRank] at hcx <;>
      try (simp only [RankLT] at hcx; omega)
  · -- the positive infinity divided by a positive double
    simp only [UnpackedFloat.div, hpos, unpack_pack_infinity, unpackedRank, RankLT] at h
    omega
  · exact not_div_finite_lt_one hux huc hcx h

/-! ## Products with a zero -/

section Zeros

variable {a b c x : Float}

/-- A zero times any double is a zero, or NaN when the other factor is an infinity or NaN. -/
theorem isZero_or_isNaN_mul_left (ha : IsZero a) (b : Float) :
    IsZero (a * b) ∨ (a * b).isNaN = true := by
  obtain ⟨s, ha⟩ := ha
  change IsZero ⟨Float.Model.pack (UnpackedFloat.mul .binary64 a.toModel.unpack b.toModel.unpack)⟩ ∨
    (Float.Model.pack (UnpackedFloat.mul .binary64 a.toModel.unpack b.toModel.unpack)).unpack.isNaN
      = true
  rw [ha]
  rcases b.toModel.unpack with t | _ | t | ⟨t, m, e, hm⟩
  · exact .inr (by cases s <;> cases t <;> rfl)
  · exact .inr (by cases s <;> rfl)
  · exact .inl (isZero_pack ⟨_, rfl⟩)
  · exact .inl (isZero_pack ⟨_, rfl⟩)

/-- Any double times a zero is a zero, or NaN when the other factor is an infinity or NaN. -/
theorem isZero_or_isNaN_mul_right (a : Float) (hb : IsZero b) :
    IsZero (a * b) ∨ (a * b).isNaN = true := by
  obtain ⟨t, hb⟩ := hb
  change IsZero ⟨Float.Model.pack (UnpackedFloat.mul .binary64 a.toModel.unpack b.toModel.unpack)⟩ ∨
    (Float.Model.pack (UnpackedFloat.mul .binary64 a.toModel.unpack b.toModel.unpack)).unpack.isNaN
      = true
  rw [hb]
  rcases a.toModel.unpack with s | _ | s | ⟨s, m, e, hm⟩
  · exact .inr (by cases s <;> cases t <;> rfl)
  · exact .inr (by cases t <;> rfl)
  · exact .inl (isZero_pack ⟨_, rfl⟩)
  · exact .inl (isZero_pack ⟨_, rfl⟩)

/-- No double of at least zero lies below a zero or NaN. -/
theorem not_lt_of_isZero_or_isNaN (hc : 0.0 ≤ c) (h : IsZero x ∨ x.isNaN = true) : ¬c < x := by
  intro hcx
  rcases h with h | h
  · exact not_lt_of_le (le_trans h.le_zero hc) hcx
  · rw [isNaN_right_of_lt hcx] at h
    cases h

/-- A product with a zero factor, raised to a double of at least zero, is that double. -/
theorem atLeast_mul_of_isZero_left (ha : IsZero a) (b : Float) (hc : 0.0 ≤ c) :
    atLeast (a * b) c = c := by
  unfold atLeast
  rw [if_neg (not_lt_of_isZero_or_isNaN hc (isZero_or_isNaN_mul_left ha b))]

theorem atLeast_mul_of_isZero_right (a : Float) (hb : IsZero b) (hc : 0.0 ≤ c) :
    atLeast (a * b) c = c := by
  unfold atLeast
  rw [if_neg (not_lt_of_isZero_or_isNaN hc (isZero_or_isNaN_mul_right a hb))]

end Zeros

end Real64

end Seaway
