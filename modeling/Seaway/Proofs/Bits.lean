import Mathlib
import Seaway.Binary64

/-!
# Doubles and their bit patterns

In the logical model a double is its bit pattern, with every NaN kept as the one canonical
NaN. So a double is the double of its own pattern (`Binary64.ofBits_toBits`), and the
reading `Binary64.ofFloat` of the pattern as sign, biased exponent and trailing significand
loses nothing:

* a finite `± m · 2 ^ e` is canonical (`Canonical m e`) and its pattern is
  `(e + 1074) · 2 ^ 52 + m` under the sign bit (`toBits_of_ofFloat`), the very formula that
  `Binary64.roundRatioBits` writes, also across the carry into the next binade;
* a NaN is `Real64.nan` and an infinity `± Real64.inf`.

Hence a double whose magnitude pattern is rebuilt from its `m` and `e` is the double itself
(`ofRatio_eq_of_bits`).
-/

namespace Seaway

namespace Binary64

open Float.Model UnpackedFloat

/-! ## A pattern is the double of its pattern -/

/-- A pattern is its sign, exponent and trailing significand put back together. -/
theorem packComponents_unpack (b : BitVec Format.binary64.numBits) :
    packComponents Format.binary64 (Sign.ofBitVec (unpackSign b)) (unpackExponent b)
      (unpackMantissa b) = b := by
  have hs : ∀ v : BitVec 1, (Sign.ofBitVec v).toBitVec = v := by decide
  unfold packComponents
  rw [hs]
  apply BitVec.eq_of_toNat_eq
  change (unpackSign b ++ unpackExponent b ++ unpackMantissa b : BitVec 64).toNat = b.toNat
  simp only [BitVec.toNat_append, unpackSign, unpackExponent, unpackMantissa]
  simp
  -- the three fields occupy disjoint bits, so their disjunction is a sum
  have hb : b.toNat < 2 ^ 64 := b.isLt
  have h₁ : b.toNat >>> 52 % 2048 < 2 ^ 11 := Nat.mod_lt _ (by decide)
  have h₂ : b.toNat % 4503599627370496 < 2 ^ 52 := Nat.mod_lt _ (by decide)
  rw [← Nat.shiftLeft_add_eq_or_of_lt h₁, ← Nat.shiftLeft_add_eq_or_of_lt h₂]
  simp only [Nat.shiftLeft_eq, Nat.shiftRight_eq_div_pow]
  omega

/-- Packing an unpacked valid pattern gives the pattern back. -/
theorem pack_unpack {b : BitVec Format.binary64.numBits} (hb : Format.binary64.Valid b) :
    UnpackedFloat.pack .binary64 (UnpackedFloat.unpack .binary64 b) = b := by
  have hdec := packComponents_unpack b
  unfold UnpackedFloat.unpack
  dsimp only
  split
  · rename_i he
    split
    · -- an infinity
      rename_i hm
      rw [he, hm] at hdec
      exact hdec
    · -- a NaN, which a valid pattern spells canonically
      exact (hb.eq_packedNaN he ‹_›).symm
  · rename_i hnan
    split
    · rename_i he
      split
      · -- a zero
        rename_i hm
        rw [he, hm] at hdec
        exact hdec
      · -- subnormal: the exponent field stays zero and the significand is kept
        rename_i hm
        have hlt := (unpackMantissa b).isLt
        change _ < 2 ^ 52 at hlt
        have hne : (unpackMantissa b).toNat ≠ 0 := fun h0 => hm (BitVec.eq_of_toNat_eq h0)
        have hlog : (unpackMantissa b).toNat.log2 < 52 := (Nat.log2_lt hne).2 hlt
        simp only [UnpackedFloat.pack, he, BitVec.toNat_zero]
        rw [if_neg (by decide), if_neg (by change ¬_ + 1 = 53; omega)]
        rw [he] at hdec
        simpa using hdec
    · -- normal: the implicit bit is dropped again and the biased exponent kept
      rename_i hz
      have hlt := (unpackMantissa b).isLt
      have hlt' := (unpackExponent b).isLt
      change _ < 2 ^ 52 at hlt
      change _ < 2 ^ 11 at hlt'
      have h1 : (unpackExponent b).toNat ≠ 2047 := fun h => hnan (BitVec.eq_of_toNat_eq h)
      have h0 : (unpackExponent b).toNat ≠ 0 := fun h => hz (BitVec.eq_of_toNat_eq h)
      have hmant : (1#1 ++ unpackMantissa b).toNat = 2 ^ 52 + (unpackMantissa b).toNat := by
        simp only [BitVec.toNat_append, Nat.shiftLeft_eq]
        change 2 ^ 52 ||| _ = _
        rw [Nat.or_comm, Nat.or_two_pow_eq_add_of_lt hlt]
        omega
      have hlog : (1#1 ++ unpackMantissa b).toNat.log2 = 52 := by
        rw [hmant, Nat.log2_eq_iff (by omega)]
        omega
      have hbias : ((unpackExponent b).toNat - (Format.binary64.exponentBias +
          Format.binary64.mantissaBitsWithoutImplicit) + Format.binary64.exponentBias +
          Format.binary64.mantissaBitsWithoutImplicit : Int).toNat = (unpackExponent b).toNat := by
        omega
      simp only [UnpackedFloat.pack, hlog, hbias]
      rw [if_neg (by change ¬2048 ≤ _; omega),
        if_pos (show 52 + 1 = Format.binary64.mantissaBits from rfl)]
      have hE : BitVec.ofNat 11 (unpackExponent b).toNat = unpackExponent b := by simp
      have hM : BitVec.ofNat Format.binary64.mantissaBitsWithoutImplicit
          (1#1 ++ unpackMantissa b).toNat = unpackMantissa b := by
        apply BitVec.eq_of_toNat_eq
        change (1#1 ++ unpackMantissa b).toNat % 2 ^ 52 = _
        rw [hmant]
        omega
      rw [hE, hM]
      exact hdec

/-- Every double is the double of its bit pattern. -/
theorem ofBits_toBits (x : Float) : Float.ofBits x.toBits = x := by
  obtain ⟨⟨bits, valid⟩⟩ := x
  show Float.ofModel (Float.Model.pack (UnpackedFloat.unpack .binary64 bits.toBitVec)) = _
  simp only [Float.Model.pack, pack_unpack valid, UInt64.ofBitVec_toBitVec]

theorem eq_ofBits_of_toNat {x : Float} {n : Nat} (h : x.toBits.toNat = n) :
    x = Float.ofBits (UInt64.ofNat n) := by
  rw [← h, UInt64.ofNat_toNat, ofBits_toBits]

/-! ## Reading a pattern -/

/-- The significand and exponent of a finite double: below `2 ^ 53`, the exponent in
`[-1074, 971]`, and a significand of 53 bits unless the exponent is the least. -/
structure Canonical (m : Nat) (e : Int) : Prop where
  mantissa_lt : m < 2 ^ 53
  exponent_ge : -1074 ≤ e
  exponent_le : e ≤ 971
  normal : 2 ^ 52 ≤ m ∨ e = -1074

/-- The pattern of a double's magnitude written from its significand and exponent. -/
def magnitudeBits (m : Nat) (e : Int) : Nat := (e + 1074).toNat * 2 ^ 52 + m

theorem magnitudeBits_lt_infBits {m : Nat} {e : Int} (h : Canonical m e) :
    magnitudeBits m e < infBits := by
  have := h.mantissa_lt
  have := h.exponent_le
  unfold magnitudeBits infBits
  change _ < 2047 * 2 ^ 52
  have hk : (e + 1074).toNat ≤ 2045 := by omega
  have := Nat.mul_le_mul_right (2 ^ 52) hk
  omega

/-- The sign bit's weight. -/
def signBits (neg : Bool) : Nat := if neg then 2 ^ 63 else 0

variable {x : Float} {neg : Bool} {m : Nat} {e : Int}

/-- A finite double is `± m · 2 ^ e` with `m` and `e` canonical, and its pattern is its
magnitude's pattern under its sign bit. -/
theorem toBits_of_ofFloat (h : ofFloat x = .finite neg m e) :
    Canonical m e ∧ x.toBits.toNat = signBits neg + magnitudeBits m e := by
  have hb : x.toBits.toNat < 2 ^ 64 := x.toBits.toNat_lt
  unfold ofFloat at h
  unfold signBits magnitudeBits
  simp only [Nat.pow_eq, Nat.reducePow] at h hb ⊢
  split at h
  · split at h <;> cases h
  · split at h
    · -- subnormal or zero
      cases h
      refine ⟨⟨by omega, by omega, by omega, by omega⟩, ?_⟩
      by_cases hs : 9223372036854775808 ≤ x.toBits.toNat <;> simp [hs] <;> omega
    · -- normal
      cases h
      refine ⟨⟨by omega, by omega, by omega, by omega⟩, ?_⟩
      by_cases hs : 9223372036854775808 ≤ x.toBits.toNat <;> simp [hs] <;> omega

/-- A NaN is a pattern with all exponent bits set and a significand other than zero. -/
theorem ofFloat_eq_nan_iff :
    ofFloat x = .nan ↔ x.toBits.toNat / 2 ^ 52 % 2048 = 2047 ∧ x.toBits.toNat % 2 ^ 52 ≠ 0 := by
  unfold ofFloat
  simp only [Nat.pow_eq, Nat.reducePow]
  by_cases h₁ : x.toBits.toNat / 4503599627370496 % 2048 = 2047
  · by_cases h₂ : x.toBits.toNat % 4503599627370496 = 0 <;> simp [h₁, h₂]
  · rw [if_neg h₁]
    split <;> simp [h₁]

/-- An infinity is the pattern with all exponent bits set and a zero significand, under
its sign bit. -/
theorem toBits_of_ofFloat_infinite (h : ofFloat x = .infinite neg) :
    x.toBits.toNat = signBits neg + infBits := by
  have hb : x.toBits.toNat < 2 ^ 64 := x.toBits.toNat_lt
  unfold ofFloat at h
  unfold signBits infBits
  simp only [Nat.pow_eq, Nat.reducePow] at h hb ⊢
  by_cases h₁ : x.toBits.toNat / 4503599627370496 % 2048 = 2047
  · by_cases h₂ : x.toBits.toNat % 4503599627370496 = 0 <;> simp [h₁, h₂] at h
    subst h
    by_cases hs : 9223372036854775808 ≤ x.toBits.toNat <;> simp [hs] <;> omega
  · rw [if_neg h₁] at h
    split at h <;> simp at h

/-- A NaN is the canonical NaN. -/
theorem eq_nan_of_ofFloat (h : ofFloat x = .nan) : x = Real64.nan := by
  obtain ⟨htop, hm⟩ := ofFloat_eq_nan_iff.1 h
  -- the exponent field is all ones and the significand is not zero
  have he : @unpackExponent .binary64 x.toModel.toBits.toBitVec = -1#11 := by
    apply BitVec.eq_of_toNat_eq
    change x.toModel.toBits.toNat / 2 ^ 52 % 2048 = 2047 at htop
    simpa [unpackExponent, Nat.shiftRight_eq_div_pow] using htop
  have hm' : @unpackMantissa .binary64 x.toModel.toBits.toBitVec ≠ 0#52 := by
    intro h0
    have := congrArg BitVec.toNat h0
    simp [unpackMantissa] at this
    exact hm this
  have hcanon := x.toModel.valid.eq_packedNaN he hm'
  rw [← ofBits_toBits x]
  change Float.ofBits x.toModel.toBits = _
  rw [← UInt64.ofBitVec_toBitVec x.toModel.toBits, hcanon]
  rfl

/-- An infinity is `Real64.inf` of its sign. -/
theorem eq_inf_of_ofFloat (h : ofFloat x = .infinite neg) :
    x = if neg then -Real64.inf else Real64.inf := by
  rw [eq_ofBits_of_toNat (toBits_of_ofFloat_infinite h)]
  cases neg <;> decide

/-- A ratio whose magnitude is written with the pattern of a finite double's magnitude,
given that double's sign, is that double. -/
theorem ofRatio_eq_of_bits {n d : Nat} (h : ofFloat x = .finite neg m e)
    (hmag : (if n = 0 ∨ d = 0 then 0 else roundRatioBits n d) = magnitudeBits m e) :
    ofRatio neg n d = x := by
  obtain ⟨-, hbits⟩ := toBits_of_ofFloat h
  rw [eq_ofBits_of_toNat hbits]
  unfold ofRatio
  dsimp only
  rw [hmag]
  cases neg <;> simp [signBits, Nat.add_comm]

end Binary64

end Seaway
