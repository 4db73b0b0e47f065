import Mathlib
import Seaway.Proofs.Proportion
import Seaway.Proofs.Quotient
import Seaway.Proofs.Track.Valid

/-!
# Doubles at least zero

The distances, speeds and minutes of a transit edge are never NaN. Each is built from doubles
at least zero by sums, by products and quotients with a finite double above zero
(`Real64.IsPositive`) and by a square root, and none of these makes NaN of such operands. In
the logical model of `Float` a double at least zero unpacks to a zero of either sign, a
positive finite value or the positive infinity (`Real64.Unpacked.NonNeg`); the operations
round a positive exact result to a positive double or the positive infinity, so the class is
closed:

* `Real64.nonneg_add`, `Real64.nonneg_mul_isPositive`, `Real64.nonneg_div_isPositive`: sums,
  and products and quotients by a finite double above zero, stay at least zero;
* `Real64.sqrt_isNaN_or_nonneg`: a square root is NaN or at least zero;
* `Binary64.isPositive_ofNat`, `Binary64.isPositive_atLeast_ofInt`: counts and 64-bit
  differences convert to finite doubles, so dividing by them never makes `∞ / ∞`;
* `Geodesy.nonneg_distance`: a haversine distance is at least zero as soon as the arcsine of
  a double in `[0, 1]` is (`Geodesy.AsinNonneg`); `Float.asin` is opaque to the logic, so
  this is assumed, as the C library documents it.
-/

namespace Seaway

namespace Real64

open Float.Model UnpackedFloat

/-! ## Unpacked doubles at least zero -/

namespace Unpacked

/-- An unpacked double at least zero: a zero of either sign, a positive finite value or the
positive infinity. -/
def NonNeg : UnpackedFloat → Prop
  | .zero _ => True
  | .finite .positive .. => True
  | .infinity .positive => True
  | _ => False

theorem NonNeg.isNaN {u : UnpackedFloat} (h : NonNeg u) : u.isNaN = false := by
  rcases u with ⟨_ | _⟩ | _ | s | ⟨_ | _, m, e, hm⟩ <;> trivial

/-- At least zero is at or above the key of zero, off NaN. -/
theorem nonNeg_iff_rank (u : UnpackedFloat) :
    NonNeg u ↔ u.isNaN = false ∧ RankLE (2, 0, 0) (unpackedRank u) := by
  rcases u with ⟨_ | _⟩ | _ | s | ⟨_ | _, m, e, hm⟩ <;>
    simp [NonNeg, unpackedRank, RankLE, UnpackedFloat.isNaN]

/-- A pattern with a clear sign bit that is not NaN unpacks to a double at least zero. -/
theorem nonNeg_unpack {b : BitVec Format.binary64.numBits}
    (hs : Sign.ofBitVec (unpackSign b) = .positive) (hnan : unpackExponent b ≠ -1#_) :
    NonNeg (UnpackedFloat.unpack .binary64 b) := by
  unfold UnpackedFloat.unpack
  simp only [hnan, if_false, hs]
  split
  · split <;> trivial
  · trivial

theorem nonNeg_pack_finite {m : Nat} {e : Int} (hm : 0 < m) :
    NonNeg (Float.Model.pack (.finite .positive m e hm)).unpack := by
  simp only [Float.Model.pack, Float.Model.unpack, UInt64.toBitVec_ofBitVec]
  unfold UnpackedFloat.pack
  dsimp only
  have hbias : Format.binary64.exponentBias = 1023 := by decide
  split
  · -- too large: the positive infinity
    trivial
  · rename_i hover
    rw [hbias] at hover
    split
    · refine nonNeg_unpack (by rw [unpackSign_packComponents]; rfl) ?_
      rw [unpackExponent_packComponents]
      intro heq
      have := congrArg BitVec.toNat heq
      simp only [BitVec.toNat_ofNat] at this
      change _ % 2 ^ 11 = 2047 at this
      change ¬2048 ≤ _ at hover
      omega
    · refine nonNeg_unpack (by rw [unpackSign_packComponents]; rfl) ?_
      rw [unpackExponent_packComponents]
      decide

/-- Packing keeps a double at least zero so. -/
theorem nonNeg_unpack_pack {u : UnpackedFloat} (h : NonNeg u) :
    NonNeg (Float.Model.pack u).unpack := by
  rcases u with ⟨_ | _⟩ | _ | s | ⟨_ | _, m, e, hm⟩ <;> try trivial
  · rw [unpack_pack_zero]
    trivial
  · exact nonNeg_pack_finite hm

theorem nonNeg_roundWithAccuracy (m : Nat) (e : Int) (acc : Accuracy) :
    NonNeg (roundWithAccuracy .binary64 .positive m e acc) := by
  unfold roundWithAccuracy
  dsimp only
  split <;> trivial

theorem nonNeg_round (m : Nat) (e : Int) : NonNeg (UnpackedFloat.round .binary64 .positive m e) :=
  nonNeg_roundWithAccuracy _ _ _

variable {u v : UnpackedFloat} {m : Nat} {e : Int} {hm : 0 < m}

theorem nonNeg_add (hu : NonNeg u) (hv : NonNeg v) : NonNeg (UnpackedFloat.add .binary64 u v) := by
  rcases u with ⟨_ | _⟩ | _ | s | ⟨_ | _, m, e, hm⟩ <;> try trivial
  all_goals rcases v with ⟨_ | _⟩ | _ | t | ⟨_ | _, n, f, hn⟩ <;> try trivial
  all_goals simp only [UnpackedFloat.add]
  · -- zeros of either sign sum to a zero
    split <;> trivial
  · -- two positive significands aligned to the smaller exponent have a positive sum
    have hm' : 0 < m <<< (e - min e f).toNat := Nat.shiftLeft_pos_iff.2 hm
    have hn' : 0 < n <<< (f - min e f).toNat := Nat.shiftLeft_pos_iff.2 hn
    rw [normalize_of_pos (by simp only [Sign.apply, decreaseExponent]; omega)]
    exact nonNeg_round _ _

theorem nonNeg_mul_finite (hu : NonNeg u) :
    NonNeg (UnpackedFloat.mul .binary64 u (.finite .positive m e hm)) := by
  rcases u with ⟨_ | _⟩ | _ | s | ⟨_ | _, n, f, hn⟩ <;> try trivial
  exact nonNeg_roundWithAccuracy _ _ _

theorem nonNeg_finite_mul (hu : NonNeg u) :
    NonNeg (UnpackedFloat.mul .binary64 (.finite .positive m e hm) u) := by
  rcases u with ⟨_ | _⟩ | _ | s | ⟨_ | _, n, f, hn⟩ <;> try trivial
  exact nonNeg_roundWithAccuracy _ _ _

theorem nonNeg_div_finite (hu : NonNeg u) :
    NonNeg (UnpackedFloat.div .binary64 u (.finite .positive m e hm)) := by
  rcases u with ⟨_ | _⟩ | _ | s | ⟨_ | _, n, f, hn⟩ <;> try trivial
  exact nonNeg_roundWithAccuracy _ _ _

/-- A square root is NaN, of a value below zero, or at least zero. -/
theorem sqrt_eq_nan_or_nonNeg (u : UnpackedFloat) :
    UnpackedFloat.sqrt .binary64 u = .notANumber ∨ NonNeg (UnpackedFloat.sqrt .binary64 u) := by
  rcases u with ⟨_ | _⟩ | _ | s | ⟨_ | _, m, e, hm⟩ <;>
    try first | exact .inl rfl | exact .inr trivial
  exact .inr (nonNeg_roundWithAccuracy _ _ _)

end Unpacked

/-! ## Doubles at least zero -/

/-- A finite double above zero. -/
def IsPositive (a : Float) : Prop := ∃ m e hm, a.toModel.unpack = .finite .positive m e hm

variable {a b c x : Float}

theorem nonneg_iff : 0.0 ≤ x ↔ Unpacked.NonNeg x.toModel.unpack := by
  rw [le_iff_rank, Unpacked.nonNeg_iff_rank]
  exact ⟨fun h => ⟨h.2.1, h.2.2⟩, fun h => ⟨rfl, h.1, h.2⟩⟩

theorem IsPositive.nonneg (h : IsPositive a) : 0.0 ≤ a := by
  obtain ⟨m, e, hm, h⟩ := h
  rw [nonneg_iff, h]
  trivial

/-- The operations of doubles, as the logical model of `Float` computes them. -/
theorem unpack_add (a b : Float) : (a + b).toModel.unpack =
    (Float.Model.pack (UnpackedFloat.add .binary64 a.toModel.unpack b.toModel.unpack)).unpack :=
  rfl

theorem unpack_mul (a b : Float) : (a * b).toModel.unpack =
    (Float.Model.pack (UnpackedFloat.mul .binary64 a.toModel.unpack b.toModel.unpack)).unpack :=
  rfl

theorem unpack_sqrt (a : Float) : (Float.sqrt a).toModel.unpack =
    (Float.Model.pack (UnpackedFloat.sqrt .binary64 a.toModel.unpack)).unpack :=
  rfl

theorem nonneg_add (ha : 0.0 ≤ a) (hb : 0.0 ≤ b) : 0.0 ≤ a + b := by
  rw [nonneg_iff] at ha hb ⊢
  rw [unpack_add]
  exact Unpacked.nonNeg_unpack_pack (Unpacked.nonNeg_add ha hb)

theorem nonneg_mul_isPositive (ha : 0.0 ≤ a) (hb : IsPositive b) : 0.0 ≤ a * b := by
  obtain ⟨m, e, hm, hb⟩ := hb
  rw [nonneg_iff] at ha ⊢
  rw [unpack_mul, hb]
  exact Unpacked.nonNeg_unpack_pack (Unpacked.nonNeg_mul_finite ha)

theorem nonneg_isPositive_mul (ha : IsPositive a) (hb : 0.0 ≤ b) : 0.0 ≤ a * b := by
  obtain ⟨m, e, hm, ha⟩ := ha
  rw [nonneg_iff] at hb ⊢
  rw [unpack_mul, ha]
  exact Unpacked.nonNeg_unpack_pack (Unpacked.nonNeg_finite_mul hb)

theorem nonneg_div_isPositive (ha : 0.0 ≤ a) (hb : IsPositive b) : 0.0 ≤ a / b := by
  obtain ⟨m, e, hm, hb⟩ := hb
  rw [nonneg_iff] at ha ⊢
  rw [unpack_div, hb]
  exact Unpacked.nonNeg_unpack_pack (Unpacked.nonNeg_div_finite ha)

theorem sqrt_isNaN_or_nonneg (a : Float) : (Float.sqrt a).isNaN = true ∨ 0.0 ≤ Float.sqrt a := by
  rw [nonneg_iff]
  show (Float.sqrt a).toModel.unpack.isNaN = true ∨ _
  rw [unpack_sqrt]
  rcases Unpacked.sqrt_eq_nan_or_nonNeg a.toModel.unpack with h | h
  · rw [h]
    exact .inl rfl
  · exact .inr (Unpacked.nonNeg_unpack_pack h)

/-- A finite double above a double at least zero is a finite double above zero. -/
theorem isPositive_of_lt (hc : 0.0 ≤ c) (h : c < x) (hx : x.isFinite = true) : IsPositive x := by
  obtain ⟨-, -, hr⟩ := lt_iff_rank.1 (lt_of_le_of_lt hc h)
  change x.toModel.unpack.isFinite = true at hx
  change RankLT (2, 0, 0) (unpackedRank x.toModel.unpack) at hr
  unfold IsPositive
  generalize x.toModel.unpack = u at hx hr
  rcases u with ⟨_ | _⟩ | _ | s | ⟨_ | _, m, e, hm⟩ <;>
    simp [unpackedRank, RankLT, UnpackedFloat.isFinite] at hx hr ⊢
  exact hm

theorem nonneg_foldl_add {xs : List Float} (hacc : 0.0 ≤ a) (h : ∀ x ∈ xs, 0.0 ≤ x) :
    0.0 ≤ xs.foldl (· + ·) a := by
  induction xs generalizing a with
  | nil => exact hacc
  | cons x xs ih =>
    exact ih (nonneg_add hacc (h x (List.mem_cons_self ..))) fun y hy =>
      h y (List.mem_cons_of_mem _ hy)

theorem nonneg_sum {xs : List Float} (h : ∀ x ∈ xs, 0.0 ≤ x) : 0.0 ≤ sum xs :=
  nonneg_foldl_add (by decide) h

theorem isPositive_sixty : IsPositive 60.0 := ⟨_, _, _, rfl⟩

end Real64

/-! ## Conversions of integers -/

namespace Binary64

open Float.Model UnpackedFloat Real64

/-- The significand and exponent of a positive magnitude below the infinity's: a subnormal
below `2 ^ 52`, a normal with its implicit bit from there on. -/
theorem exists_canonical {b : Nat} (h0 : 0 < b) (hb : b < infBits) :
    ∃ m e, 0 < m ∧ Canonical m e ∧ magnitudeBits m e = b := by
  change b < 2047 * 2 ^ 52 at hb
  by_cases hs : b < 2 ^ 52
  · exact ⟨b, -1074, h0, ⟨by omega, le_refl _, by omega, .inr rfl⟩, by simp [magnitudeBits]⟩
  · refine ⟨b % 2 ^ 52 + 2 ^ 52, ((b / 2 ^ 52 : Nat) : Int) - 1075, by omega,
      ⟨by omega, by omega, by omega, .inl (by omega)⟩, ?_⟩
    unfold magnitudeBits
    have he : (((b / 2 ^ 52 : Nat) : Int) - 1075 + 1074).toNat = b / 2 ^ 52 - 1 := by omega
    rw [he]
    omega

/-- A count below `2 ^ 64` rounds to the pattern of a positive finite double: its scale lies
in `[-53, 11]`, and its significand keeps to 53 bits. -/
theorem roundRatioBits_one_lt {n : Nat} (h0 : 0 < n) (h : n < 2 ^ 64) :
    0 < roundRatioBits n 1 ∧ roundRatioBits n 1 < infBits := by
  have hlog : n.log2 < 64 := (Nat.log2_lt h0.ne').2 h
  have hscale : -53 ≤ scale n 1 ∧ scale n 1 ≤ 11 := by
    have h1 : (1 : Nat).log2 = 0 := by decide
    unfold scale
    dsimp only
    split <;> omega
  have hq : (scaledDivMod n 1 (scale n 1)).1 < 2 ^ 53 := by
    have hq := lt_of_le_of_lt (scaledDivMod_floor (n := n) one_pos (scale n 1)).1
      (scale_lt h0 one_pos).2
    rw [show (2 : ℚ) ^ (53 : Int) = 2 ^ 53 by norm_num] at hq
    exact_mod_cast hq
  -- the pattern is the scale's exponent field over a significand of at most `2 ^ 53`
  obtain ⟨q, hq', hbits⟩ : ∃ q ≤ 2 ^ 53, roundRatioBits n 1 =
      if infBits ≤ (scale n 1 + 1074).toNat * Nat.pow 2 52 + q then infBits
      else (scale n 1 + 1074).toNat * Nat.pow 2 52 + q := by
    rw [roundRatioBits_eq_scale, max_eq_left (by omega : (-1074 : Int) ≤ scale n 1)]
    exact ⟨_, by split <;> omega, rfl⟩
  have hp : Nat.pow 2 52 = 2 ^ 52 := rfl
  rw [hbits, hp]
  unfold infBits
  rw [hp]
  split <;> omega

theorem unpack_ofRatio_one (neg : Bool) {n : Nat} (h0 : 0 < n) (h : n < 2 ^ 64) :
    ∃ m e hm, (ofRatio neg n 1).toModel.unpack =
      .finite (if neg then .negative else .positive) m e hm := by
  obtain ⟨hpos, hlt⟩ := roundRatioBits_one_lt h0 h
  obtain ⟨m, e, hm, hc, hmag⟩ := exists_canonical hpos hlt
  exact ⟨m, e, hm, unpack_ofRatio neg hc hm (by rw [if_neg (by omega), hmag])⟩

theorem isPositive_ofNat {n : Nat} (h0 : 0 < n) (h : n < 2 ^ 64) : IsPositive (ofNat n) :=
  unpack_ofRatio_one false h0 h

theorem isPositive_ofInt {i : Int} (h0 : 0 < i) (h : i < 2 ^ 64) : IsPositive (ofInt i) := by
  have hneg : decide (i < 0) = false := decide_eq_false (by omega)
  unfold ofInt
  rw [hneg]
  exact unpack_ofRatio_one false (by omega) (by omega)

theorem nonneg_ofInt {i : Int} (h0 : 0 ≤ i) (h : i < 2 ^ 64) : 0.0 ≤ ofInt i := by
  rcases eq_or_lt_of_le h0 with rfl | hpos
  · decide
  · exact (isPositive_ofInt hpos h).nonneg

theorem isFinite_ofInt {i : Int} (h : i.natAbs < 2 ^ 64) : (ofInt i).isFinite = true := by
  rcases eq_or_ne i 0 with rfl | h0
  · rfl
  · obtain ⟨m, e, hm, hu⟩ := unpack_ofRatio_one (decide (i < 0)) (Int.natAbs_pos.2 h0) h
    show (ofRatio _ _ 1).toModel.unpack.isFinite = true
    rw [hu]
    rfl

/-- Elapsed seconds of a 64-bit difference, at least one, are a finite double above zero. -/
theorem isPositive_atLeast_ofInt {i : Int} (h : i.natAbs < 2 ^ 64) :
    IsPositive (atLeast (ofInt i) Geodesy.minElapsed) := by
  unfold atLeast
  split
  · exact isPositive_of_lt (by decide : (0.0 : Float) ≤ Geodesy.minElapsed) ‹_› (isFinite_ofInt h)
  · exact ⟨_, _, _, rfl⟩

end Binary64

/-! ## Distances and speeds -/

namespace Geodesy

open Real64

/-- The arcsine of a double in `[0, 1]` is at least zero. The C library's `asin` maps `[0, 1]`
onto `[0, π / 2]`; `Float.asin` is opaque to the logic, so distances assume it. That it is
not NaN would not be enough: the sum of distances of either infinite sign would be. -/
def AsinNonneg : Prop := ∀ x : Float, 0.0 ≤ x → x ≤ 1.0 → 0.0 ≤ Float.asin x

/-- The square root of the haversine, clamped to one, lies in `[0, 1]`: a root is NaN or at
least zero, and a NaN root is clamped to one. -/
theorem atMost_sqrt_mem_unit (a : Float) :
    0.0 ≤ atMost (Float.sqrt a) 1.0 ∧ atMost (Float.sqrt a) 1.0 ≤ 1.0 := by
  unfold atMost
  split
  · rename_i hlt
    refine ⟨(sqrt_isNaN_or_nonneg a).resolve_left ?_, le_of_lt hlt⟩
    rw [isNaN_left_of_lt hlt]
    decide
  · exact ⟨by decide, by decide⟩

theorem isPositive_twoEarthRadius : IsPositive (2.0 * earthRadius) := ⟨_, _, _, rfl⟩

theorem isPositive_knotsPerMps : IsPositive knotsPerMps := ⟨_, _, _, rfl⟩

/-- A distance is at least zero, when the arcsine is. -/
theorem nonneg_distance (hasin : AsinNonneg) (x₀ y₀ x₁ y₁ : Float) :
    0.0 ≤ distance x₀ y₀ x₁ y₁ := by
  unfold distance
  dsimp only
  exact nonneg_isPositive_mul isPositive_twoEarthRadius
    (hasin _ (atMost_sqrt_mem_unit _).1 (atMost_sqrt_mem_unit _).2)

end Geodesy

namespace Track

open Real64

variable {t : Track} {a b : Nat} {xs : Array Float}

theorem nonneg_of_mem_consecutiveDistances (hasin : Geodesy.AsinNonneg)
    (h : t.consecutiveDistances a b = .ok xs) : ∀ x ∈ xs.toList, 0.0 ≤ x := by
  obtain ⟨⟨⟩, -, h⟩ := Except.bind_eq_ok.1 h
  cases h
  intro x hx
  simp only [List.mem_map] at hx
  obtain ⟨⟨⟨x₀, y₀⟩, x₁, y₁⟩, -, rfl⟩ := hx
  exact Geodesy.nonneg_distance hasin x₀ y₀ x₁ y₁

theorem isPositive_of_mem_consecutiveSeconds (h : t.consecutiveSeconds a b = .ok xs) :
    ∀ x ∈ xs.toList, IsPositive x := by
  obtain ⟨⟨⟩, -, h⟩ := Except.bind_eq_ok.1 h
  obtain ⟨ds, hds, h⟩ := Except.bind_eq_ok.1 h
  cases h
  intro x hx
  simp only [List.mem_map] at hx
  obtain ⟨d, hd, rfl⟩ := hx
  -- each difference was computed, so it fits a signed 64-bit integer
  obtain ⟨⟨t₁, t₂⟩, -, hsub⟩ := Except.exists_of_mem_mapM hds hd
  obtain ⟨rfl, hlo, hhi⟩ := subInt64_eq_ok_iff.1 hsub
  have hpow : Nat.pow 2 63 = 9223372036854775808 := rfl
  simp only [minInt64, maxInt64, hpow] at hlo hhi
  exact Binary64.isPositive_atLeast_ofInt (by omega)

theorem nonneg_of_mem_consecutiveKnots (hasin : Geodesy.AsinNonneg)
    (h : t.consecutiveKnots a b = .ok xs) : ∀ x ∈ xs.toList, 0.0 ≤ x := by
  obtain ⟨ms, hms, h⟩ := Except.bind_eq_ok.1 h
  obtain ⟨ss, hss, h⟩ := Except.bind_eq_ok.1 h
  cases h
  intro x hx
  simp only [Array.toList_map, Array.toList_zip, List.mem_map] at hx
  obtain ⟨⟨m, s⟩, hp, rfl⟩ := hx
  obtain ⟨hm, hs⟩ := List.of_mem_zip hp
  exact nonneg_mul_isPositive
    (nonneg_div_isPositive (nonneg_of_mem_consecutiveDistances hasin hms m hm)
      (isPositive_of_mem_consecutiveSeconds hss s hs))
    Geodesy.isPositive_knotsPerMps

end Track

end Seaway
