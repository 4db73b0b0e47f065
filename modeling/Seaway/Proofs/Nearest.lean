import Mathlib
import Seaway.Proofs.Bits
import Seaway.Decimal.Shortest

/-!
# The double nearest to a ratio

`Binary64.roundRatioBits n d` writes the pattern of the double nearest to `n / d`. It picks
the exponent `k` at which the quotient has 53 bits (`2 ^ 52 ≤ (n / d) / 2 ^ k < 2 ^ 53`), or
the least exponent `-1074` for a subnormal value, and rounds the quotient at `k` half to
even. Every positive real in the neighbourhood of a positive double `m · 2 ^ e` that the
shortest decimal is searched in (`Decimal.Neighbourhood.ofBinary m e`) rounds to that double:

* `roundHalfEven_eq`: a quotient within half a unit of `M`, and at a tie only for an even
  `M`, rounds to `M`;
* `scale_lt`: the exponent chosen has the quotient in `[2 ^ 52, 2 ^ 53)`;
* `roundRatioBits_eq`: the pattern written is `magnitudeBits m e`. At the bottom of a binade
  the neighbourhood reaches a quarter unit below `m = 2 ^ 52`; a value there has its 53 bits
  one exponent lower and rounds up to `2 ^ 53`, the same pattern.
-/

namespace Seaway

namespace Decimal.Neighbourhood

/-- The rationals a neighbourhood contains: from `low` to `high` units of `num / den`, the
ends included iff it is closed. -/
def Contains (w : Neighbourhood) (x : ℚ) : Prop :=
  if w.closed then w.low * ((w.num : ℚ) / w.den) ≤ x ∧ x ≤ w.high * ((w.num : ℚ) / w.den)
  else w.low * ((w.num : ℚ) / w.den) < x ∧ x < w.high * ((w.num : ℚ) / w.den)

/-- The unit of the neighbourhood of `m · 2 ^ e` is `2 ^ (e - 2)`. -/
theorem ofBinary_unit (m : Nat) (e : Int) :
    ((ofBinary m e).num : ℚ) / (ofBinary m e).den = 2 ^ (e - 2) := by
  unfold ofBinary
  by_cases he : 2 ≤ e
  · simp only [if_pos he, Nat.pow_eq]
    push_cast
    rw [div_one, ← zpow_natCast, Int.toNat_of_nonneg (by omega)]
  · simp only [if_neg he, Nat.pow_eq]
    push_cast
    rw [one_div, ← zpow_natCast, Int.toNat_of_nonneg (by omega), ← zpow_neg, neg_sub]

/-- The ends of the neighbourhood of `m · 2 ^ e`, in units of `2 ^ (e - 2)`: a gap `g` of
two units below, or of one at the bottom of a binade above the least exponent, and two
units above. -/
theorem ofBinary_ends {m : Nat} (hm : 0 < m) (e : Int) :
    ∃ g : ℚ, ((ofBinary m e).low : ℚ) = 4 * m - g ∧ ((ofBinary m e).high : ℚ) = 4 * m + 2 ∧
      (g = 2 ∨ g = 1 ∧ m = 2 ^ 52) ∧ (m = 2 ^ 52 → -1074 < e → g = 1) := by
  have hhigh : ((ofBinary m e).high : ℚ) = 4 * m + 2 := by
    simp only [ofBinary]
    push_cast
    ring
  by_cases hb : m = Nat.pow 2 52 ∧ -1074 < e
  · refine ⟨1, ?_, hhigh, .inr ⟨rfl, hb.1⟩, fun _ _ => rfl⟩
    simp only [ofBinary, if_pos hb]
    push_cast [Nat.cast_sub (show 1 ≤ 4 * m by omega)]
    ring
  · refine ⟨2, ?_, hhigh, .inl rfl, fun h₁ h₂ => absurd ⟨h₁, h₂⟩ hb⟩
    simp only [ofBinary, if_neg hb]
    push_cast [Nat.cast_sub (show 2 ≤ 4 * m by omega)]
    ring

/-- What the neighbourhood of `m · 2 ^ e` says of `x / 2 ^ e`: it is within half a unit of
`m`, on the half only for an even `m`, and at the bottom of a binade above the least
exponent it is at most a quarter unit below. -/
theorem ofBinary_contains {m : Nat} {e : Int} {x : ℚ} (hm : 0 < m)
    (h : (ofBinary m e).Contains x) :
    (m : ℚ) - 1 / 2 ≤ x / 2 ^ e ∧ x / 2 ^ e ≤ m + 1 / 2 ∧
      (x / 2 ^ e = m - 1 / 2 ∨ x / 2 ^ e = m + 1 / 2 → m % 2 = 0) ∧
      (m = 2 ^ 52 → -1074 < e → (m : ℚ) - 1 / 4 ≤ x / 2 ^ e) := by
  have h2 : (0 : ℚ) < 2 ^ e := zpow_pos (by norm_num) e
  have hu : (2 : ℚ) ^ (e - 2) = 2 ^ e / 4 := by
    rw [zpow_sub₀ (by norm_num)]
    norm_num
  obtain ⟨g, hlow, hhigh, hg, hquarter⟩ := ofBinary_ends hm e
  have hclosed : (ofBinary m e).closed = (m % 2 == 0) := rfl
  have hform : ∀ a : ℚ, a * (2 ^ e / 4) = a / 4 * 2 ^ e := fun a => by ring
  have hx : x = x / 2 ^ e * 2 ^ e := by rw [div_mul_cancel₀ _ h2.ne']
  unfold Contains at h
  rw [ofBinary_unit, hu, hform, hform, hx, hlow, hhigh, mul_le_mul_iff_of_pos_right h2,
    mul_le_mul_iff_of_pos_right h2, mul_lt_mul_iff_of_pos_right h2,
    mul_lt_mul_iff_of_pos_right h2, hclosed] at h
  have hg2 : g ≤ 2 := by rcases hg with rfl | ⟨rfl, -⟩ <;> norm_num
  split at h
  · -- closed: the ends belong, and `m` is even
    rename_i heven
    obtain ⟨h₁, h₂⟩ := h
    refine ⟨by linarith, by linarith, fun _ => by simpa using heven, fun h₃ h₄ => ?_⟩
    rw [hquarter h₃ h₄] at h₁
    linarith
  · -- open: the ends do not belong
    obtain ⟨h₁, h₂⟩ := h
    refine ⟨by linarith, by linarith, fun ht => ?_, fun h₃ h₄ => ?_⟩
    · rcases ht with ht | ht <;> rw [ht] at h₁ h₂ <;> linarith
    · rw [hquarter h₃ h₄] at h₁
      linarith

end Decimal.Neighbourhood

namespace Binary64

open Decimal

variable {n d : Nat}

/-! ## Rounding a quotient half to even -/

/-- The quotient `num / den` rounded half to even, as `roundRatioBits` rounds it, is `M` when
the quotient lies within half a unit of `M`, reaching the half only for an even `M`. -/
theorem roundHalfEven_eq {num den M : Nat} (hden : 0 < den)
    (hlo : (M : ℚ) - 1 / 2 ≤ num / den) (hhi : (num : ℚ) / den ≤ M + 1 / 2)
    (htie : (num : ℚ) / den = M - 1 / 2 ∨ (num : ℚ) / den = M + 1 / 2 → M % 2 = 0) :
    (if den < 2 * (num % den) ∨ (2 * (num % den) = den ∧ num / den % 2 = 1)
      then num / den + 1 else num / den) = M := by
  -- the quotient is `q + r / den` with `q` whole and `0 ≤ r < den`
  have hden' : (0 : ℚ) < den := by exact_mod_cast hden
  have hdiv : (num : ℚ) / den = (num / den : Nat) + ((num % den : Nat) : ℚ) / den := by
    field_simp
    exact_mod_cast (Nat.div_add_mod num den).symm
  have hr : num % den < den := Nat.mod_lt _ hden
  set q := num / den
  set r := num % den
  rw [hdiv] at hlo hhi htie
  rcases lt_trichotomy (2 * r) den with hlt | heq | hgt
  · -- below the midpoint: the quotient rounds down to `q`
    have hfrac : ((r : ℚ) / den) < 1 / 2 := by
      rw [div_lt_iff₀ hden']
      have : ((2 * r : Nat) : ℚ) < den := by exact_mod_cast hlt
      push_cast at this
      linarith
    have h₁ : (M : ℚ) < q + 1 := by linarith [div_nonneg (Nat.cast_nonneg r) hden'.le]
    have h₂ : (q : ℚ) < M + 1 := by linarith [div_nonneg (Nat.cast_nonneg r) hden'.le]
    have h₁' : M < q + 1 := by exact_mod_cast h₁
    have h₂' : q < M + 1 := by exact_mod_cast h₂
    rw [if_neg (by omega)]
    omega
  · -- at the midpoint: a tie, which only an even `M` admits
    have hfrac : ((r : ℚ) / den) = 1 / 2 := by
      rw [div_eq_iff hden'.ne']
      have : ((2 * r : Nat) : ℚ) = den := by exact_mod_cast heq
      push_cast at this
      linarith
    rw [hfrac] at hlo hhi htie
    have h₁ : (M : ℚ) < q + 1 + 1 / 2 := by linarith
    have h₂ : (q : ℚ) ≤ M := by linarith
    have h₁' : M < q + 2 := by
      have : (M : ℚ) < q + 2 := by linarith
      exact_mod_cast this
    have h₂' : q ≤ M := by exact_mod_cast h₂
    rcases Nat.lt_or_ge q M with hqM | hqM
    · have hq : q + 1 = M := by omega
      have heven := htie (.inl (by rw [← hq]; push_cast; ring))
      rw [if_pos (.inr ⟨heq, by omega⟩)]
      exact hq
    · have hq : q = M := by omega
      have heven := htie (.inr (by rw [hq]))
      rw [if_neg (by omega)]
      exact hq
  · -- above the midpoint: the quotient rounds up to `q + 1`
    have hfrac : 1 / 2 < ((r : ℚ) / den) := by
      rw [lt_div_iff₀ hden']
      have : (den : ℚ) < ((2 * r : Nat) : ℚ) := by exact_mod_cast hgt
      push_cast at this
      linarith
    have hfrac' : ((r : ℚ) / den) < 1 := by
      rw [div_lt_one hden']
      exact_mod_cast hr
    have h₁ : (M : ℚ) < q + 2 := by linarith
    have h₂ : (q : ℚ) < M := by linarith
    have h₁' : M < q + 2 := by exact_mod_cast h₁
    have h₂' : q < M := by exact_mod_cast h₂
    rw [if_pos (.inl hgt)]
    omega

/-! ## The exponent of the quotient -/

/-- `scaledDivMod` divides two naturals whose ratio is `n / d / 2 ^ k`. -/
theorem scaledDivMod_spec (hd : 0 < d) (k : Int) :
    ∃ num den : Nat, scaledDivMod n d k = (num / den, num % den, den) ∧ 0 < den ∧
      (num : ℚ) / den = n / d / 2 ^ k := by
  unfold scaledDivMod
  by_cases hk : k ≤ 0
  · refine ⟨n * Nat.pow 2 (-k).toNat, d, by simp only [if_pos hk], hd, ?_⟩
    have hpow : (2 : ℚ) ^ k = 1 / 2 ^ (-k).toNat := by
      rw [← zpow_natCast, Int.toNat_of_nonneg (by omega), zpow_neg, one_div, inv_inv]
    rw [hpow]
    push_cast [Nat.pow_eq]
    field_simp
  · refine ⟨n, d * Nat.pow 2 k.toNat, by simp only [if_neg hk], Nat.mul_pos hd (Nat.two_pow_pos _), ?_⟩
    have hpow : (2 : ℚ) ^ k = 2 ^ k.toNat := by
      rw [← zpow_natCast, Int.toNat_of_nonneg (by omega)]
    rw [hpow]
    push_cast [Nat.pow_eq]
    field_simp

/-- The quotient `num / den` of `scaledDivMod` at `k`, as a rational, and its whole part. -/
theorem scaledDivMod_floor (hd : 0 < d) (k : Int) :
    ((scaledDivMod n d k).1 : ℚ) ≤ (n : ℚ) / d / 2 ^ k ∧
      (n : ℚ) / d / 2 ^ k < (scaledDivMod n d k).1 + 1 := by
  obtain ⟨num, den, heq, hden, hval⟩ := scaledDivMod_spec (n := n) hd k
  rw [heq, ← hval]
  have hden' : (0 : ℚ) < den := by exact_mod_cast hden
  constructor
  · rw [le_div_iff₀ hden']
    exact_mod_cast Nat.div_mul_le_self num den
  · rw [div_lt_iff₀ hden']
    have h := Nat.lt_div_mul_add (a := num) hden
    have h' : (num : ℚ) < (num / den : Nat) * den + den := by exact_mod_cast h
    simp only
    linarith

/-- The exponent at which the quotient has 53 bits, before the subnormal floor. -/
def scale (n d : Nat) : Int :=
  let k0 : Int := (n.log2 : Int) - d.log2 - 53
  if Nat.pow 2 53 ≤ (scaledDivMod n d k0).1 then k0 + 1 else k0

/-- The powers of two around a positive natural. -/
theorem zpow_log2_le {n : Nat} (hn : 0 < n) :
    (2 : ℚ) ^ (n.log2 : Int) ≤ n ∧ (n : ℚ) < 2 ^ ((n.log2 : Int) + 1) := by
  have h₁ := Nat.log2_self_le hn.ne'
  have h₂ := Nat.lt_log2_self (n := n)
  constructor
  · rw [zpow_natCast]
    exact_mod_cast h₁
  · rw [show (n.log2 : Int) + 1 = ((n.log2 + 1 : Nat) : Int) by push_cast; rfl, zpow_natCast]
    exact_mod_cast h₂

/-- At the exponent `scale n d` the quotient `n / d` has 53 bits. -/
theorem scale_lt (hn : 0 < n) (hd : 0 < d) :
    (2 : ℚ) ^ (52 : Int) ≤ (n : ℚ) / d / 2 ^ scale n d ∧
      (n : ℚ) / d / 2 ^ scale n d < 2 ^ (53 : Int) := by
  set k0 : Int := (n.log2 : Int) - d.log2 - 53 with hk0
  have h2 : (0 : ℚ) < 2 := by norm_num
  have hd' : (0 : ℚ) < d := by exact_mod_cast hd
  obtain ⟨hn₁, hn₂⟩ := zpow_log2_le hn
  obtain ⟨hd₁, hd₂⟩ := zpow_log2_le hd
  -- at `k0` the quotient lies strictly between `2 ^ 52` and `2 ^ 54`
  have hlo : (2 : ℚ) ^ (52 : Int) < n / d / 2 ^ k0 := by
    rw [lt_div_iff₀ (zpow_pos h2 _), lt_div_iff₀ hd']
    calc (2 : ℚ) ^ (52 : Int) * 2 ^ k0 * d < 2 ^ (52 : Int) * 2 ^ k0 * 2 ^ ((d.log2 : Int) + 1) := by
          gcongr
      _ = 2 ^ (n.log2 : Int) := by
          rw [← zpow_add₀ h2.ne', ← zpow_add₀ h2.ne']
          congr 1
          omega
      _ ≤ n := hn₁
  have hhi : (n : ℚ) / d / 2 ^ k0 < 2 ^ (54 : Int) := by
    rw [div_lt_iff₀ (zpow_pos h2 _), div_lt_iff₀ hd']
    calc (n : ℚ) < 2 ^ ((n.log2 : Int) + 1) := hn₂
      _ = 2 ^ (54 : Int) * 2 ^ k0 * 2 ^ (d.log2 : Int) := by
          rw [← zpow_add₀ h2.ne', ← zpow_add₀ h2.ne']
          congr 1
          omega
      _ ≤ 2 ^ (54 : Int) * 2 ^ k0 * d := by gcongr
  obtain ⟨hq₁, hq₂⟩ := scaledDivMod_floor (n := n) hd k0
  unfold scale
  simp only [← hk0, Nat.pow_eq]
  split
  · -- 54 bits: one exponent up halves the quotient
    rename_i hq
    have hq' : (2 : ℚ) ^ (53 : Int) ≤ (scaledDivMod n d k0).1 := by
      rw [zpow_ofNat]
      exact_mod_cast hq
    have hhalf : (n : ℚ) / d / 2 ^ (k0 + 1) = n / d / 2 ^ k0 / 2 := by
      rw [zpow_add_one₀ h2.ne']
      ring
    rw [hhalf]
    have h53 : (2 : ℚ) ^ (53 : Int) = 2 ^ (52 : Int) * 2 := by norm_num
    have h54 : (2 : ℚ) ^ (54 : Int) = 2 ^ (53 : Int) * 2 := by norm_num
    constructor
    · rw [le_div_iff₀ h2]
      linarith
    · rw [div_lt_iff₀ h2]
      linarith
  · -- 53 bits already
    rename_i hq
    have hq' : ((scaledDivMod n d k0).1 : ℚ) + 1 ≤ 2 ^ (53 : Int) := by
      rw [zpow_ofNat]
      exact_mod_cast (show (scaledDivMod n d k0).1 + 1 ≤ 2 ^ 53 by omega)
    exact ⟨hlo.le, by linarith⟩

/-! ## The double nearest to a ratio -/

theorem le_div_zpow_iff {x : ℚ} {a k : Int} : (2 : ℚ) ^ a ≤ x / 2 ^ k ↔ 2 ^ (a + k) ≤ x := by
  rw [le_div_iff₀ (zpow_pos (by norm_num) k), ← zpow_add₀ (by norm_num)]

theorem div_zpow_lt_iff {x : ℚ} {a k : Int} : x / 2 ^ k < 2 ^ a ↔ x < 2 ^ (a + k) := by
  rw [div_lt_iff₀ (zpow_pos (by norm_num) k), ← zpow_add₀ (by norm_num)]

/-- Below a power of two that is not above another, the exponents are in order. -/
theorem lt_of_zpow_le_of_lt {x : ℚ} {a b : Int} (ha : (2 : ℚ) ^ a ≤ x) (hb : x < 2 ^ b) :
    a < b :=
  (zpow_lt_zpow_iff_right₀ one_lt_two).1 (ha.trans_lt hb)

/-- `roundRatioBits` rounds the quotient half to even at the exponent `scale n d`, or at the
least exponent for a subnormal value. -/
theorem roundRatioBits_eq_scale (n d : Nat) :
    roundRatioBits n d =
      let k := max (scale n d) (-1074)
      let q := (scaledDivMod n d k).1
      let r := (scaledDivMod n d k).2.1
      let den := (scaledDivMod n d k).2.2
      let bits := (k + 1074).toNat * Nat.pow 2 52 +
        if den < 2 * r ∨ (2 * r = den ∧ q % 2 = 1) then q + 1 else q
      if infBits ≤ bits then infBits else bits :=
  rfl

/-- **Every real the neighbourhood of a double contains rounds to that double.** A positive
ratio `n / d` in the neighbourhood of the finite double `m · 2 ^ e` is written with the
double's magnitude pattern. -/
theorem roundRatioBits_eq {m : Nat} {e : Int} (hc : Canonical m e) (hm : 0 < m) (hn : 0 < n)
    (hd : 0 < d) (hx : (Neighbourhood.ofBinary m e).Contains ((n : ℚ) / d)) :
    roundRatioBits n d = magnitudeBits m e := by
  obtain ⟨hlo, hhi, htie, hquarter⟩ := Neighbourhood.ofBinary_contains hm hx
  obtain ⟨hK₁, hK₂⟩ := scale_lt hn hd
  rw [le_div_zpow_iff] at hK₁
  rw [div_zpow_lt_iff] at hK₂
  have hm53 := hc.mantissa_lt
  have he₁ := hc.exponent_ge
  -- the value is below `2 ^ 53` units of `2 ^ e`, so `scale n d ≤ e`
  have htop : (n : ℚ) / d < 2 ^ ((53 : Int) + e) := by
    rw [← div_zpow_lt_iff]
    have : (m : ℚ) + 1 / 2 < 2 ^ (53 : Int) := by
      rw [zpow_ofNat]
      have : (m : ℚ) + 1 ≤ 2 ^ 53 := by exact_mod_cast hm53
      linarith
    linarith
  have hKe : scale n d ≤ e := by have := lt_of_zpow_le_of_lt hK₁ htop; omega
  -- the exponent `k` rounded at and the significand `M` the quotient rounds to there
  obtain ⟨k, M, hk, hM, hlo', hhi', htie'⟩ : ∃ k M, max (scale n d) (-1074) = k ∧
      (k + 1074).toNat * 2 ^ 52 + M = magnitudeBits m e ∧
      (M : ℚ) - 1 / 2 ≤ n / d / 2 ^ k ∧ (n : ℚ) / d / 2 ^ k ≤ M + 1 / 2 ∧
      ((n : ℚ) / d / 2 ^ k = M - 1 / 2 ∨ (n : ℚ) / d / 2 ^ k = M + 1 / 2 → M % 2 = 0) := by
    by_cases hk : max (scale n d) (-1074) = e
    · -- the value's own exponent
      exact ⟨e, m, hk, rfl, hlo, hhi, htie⟩
    · -- below `2 ^ 52` units at the bottom of a binade: 53 bits one exponent lower
      have hlt : scale n d < e := by omega
      have hbelow : (n : ℚ) / d / 2 ^ e < 2 ^ (52 : Int) := by
        rw [div_zpow_lt_iff]
        exact hK₂.trans_le (zpow_le_zpow_right₀ (by norm_num) (by omega))
      have he₂ : -1074 < e := by omega
      have hm52 : m = 2 ^ 52 := by
        have h₁ := hc.normal.resolve_right (by omega)
        have h₂ : (m : ℚ) < 2 ^ 52 + 1 := by rw [zpow_ofNat] at hbelow; linarith
        have h₃ : m < 2 ^ 52 + 1 := by exact_mod_cast h₂
        omega
      have hq := hquarter hm52 he₂
      rw [hm52] at hq
      push_cast at hq
      have hhalf : (n : ℚ) / d / 2 ^ (e - 1) = n / d / 2 ^ e * 2 := by
        rw [zpow_sub_one₀ (by norm_num)]
        field_simp
      have hKe' : scale n d = e - 1 := by
        have h₁ : (2 : ℚ) ^ ((52 : Int) + (e - 1)) ≤ n / d := by
          rw [← le_div_zpow_iff, hhalf, zpow_ofNat]
          linarith
        have := lt_of_zpow_le_of_lt h₁ hK₂
        omega
      refine ⟨e - 1, 2 ^ 53, by omega, ?_, ?_, ?_, fun _ => by norm_num⟩
      · rw [hm52, magnitudeBits]
        have : (e - 1 + 1074).toNat + 1 = (e + 1074).toNat := by omega
        rw [← this]
        ring
      · rw [hhalf]
        push_cast
        linarith
      · rw [hhalf]
        rw [zpow_ofNat] at hbelow
        push_cast
        linarith
  obtain ⟨num, den, hsdm, hden, hval⟩ := scaledDivMod_spec (n := n) hd k
  rw [← hval] at hlo' hhi' htie'
  have hround := roundHalfEven_eq hden hlo' hhi' htie'
  have hlim := magnitudeBits_lt_infBits hc
  rw [roundRatioBits_eq_scale]
  dsimp only
  rw [hk, hsdm]
  dsimp only
  rw [hround, Nat.pow_eq, hM, if_neg (by omega)]

end Binary64

end Seaway
