import Mathlib
import Seaway.Proofs.Nearest

/-!
# The shortest decimal lies in the neighbourhood

`Decimal.shortest evenTie m e` is a decimal with a positive significand in the neighbourhood
of the positive double `m · 2 ^ e`. The test of a grid point is exact (`holds_iff`), so a
point that `pick` returns lies in the neighbourhood. Seventeen significant digits always give
one: on the grid `10 ^ (t - 16)`, for the leading power `10 ^ t ≤ m · 2 ^ e`, the nearer of the
two grid points around the value is closer than either end (`pick_seventeen_isSome`), so the
search never falls back. Dropping trailing zeros keeps the value (`value_normalize`).
-/

namespace Seaway

namespace Decimal

/-- The value of a decimal. -/
def value (d : Decimal) : ℚ := d.digits * 10 ^ d.exp

theorem pow10Ratio_spec (g : Int) : 0 < (pow10Ratio g).1 ∧ 0 < (pow10Ratio g).2 ∧
    ((pow10Ratio g).1 : ℚ) / (pow10Ratio g).2 = 10 ^ g := by
  unfold pow10Ratio
  by_cases hg : 0 ≤ g
  · simp only [if_pos hg, Nat.pow_eq]
    refine ⟨Nat.pow_pos (by norm_num), Nat.one_pos, ?_⟩
    push_cast
    rw [div_one, ← zpow_natCast, Int.toNat_of_nonneg hg]
  · simp only [if_neg hg, Nat.pow_eq]
    refine ⟨Nat.one_pos, Nat.pow_pos (by norm_num), ?_⟩
    push_cast
    rw [one_div, ← zpow_natCast, Int.toNat_of_nonneg (by omega), ← zpow_neg, neg_neg]

/-! ## Digit counts -/

theorem digitCount_spec (n : Nat) : 1 ≤ digitCount n ∧ 10 ^ (digitCount n - 1) ≤ max n 1 ∧
    n < 10 ^ digitCount n := by
  induction n using Nat.strong_induction_on with
  | _ n ih =>
    rw [digitCount]
    split
    · exact ⟨le_rfl, by simp, by simpa⟩
    · rename_i hn
      obtain ⟨h₁, h₂, h₃⟩ := ih (n / 10) (by omega)
      refine ⟨by omega, ?_, ?_⟩
      · rw [Nat.add_sub_cancel, show digitCount (n / 10) = digitCount (n / 10) - 1 + 1 by omega,
          Nat.pow_succ]
        have : max (n / 10) 1 = n / 10 := by omega
        rw [this] at h₂
        omega
      · rw [Nat.pow_succ]
        omega

/-- Dropping trailing zeros keeps the value. -/
@[simp] theorem value_normalize (d : Decimal) : (normalize d).value = d.value := by
  fun_induction normalize d with
  | case1 d h ih =>
    rw [ih]
    have hd : (d.digits : ℚ) = (d.digits / 10 : Nat) * 10 := by
      exact_mod_cast (Nat.div_mul_cancel (Nat.dvd_of_mod_eq_zero h.2)).symm
    simp only [value, hd, zpow_add_one₀ (show (10 : ℚ) ≠ 0 by norm_num)]
    ring
  | case2 => rfl

theorem digits_pos_of_value_pos {d : Decimal} (h : 0 < d.value) : 0 < d.digits := by
  by_contra h0
  rw [value, Nat.eq_zero_of_not_pos h0, Nat.cast_zero, zero_mul] at h
  exact lt_irrefl 0 h

namespace Neighbourhood

variable {w : Neighbourhood}

/-- The value a neighbourhood is around, `value` units of `num / den`. -/
def center (w : Neighbourhood) : ℚ := w.value * ((w.num : ℚ) / w.den)

theorem center_eq : w.center = ((w.value * w.num : Nat) : ℚ) / w.den := by
  unfold center
  push_cast
  ring

/-- A point strictly between the ends lies in the neighbourhood, open or closed. -/
theorem contains_of_lt_of_lt {x : ℚ} (hlo : w.low * ((w.num : ℚ) / w.den) < x)
    (hhi : x < w.high * ((w.num : ℚ) / w.den)) : w.Contains x := by
  unfold Contains
  split
  · exact ⟨hlo.le, hhi.le⟩
  · exact ⟨hlo, hhi⟩

theorem Contains.low_le {x : ℚ} (h : w.Contains x) : w.low * ((w.num : ℚ) / w.den) ≤ x := by
  unfold Contains at h
  split at h
  · exact h.1
  · exact h.1.le

/-! ## Testing a grid point -/

/-- A grid point passes the test exactly when its value lies in the neighbourhood. -/
theorem holds_iff (hden : 0 < w.den) (c : Nat) (g : Int) :
    w.holds c g = true ↔ w.Contains (c * 10 ^ g) := by
  obtain ⟨-, hb, hg⟩ := pow10Ratio_spec g
  unfold holds Contains
  generalize pow10Ratio g = p at hb hg ⊢
  obtain ⟨top, bottom⟩ := p
  dsimp only at hb hg ⊢
  have hden' : (0 : ℚ) < w.den := by exact_mod_cast hden
  have hb' : (0 : ℚ) < bottom := by exact_mod_cast hb
  -- each end compared over the common denominator `den · bottom`
  have hle : ∀ a : Nat, a * w.num * bottom ≤ c * top * w.den ↔
      (a : ℚ) * ((w.num : ℚ) / w.den) ≤ c * 10 ^ g := fun a => by
    rw [← Nat.cast_le (α := ℚ), ← hg, mul_div_assoc', mul_div_assoc',
      div_le_div_iff₀ hden' hb']
    push_cast
    constructor <;> intro h <;> linarith
  have hge : ∀ a : Nat, c * top * w.den ≤ a * w.num * bottom ↔
      (c : ℚ) * 10 ^ g ≤ a * ((w.num : ℚ) / w.den) := fun a => by
    rw [← Nat.cast_le (α := ℚ), ← hg, mul_div_assoc', mul_div_assoc',
      div_le_div_iff₀ hb' hden']
    push_cast
    constructor <;> intro h <;> linarith
  have hlt : ∀ a : Nat, a * w.num * bottom < c * top * w.den ↔
      (a : ℚ) * ((w.num : ℚ) / w.den) < c * 10 ^ g := fun a => by
    rw [← not_le, hge, not_le]
  have hgt : ∀ a : Nat, c * top * w.den < a * w.num * bottom ↔
      (c : ℚ) * 10 ^ g < a * ((w.num : ℚ) / w.den) := fun a => by
    rw [← not_le, hle, not_le]
  split <;> simp only [decide_eq_true_eq, hle, hge, hlt, hgt]

/-- A point that `pick` returns lies in the neighbourhood. -/
theorem pick_contains (hden : 0 < w.den) {evenTie : Bool} {k : Nat} {d : Decimal}
    (h : w.pick evenTie k = some d) : w.Contains d.value := by
  unfold pick at h
  dsimp only at h
  split at h
  · rename_i h₁ h₂
    rw [← Option.some.inj h, Decimal.value]
    split
    · exact (holds_iff hden _ _).1 h₂
    · exact (holds_iff hden _ _).1 h₁
  · rename_i h₁ _
    rw [← Option.some.inj h, Decimal.value]
    exact (holds_iff hden _ _).1 h₁
  · rename_i _ h₂
    rw [← Option.some.inj h, Decimal.value]
    exact (holds_iff hden _ _).1 h₂
  · cases h

/-! ## The grid around the value -/

/-- `floorAt g` is the grid point of spacing `10 ^ g` at or below the value. -/
theorem floorAt_spec (hden : 0 < w.den) (g : Int) :
    (w.floorAt g : ℚ) * 10 ^ g ≤ w.center ∧ w.center < (w.floorAt g + 1) * 10 ^ g := by
  obtain ⟨ht, hb, hg⟩ := pow10Ratio_spec g
  have h10 : (0 : ℚ) < 10 ^ g := zpow_pos (by norm_num) g
  have hfloor : w.floorAt g = ⌊w.center / 10 ^ g⌋₊ := by
    unfold floorAt
    rw [center_eq]
    generalize pow10Ratio g = p at ht hb hg ⊢
    obtain ⟨top, bottom⟩ := p
    dsimp only at ht hb hg ⊢
    rw [← Nat.floor_div_eq_div (K := ℚ), ← hg]
    congr 1
    push_cast
    field_simp
  have hc : 0 ≤ w.center := by
    unfold center
    positivity
  rw [hfloor, ← le_div_iff₀ h10, ← div_lt_iff₀ h10]
  exact ⟨Nat.floor_le (div_nonneg hc h10.le), Nat.lt_floor_add_one _⟩

/-- `leadingPower` is a power of ten at or below the value. -/
theorem leadingPower_le (hp : 0 < w.value * w.num) (hq : 0 < w.den) :
    (10 : ℚ) ^ w.leadingPower ≤ w.center := by
  unfold leadingPower
  rw [center_eq]
  generalize w.value * w.num = p at hp ⊢
  generalize w.den = q at hq ⊢
  have hq' : (0 : ℚ) < q := by exact_mod_cast hq
  dsimp only
  split
  · -- the value is at least one: a power of ten at or below its whole part
    rename_i hqp
    obtain ⟨h₁, h₂, -⟩ := digitCount_spec (p / q)
    rw [max_eq_left (Nat.one_le_div_iff hq |>.2 hqp)] at h₂
    rw [show (digitCount (p / q) : Int) - 1 = ((digitCount (p / q) - 1 : Nat) : Int) by omega,
      zpow_natCast]
    calc (10 : ℚ) ^ (digitCount (p / q) - 1) ≤ ((p / q : Nat) : ℚ) := by exact_mod_cast h₂
      _ ≤ p / q := Nat.cast_div_le
  · -- the value is below one: the power is read off the digits of `q / p`
    rename_i hpq
    obtain ⟨-, -, h₃⟩ := digitCount_spec (q / p)
    have hinv : ∀ n : Nat, q ≤ p * 10 ^ n → (10 : ℚ) ^ (-(n : Int)) ≤ p / q := fun n hn => by
      rw [zpow_neg, zpow_natCast, inv_eq_one_div, div_le_div_iff₀ (by positivity) hq', one_mul]
      exact_mod_cast hn
    split
    · rename_i hle
      exact hinv _ (by simpa [Nat.pow_eq] using hle)
    · apply hinv
      calc q ≤ (q / p + 1) * p := (Nat.lt_div_mul_add hp).le.trans (by rw [Nat.succ_mul])
        _ ≤ 10 ^ digitCount (q / p) * p := Nat.mul_le_mul_right _ h₃
        _ = p * 10 ^ digitCount (q / p) := Nat.mul_comm _ _

/-- Where the grid is finer than the neighbourhood is wide, one of the two grid points
around the value lies in it, and `pick` finds a point. -/
theorem pick_isSome (hden : 0 < w.den) (evenTie : Bool) (k : Nat)
    (hlo : w.low * ((w.num : ℚ) / w.den) < w.center)
    (hhi : w.center < w.high * ((w.num : ℚ) / w.den))
    (hgrid : (10 : ℚ) ^ (w.leadingPower - k + 1) < (w.high - w.low) * ((w.num : ℚ) / w.den)) :
    (w.pick evenTie k).isSome := by
  set g := w.leadingPower - k + 1
  obtain ⟨hf₁, hf₂⟩ := floorAt_spec hden g
  have hpick : w.holds (w.floorAt g) g = true ∨ w.holds (w.floorAt g + 1) g = true := by
    by_cases hbelow : w.low * ((w.num : ℚ) / w.den) < w.floorAt g * 10 ^ g
    · -- the point below the value is above the lower end
      exact .inl ((holds_iff hden _ _).2 (contains_of_lt_of_lt hbelow (by linarith)))
    · -- else the point above is within one grid step of the lower end
      refine .inr ((holds_iff hden _ _).2 (contains_of_lt_of_lt ?_ ?_))
      · push_cast
        linarith
      · push_cast
        linarith
  unfold pick
  dsimp only
  rcases hpick with h | h
  · rw [h]
    cases w.holds (w.floorAt g + 1) g <;> rfl
  · rw [h]
    cases w.holds (w.floorAt g) g <;> rfl

/-! ## The neighbourhood of a double -/

theorem ofBinary_den_pos (m : Nat) (e : Int) : 0 < (ofBinary m e).den := by
  unfold ofBinary
  dsimp only
  split
  · exact Nat.one_pos
  · exact Nat.pow_pos (by norm_num)

theorem ofBinary_center (m : Nat) (e : Int) : (ofBinary m e).center = m * 2 ^ e := by
  unfold center
  rw [ofBinary_unit, show ((ofBinary m e).value : ℚ) = 4 * m by simp [ofBinary],
    zpow_sub₀ (by norm_num)]
  ring

/-- On the grid of seventeen significant digits a positive double's neighbourhood holds a
point: the spacing is at most the value over `10 ^ 16`, below the width `(2 + gap) · 2 ^ (e - 2)`
since `m < 2 ^ 53 < 10 ^ 16`, and `4 · 2 ^ 52 < 3 · 10 ^ 16` where the gap below is one unit. -/
theorem ofBinary_pick_isSome {m : Nat} {e : Int} (hc : Binary64.Canonical m e) (hm : 0 < m)
    (evenTie : Bool) : ((ofBinary m e).pick evenTie 17).isSome := by
  obtain ⟨gap, hlow, hhigh, hgap, -⟩ := ofBinary_ends hm e
  have hu : (0 : ℚ) < 2 ^ (e - 2) := zpow_pos (by norm_num) _
  have h2 : (2 : ℚ) ^ e = 4 * 2 ^ (e - 2) := by
    rw [zpow_sub₀ (by norm_num)]
    norm_num
    ring
  have hgap₀ : 0 < gap := by rcases hgap with rfl | ⟨rfl, -⟩ <;> norm_num
  have hwide : (4 * m : ℚ) < (2 + gap) * 10 ^ 16 := by
    rcases hgap with rfl | ⟨rfl, rfl⟩
    · have : (m : ℚ) < 2 ^ 53 := by exact_mod_cast hc.mantissa_lt
      linarith
    · norm_num
  have hvalue : 0 < (ofBinary m e).value * (ofBinary m e).num := by
    have : 0 < (ofBinary m e).num := by
      unfold ofBinary
      dsimp only
      split
      · exact Nat.pow_pos (by norm_num)
      · exact Nat.one_pos
    exact Nat.mul_pos (by simp [ofBinary, hm]) this
  have hlead := leadingPower_le hvalue (ofBinary_den_pos m e)
  rw [ofBinary_center] at hlead
  apply pick_isSome (ofBinary_den_pos m e)
  · rw [ofBinary_center, ofBinary_unit, hlow, h2]
    nlinarith
  · rw [ofBinary_center, ofBinary_unit, hhigh, h2]
    nlinarith
  · rw [ofBinary_unit, hlow, hhigh]
    calc (10 : ℚ) ^ ((ofBinary m e).leadingPower - 17 + 1)
        = 10 ^ (ofBinary m e).leadingPower / 10 ^ 16 := by
          rw [show (ofBinary m e).leadingPower - 17 + 1 = (ofBinary m e).leadingPower - 16 by ring,
            zpow_sub₀ (by norm_num)]
          norm_num
      _ ≤ m * 2 ^ e / 10 ^ 16 := by gcongr
      _ < (4 * m + 2 - (4 * m - gap)) * 2 ^ (e - 2) := by
          rw [div_lt_iff₀ (by positivity), h2]
          nlinarith

end Neighbourhood

/-- The shortest decimal of a positive double has a positive significand and lies in the
double's neighbourhood: seventeen digits always give a point, so the fallback is never
taken. -/
theorem shortest_contains {m : Nat} {e : Int} (hc : Binary64.Canonical m e) (hm : 0 < m)
    (evenTie : Bool) : 0 < (shortest evenTie m e).digits ∧
      (Neighbourhood.ofBinary m e).Contains (shortest evenTie m e).value := by
  obtain ⟨d, hfound⟩ : ∃ d, (List.range 17).findSome?
      (fun i => (Neighbourhood.ofBinary m e).pick evenTie (i + 1)) = some d := by
    apply Option.isSome_iff_exists.1
    rw [List.findSome?_isSome_iff]
    exact ⟨16, by simp, Neighbourhood.ofBinary_pick_isSome hc hm evenTie⟩
  obtain ⟨i, -, hi⟩ := List.exists_of_findSome?_eq_some hfound
  have hd := Neighbourhood.pick_contains (Neighbourhood.ofBinary_den_pos m e) hi
  have hshortest : shortest evenTie m e = normalize d := by
    unfold shortest
    simp only [hfound, Option.getD_some]
  -- the lower end is positive, so the value is
  have hpos : 0 < d.value := by
    obtain ⟨gap, hlow, -, hgap, -⟩ := Neighbourhood.ofBinary_ends hm e
    have hlo := hd.low_le
    rw [Neighbourhood.ofBinary_unit, hlow] at hlo
    have hm' : (1 : ℚ) ≤ m := by exact_mod_cast hm
    have : 0 < (4 * m - gap) * (2 : ℚ) ^ (e - 2) := by
      apply mul_pos _ (zpow_pos (by norm_num) _)
      rcases hgap with rfl | ⟨rfl, -⟩ <;> linarith
    linarith
  rw [hshortest, value_normalize]
  exact ⟨digits_pos_of_value_pos (by rwa [value_normalize]), hd⟩

end Decimal

end Seaway
