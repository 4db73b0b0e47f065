import Mathlib
import Seaway.Proofs.Proportion
import Seaway.Proofs.Track.Resample

/-!
# Resampled values between the ends of their segment

Strictly inside its segment, a grid time `g` gets the value `a + (b - a) * w` of each column,
with the weight `w = (g - ta) / (tb - ta)` computed from the times converted to doubles
(`weight`); at or past the segment's ends it gets `a` or `b` itself. So every resampled value
lies between the ends of its segment as long as their difference is finite and the weight
lies in `[0, 1)`, which it does for times below `2 ^ 52` in magnitude. Far from zero, where
distinct times convert to one double, the weight can leave `[0, 1)`: when both ends of a
segment and a grid time between them convert to one double the weight is
`(x - x) / (x - x)`, NaN, and so is every column there.

* `interpolateAt_eq_lerp`: strictly inside a segment, the value is the step by `weight`;
* `weight_mem`: for times below `2 ^ 52` in magnitude the weight is in `[0, 1)`, each time and
  difference being exact (`Binary64.ofInt_exact`, `Real64.value_sub_of_int`);
* `interpolateAt_between`: the value lies between the segment's ends, by
  `Real64.lerp_between`, and `interpolateAt_isNaN`: it is NaN where the times collide;
* `resample_getD`: the value at each grid time is the one interpolated in its segment;
* `interpolate_between` puts these together for every grid time of a valid track.
-/

namespace Seaway

namespace Track

open Real64

/-- The weight of time `g` in the segment from `ta` to `tb`, as resampling computes it from the
times converted to doubles. -/
def weight (ta tb g : Int) : Float :=
  (Binary64.ofInt g - Binary64.ofInt ta) / (Binary64.ofInt tb - Binary64.ofInt ta)

/-- For times below `2 ^ 52` in magnitude, the weight of a time strictly inside a segment is
in `[0, 1)`: the times and their differences are exact, and the proportion is at most
`1 - 2 ^ -53` because the span is at most `2 ^ 53`. -/
theorem weight_mem {ta tb g : Int} (h₁ : ta < g) (h₂ : g < tb) (hta : ta.natAbs < 2 ^ 52)
    (htb : tb.natAbs < 2 ^ 52) : 0.0 ≤ weight ta tb g ∧ weight ta tb g < 1.0 := by
  obtain ⟨hgf, hgv⟩ := Binary64.ofInt_exact (i := g) (by omega)
  obtain ⟨haf, hav⟩ := Binary64.ofInt_exact (i := ta) (by omega)
  obtain ⟨hbf, hbv⟩ := Binary64.ofInt_exact (i := tb) (by omega)
  obtain ⟨hxf, hxv⟩ := value_sub_of_int hgf haf hgv hav (by omega)
  obtain ⟨hyf, hyv⟩ := value_sub_of_int hbf haf hbv hav (by omega)
  have hx : (0 : ℚ) ≤ g - ta := by
    rw [sub_nonneg]
    exact_mod_cast h₁.le
  have hy : (0 : ℚ) < tb - ta := by
    rw [sub_pos]
    exact_mod_cast h₁.trans h₂
  have hgap : (g : ℚ) - ta + 1 ≤ tb - ta := by
    have : g - ta + 1 ≤ tb - ta := by omega
    exact_mod_cast this
  -- a span of at most `2 ^ 53` loses at most one when shrunk by `2 ^ -53` of itself
  have hulp : ((tb : ℚ) - ta) * 2 ^ (-53 : Int) ≤ 1 := by
    have hspan : (tb : ℚ) - ta ≤ 2 ^ (53 : Int) := by
      have : tb - ta ≤ 2 ^ 53 := by omega
      rw [zpow_ofNat]
      exact_mod_cast this
    calc ((tb : ℚ) - ta) * 2 ^ (-53 : Int) ≤ 2 ^ (53 : Int) * 2 ^ (-53 : Int) :=
          mul_le_mul_of_nonneg_right hspan (zpow_nonneg (by norm_num) _)
      _ = 1 := by rw [← zpow_add₀ two_ne_zero]; norm_num
  unfold weight
  refine div_mem_unit hxf hyf (by rw [hxv]; exact hx) (by rw [hyv]; exact hy) ?_
  rw [hxv, hyv, mul_sub, mul_one]
  linarith

/-! ## Inside one segment -/

section Segment

variable (time : Array Int) (col : Array Float) (s : Nat) {g : Int}

theorem interpolateAt_eq_lerp (h₁ : time.getD s 0 < g) (h₂ : g < time.getD (s + 1) 0) :
    interpolateAt time col s g = col.getD s 0 + (col.getD (s + 1) 0 - col.getD s 0) *
      weight (time.getD s 0) (time.getD (s + 1) 0) g := by
  unfold interpolateAt weight
  rw [if_neg (by omega), if_neg (by omega)]

/-- A value interpolated in a segment whose ends have a finite difference lies between them,
as long as the weight is in `[0, 1)` wherever it is used. -/
theorem interpolateAt_between (hd : (col.getD (s + 1) 0 - col.getD s 0).isFinite = true)
    (hw : time.getD s 0 < g → g < time.getD (s + 1) 0 →
      0.0 ≤ weight (time.getD s 0) (time.getD (s + 1) 0) g ∧
        weight (time.getD s 0) (time.getD (s + 1) 0) g < 1.0) :
    Between (col.getD s 0) (col.getD (s + 1) 0) (interpolateAt time col s g) := by
  obtain ⟨ha, hb⟩ := isFinite_of_sub hd
  unfold interpolateAt
  dsimp only
  split_ifs with h₁ h₂
  · exact between_left (isNaN_of_isFinite ha) (isNaN_of_isFinite hb)
  · exact between_right (isNaN_of_isFinite ha) (isNaN_of_isFinite hb)
  · -- strictly inside: the step by the weight
    obtain ⟨hw₀, hw₁⟩ := hw (by omega) (by omega)
    exact lerp_between hd hw₀ hw₁

/-- Strictly inside a segment whose ends and the time itself convert to one double, the weight
is NaN and so is the value, whatever the column. -/
theorem interpolateAt_isNaN (h₁ : time.getD s 0 < g) (h₂ : g < time.getD (s + 1) 0)
    (hg : Binary64.ofInt g = Binary64.ofInt (time.getD s 0))
    (hb : Binary64.ofInt (time.getD (s + 1) 0) = Binary64.ofInt (time.getD s 0)) :
    (interpolateAt time col s g).isNaN = true := by
  rw [interpolateAt_eq_lerp time col s h₁ h₂, weight, hg, hb]
  exact isNaN_add_right _ (isNaN_mul_right _
    (isNaN_div (isZero_or_isNaN_sub_self _) (isZero_or_isNaN_sub_self _)))

end Segment

/-! ## Every grid time -/

variable {t : Track} {step : Nat}

/-- The value of each column at the `k`-th grid time is the one interpolated in the segment of
that time. -/
theorem resample_getD (hv : t.Valid) (h2 : 2 ≤ t.size) (hstep : 0 < step) {k : Nat}
    (hk : k < (t.resample step).size) :
    ∃ s, IsSegment t.time ((t.resample step).time.getD k 0) s ∧
      ∀ c ∈ [Track.lon, Track.lat, Track.cog, Track.sog],
        (c (t.resample step)).getD k 0 =
          interpolateAt t.time (c t) s ((t.resample step).time.getD k 0) := by
  rw [resample_eq hv h2 hstep] at hk ⊢
  have hk' : k < (t.grid step).length := by simpa [withColumns, size] using hk
  have htime : (t.withColumns (t.grid step).toArray (t.gridValues step t.lon)
      (t.gridValues step t.lat) (t.gridValues step t.cog)
      (t.gridValues step t.sog)).time.getD k 0 = (t.grid step)[k] := by
    simp [withColumns, List.getElem?_eq_getElem hk']
  rw [htime]
  refine ⟨_, bracket_isSegment hv h2 (grid_mem hv (List.getElem_mem hk')).1, fun c hc => ?_⟩
  simp only [List.mem_cons, List.not_mem_nil, or_false] at hc
  rcases hc with rfl | rfl | rfl | rfl <;>
    simp [withColumns, gridValues, List.getElem?_eq_getElem hk']

/-- **Resampled values stay between the ends of their segment, or are NaN where its times
collide.** Interpolating a valid track of two rows or more with a positive step succeeds, and at
every grid time, in the segment of that time, each of lon, lat, cog and sog lies between the
segment's two values whenever their difference is finite and the segment's times are below
`2 ^ 52` in magnitude. Strictly inside a segment whose two times and the grid time convert to
one double, every column is NaN. -/
theorem interpolate_between (hv : t.Valid) (h2 : 2 ≤ t.size) (step : Int) (hstep : 0 < step) :
    ∃ q, t.interpolate step = .ok q ∧ ∀ k < q.size, ∃ s, IsSegment t.time (q.time.getD k 0) s ∧
      ∀ c ∈ [Track.lon, Track.lat, Track.cog, Track.sog],
        (((c t).getD (s + 1) 0 - (c t).getD s 0).isFinite = true →
          (t.time.getD s 0).natAbs < 2 ^ 52 → (t.time.getD (s + 1) 0).natAbs < 2 ^ 52 →
          Between ((c t).getD s 0) ((c t).getD (s + 1) 0) ((c q).getD k 0)) ∧
        (t.time.getD s 0 < q.time.getD k 0 → q.time.getD k 0 < t.time.getD (s + 1) 0 →
          Binary64.ofInt (q.time.getD k 0) = Binary64.ofInt (t.time.getD s 0) →
          Binary64.ofInt (t.time.getD (s + 1) 0) = Binary64.ofInt (t.time.getD s 0) →
          ((c q).getD k 0).isNaN = true) := by
  refine ⟨t.resample step.toNat, by simp [interpolate, Int.not_le.2 hstep], fun k hk => ?_⟩
  obtain ⟨s, hseg, hval⟩ := resample_getD hv h2 (by omega) hk
  refine ⟨s, hseg, fun c hc => ⟨fun hd hta htb => ?_, fun h₁ h₂ hg hb => ?_⟩⟩
  · rw [hval c hc]
    exact interpolateAt_between _ _ _ hd (fun h₁ h₂ => weight_mem h₁ h₂ hta htb)
  · rw [hval c hc]
    exact interpolateAt_isNaN _ _ _ h₁ h₂ hg hb

/-- Two rows ten seconds apart. -/
def pair : Track :=
  { mmsi := 7, time := #[0, 10], lon := #[1.0, 2.0], lat := #[50.0, 49.0], cog := #[0.0, 0.0],
    sog := #[3.0, 4.0] }

theorem interpolate_between_pair :
    pair.Valid ∧ 2 ≤ pair.size ∧ (0 : Int) < 3 ∧
      ∃ q, pair.interpolate 3 = .ok q ∧ ∀ k < q.size, ∃ s, IsSegment pair.time (q.time.getD k 0) s ∧
        ∀ c ∈ [Track.lon, Track.lat, Track.cog, Track.sog],
          (((c pair).getD (s + 1) 0 - (c pair).getD s 0).isFinite = true →
            (pair.time.getD s 0).natAbs < 2 ^ 52 → (pair.time.getD (s + 1) 0).natAbs < 2 ^ 52 →
            Between ((c pair).getD s 0) ((c pair).getD (s + 1) 0) ((c q).getD k 0)) ∧
          (pair.time.getD s 0 < q.time.getD k 0 → q.time.getD k 0 < pair.time.getD (s + 1) 0 →
            Binary64.ofInt (q.time.getD k 0) = Binary64.ofInt (pair.time.getD s 0) →
            Binary64.ofInt (pair.time.getD (s + 1) 0) = Binary64.ofInt (pair.time.getD s 0) →
            ((c q).getD k 0).isNaN = true) := by
  have hv : pair.Valid :=
    ⟨by decide, rfl, rfl, rfl, rfl, (fun _ hz => by cases hz), by decide⟩
  exact ⟨hv, by decide, by decide, interpolate_between hv (by decide) 3 (by decide)⟩

/-- Two rows two seconds apart near `2 ^ 60`, where the doubles are 256 apart: both times and
the grid time between them convert to `2 ^ 60`. -/
def collided : Track :=
  { mmsi := 1, time := #[1152921504606846976, 1152921504606846978], lon := #[0.0, 1.0],
    lat := #[0.0, 0.0], cog := #[0.0, 0.0], sog := #[0.0, 0.0] }

theorem interpolate_collided_nan :
    ∃ q, collided.interpolate 1 = .ok q ∧ q.time.getD 1 0 = 1152921504606846977 ∧
      ¬Between (collided.lon.getD 0 0) (collided.lon.getD 1 0) (q.lon.getD 1 0) :=
  ⟨_, rfl, by decide +kernel, not_between_of_isNaN (by decide +kernel)⟩

end Track

end Seaway
