import Mathlib
import Seaway.Proofs.Track.Derived

/-!
# Resampling follows a fresh search at every grid time

Resampling walks the grid times in increasing order with one cursor over the segments of a
track, and the cursor only moves forward. At every grid time it stands on the segment that a
fresh search from the first segment finds: the last segment, among those starting at rows
`0, …, n - 2`, whose first time is at most the grid time (`IsSegment`), repeated times
included. It never has to move back because the grid increases and the times never decrease.

* `bracket_isSegment`: the search from a segment that starts at or before a time finds the
  segment of that time;
* `gridSegments_eq`: the cursor stands on the segment of every grid time;
* `Track.interpolate_grid` puts this together with the grid, the vessel and the faults.
-/

namespace Seaway

namespace Track

/-- The segment of time `g` in a column of times: the last row before the final one whose time
is at most `g`. -/
def IsSegment (time : Array Int) (g : Int) (s : Nat) : Prop :=
  s + 2 ≤ time.size ∧ time.getD s 0 ≤ g ∧ ∀ j, s < j → j + 2 ≤ time.size → g < time.getD j 0

/-- The values of a column at the grid times, each interpolated in the segment that a fresh
search finds. -/
def gridValues (t : Track) (step : Nat) (col : Array Float) : Array Float :=
  ((t.grid step).map fun g => interpolateAt t.time col (bracket t.time g 0) g).toArray

variable {t : Track} {g : Int} {s s' : Nat} {step : Nat}

theorem IsSegment.unique {time : Array Int} (h : IsSegment time g s) (h' : IsSegment time g s') :
    s = s' := by
  rcases Nat.lt_trichotomy s s' with hlt | heq | hgt
  · exact absurd h'.2.1 (Int.not_le.2 (h.2.2 s' hlt h'.1))
  · exact heq
  · exact absurd h.2.1 (Int.not_le.2 (h'.2.2 s hgt h.1))

/-! ## The search -/

/-- The search moves forward while the next segment starts at or before `g` and is not the
last, so from a segment starting at or before `g` it stops on the segment of `g`; its fuel,
the rows from the start on, is never what stops it. -/
theorem bracket_go_isSegment (hv : t.Valid) :
    ∀ (fuel s : Nat), s + fuel = t.size → s + 2 ≤ t.size → t.time.getD s 0 ≤ g →
      IsSegment t.time g (bracket.go t.time g s fuel)
  | 0, s, hf, h2, _ => by omega
  | fuel + 1, s, hf, h2, hg => by
    have hn : t.time.size = t.size := rfl
    simp only [bracket.go]
    split
    · rename_i h
      exact bracket_go_isSegment hv fuel (s + 1) (by omega) (by omega) h.2
    · rename_i h
      refine ⟨hn ▸ h2, hg, fun j hj hj2 => ?_⟩
      -- the next segment starts after `g`, and so does every later one
      have hnext : g < t.time.getD (s + 1) 0 := by
        rw [not_and_or] at h
        rcases h with h | h
        · omega
        · exact Int.not_le.1 h
      exact Int.lt_of_lt_of_le hnext (hv.time_mono (by omega) (by omega))

theorem bracket_isSegment (hv : t.Valid) (h2 : s + 2 ≤ t.size) (hg : t.time.getD s 0 ≤ g) :
    IsSegment t.time g (bracket t.time g s) :=
  bracket_go_isSegment hv _ s (by have : t.time.size = t.size := rfl; omega) h2 hg

/-! ## The cursor over the grid -/

/-- The cursor stands on the segment of every grid time, the one a fresh search finds. -/
theorem gridSegments_eq (hv : t.Valid) (h2 : 2 ≤ t.size) (hstep : 0 < step) :
    t.gridSegments step = (t.grid step).map fun g => (g, bracket t.time g 0) := by
  -- one step of the cursor: from the segment of the last time, on to that of the next
  have hfold : ∀ (f : Array (Int × Nat) × Nat → Int → Array (Int × Nat) × Nat),
      (∀ acc s g, f (acc, s) g = (acc.push (g, bracket t.time g s), bracket t.time g s)) →
      ∀ (gs : List Int) (acc : Array (Int × Nat)) (s : Nat), gs.Pairwise (· ≤ ·) →
        (∀ g ∈ gs, t.time.getD 0 0 ≤ g) → s + 2 ≤ t.size → (∀ g ∈ gs, t.time.getD s 0 ≤ g) →
        (gs.foldl f (acc, s)).1.toList = acc.toList ++ gs.map fun g => (g, bracket t.time g 0) := by
    intro f hf gs
    induction gs with
    | nil => simp
    | cons g gs ih =>
      intro acc s hs h0 h2s hsg
      have hseg := bracket_isSegment hv h2s (hsg g List.mem_cons_self)
      have hfresh : bracket t.time g s = bracket t.time g 0 :=
        hseg.unique (bracket_isSegment hv h2 (h0 g List.mem_cons_self))
      rw [List.foldl_cons, hf, ih _ _ (List.Pairwise.of_cons hs)
        (fun g' hg' => h0 g' (List.mem_cons_of_mem g hg')) hseg.1
        (fun g' hg' => Int.le_trans hseg.2.1 (List.rel_of_pairwise_cons hs hg')), hfresh]
      simp
  unfold gridSegments
  rw [hfold _ (fun acc s g => rfl) _ #[] 0 ((grid_sorted t hstep).imp Int.le_of_lt)
    (fun g hg => (grid_mem hv hg).1) h2 (fun g hg => (grid_mem hv hg).1)]
  simp

/-- Resampling a track of two rows or more with a positive step puts the grid in the time
column and, in each other column, its values at the grid times. -/
theorem resample_eq (hv : t.Valid) (h2 : 2 ≤ t.size) (hstep : 0 < step) :
    t.resample step = t.withColumns (t.grid step).toArray (t.gridValues step t.lon)
      (t.gridValues step t.lat) (t.gridValues step t.cog) (t.gridValues step t.sog) := by
  unfold resample
  rw [if_neg (by omega), gridSegments_eq hv h2 hstep]
  simp [gridValues, Function.comp_def]

/-! ## Interpolation -/

theorem toNat_ediv {a b : Int} (ha : 0 ≤ a) (hb : 0 < b) : (a / b).toNat = a.toNat / b.toNat := by
  obtain ⟨m, rfl⟩ := Int.eq_ofNat_of_zero_le ha
  obtain ⟨n, rfl⟩ := Int.eq_ofNat_of_zero_le hb.le
  rw [← Int.natCast_div, Int.toNat_natCast, Int.toNat_natCast, Int.toNat_natCast]

/-- **Resampling follows a fresh search at every grid time.** Interpolating a valid track
fails, with an invalid parameter, exactly when the step is not positive. With a positive step
a track of one row comes back as it is. A track of two rows or more comes back with the times
`t₀ + k · step` for `k` up to `⌊(tₙ - t₀) / step⌋` (its first and last times), its vessel,
label and attributes, and no zone column; at each grid time, every column is interpolated in
the segment of that time, the last one among rows `0, …, n - 2` to start at or before it, which
is also where a fresh search from the first segment stops. -/
theorem interpolate_grid (hv : t.Valid) :
    (∀ step : Int, (∃ msg, t.interpolate step = .error (.invalidParameter msg)) ↔ step ≤ 0) ∧
    (t.size = 1 → ∀ step : Int, 0 < step → t.interpolate step = .ok t) ∧
    (2 ≤ t.size → ∀ step : Int, 0 < step → ∃ q, t.interpolate step = .ok q ∧
      q.time.toList = (List.range (((t.time.getD (t.size - 1) 0 - t.time.getD 0 0) / step).toNat
        + 1)).map (fun k : Nat => t.time.getD 0 0 + k * step) ∧
      q.mmsi = t.mmsi ∧ q.label = t.label ∧ q.info = t.info ∧ q.inZone = none ∧
      ∀ k < q.size, ∃ s, IsSegment t.time (q.time.getD k 0) s ∧
        s = bracket t.time (q.time.getD k 0) 0 ∧
        ∀ c ∈ [Track.lon, Track.lat, Track.cog, Track.sog],
          (c q).getD k 0 = interpolateAt t.time (c t) s (q.time.getD k 0)) := by
  refine ⟨fun step => ?_, fun h1 step hstep => ?_, fun h2 step hstep => ?_⟩
  · -- only a step that is not positive is refused
    unfold interpolate
    split
    · exact iff_of_true ⟨_, rfl⟩ ‹_›
    · refine iff_of_false (fun h => ?_) ‹_›
      obtain ⟨_, h⟩ := h
      cases h
  · simp [interpolate, Int.not_le.2 hstep, resample, h1]
  · have hstep' : 0 < step.toNat := by omega
    have hcast : ((step.toNat : Nat) : Int) = step := Int.toNat_of_nonneg hstep.le
    refine ⟨t.resample step.toNat, by simp [interpolate, Int.not_le.2 hstep], ?_⟩
    rw [resample_eq hv h2 hstep']
    -- the grid has one time per step within the span
    have hspan : 0 ≤ t.time.getD (t.size - 1) 0 - t.time.getD 0 0 :=
      Int.sub_nonneg.2 (hv.time_mono (Nat.zero_le _) (by omega))
    refine ⟨?_, rfl, rfl, rfl, rfl, fun k hk => ?_⟩
    · simp only [withColumns, grid, List.toList_toArray, hcast, toNat_ediv hspan hstep]
    · have hk' : k < (t.grid step.toNat).length := by simpa [withColumns, size] using hk
      have htime : (t.withColumns (t.grid step.toNat).toArray (t.gridValues step.toNat t.lon)
          (t.gridValues step.toNat t.lat) (t.gridValues step.toNat t.cog)
          (t.gridValues step.toNat t.sog)).time.getD k 0 = (t.grid step.toNat)[k] := by
        simp [withColumns, List.getElem?_eq_getElem hk']
      rw [htime]
      refine ⟨_, bracket_isSegment hv h2 (grid_mem hv (List.getElem_mem hk')).1, rfl, ?_⟩
      intro c hc
      simp only [List.mem_cons, List.not_mem_nil, or_false] at hc
      rcases hc with rfl | rfl | rfl | rfl <;>
        simp [withColumns, gridValues, List.getElem?_eq_getElem hk']

/-- Three rows, the last two at one time. -/
def doubled : Track :=
  { mmsi := 4, time := #[0, 10, 10], lon := #[1.0, 2.0, 3.0], lat := #[0.0, 0.0, 0.0],
    cog := #[0.0, 0.0, 0.0], sog := #[0.0, 0.0, 0.0] }

theorem interpolate_grid_doubled :
    doubled.Valid ∧
      (∀ step : Int, (∃ msg, doubled.interpolate step = .error (.invalidParameter msg)) ↔
        step ≤ 0) ∧
      (doubled.size = 1 → ∀ step : Int, 0 < step → doubled.interpolate step = .ok doubled) ∧
      (2 ≤ doubled.size → ∀ step : Int, 0 < step → ∃ q, doubled.interpolate step = .ok q ∧
        q.time.toList = (List.range (((doubled.time.getD (doubled.size - 1) 0 -
          doubled.time.getD 0 0) / step).toNat + 1)).map
            (fun k : Nat => doubled.time.getD 0 0 + k * step) ∧
        q.mmsi = doubled.mmsi ∧ q.label = doubled.label ∧ q.info = doubled.info ∧
        q.inZone = none ∧
        ∀ k < q.size, ∃ s, IsSegment doubled.time (q.time.getD k 0) s ∧
          s = bracket doubled.time (q.time.getD k 0) 0 ∧
          ∀ c ∈ [Track.lon, Track.lat, Track.cog, Track.sog],
            (c q).getD k 0 = interpolateAt doubled.time (c doubled) s (q.time.getD k 0)) := by
  have hv : doubled.Valid :=
    ⟨by decide, rfl, rfl, rfl, rfl, (fun _ hz => by cases hz), by decide⟩
  exact ⟨hv, interpolate_grid hv⟩

end Track

end Seaway
