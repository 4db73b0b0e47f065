import Mathlib
import Seaway.Proofs.Quotient
import Seaway.Proofs.Pathway.Best

/-!
# Breaks and junctions

Chunk bounds and continuity read the same two thresholds. A step between two positions
breaks when its distance exceeds the distance threshold or its speed the speed threshold
(`Breaks`); either one saturates a factor `1 - min(q, 1)` of the continuity to an exact zero,
so that the continuity falls to its floor, the least positive normal double, below which it
never falls (`minPositive_le_continuity`). A continuity above that floor therefore joins two
positions that no break separates.

* `breaks_eq_false_of_continuity`: a continuity above the floor is no break;
* `chunkBounds_eq_ok_iff`: the chunk bounds of a track of two rows or more are computed
  exactly when the seconds between consecutive rows fit a signed 64-bit integer, and are the
  rows that follow a break; so a track without a break is one chunk
  (`chunkBounds_eq_single`);
* `chunkBounds_cut_at_breaks`: the same row by row, with a break read off the step's distance
  and its seconds raised to one (`breaks_ofRow_iff`).
-/

namespace Seaway

/-- The seconds between every two consecutive rows of a track fit a signed 64-bit integer. -/
def Track.StepsFit (t : Track) : Prop :=
  ∀ i, i + 1 < t.size → t.time.getD (i + 1) 0 - t.time.getD i 0 ≤ maxInt64

/-- The distance in meters of the step into row `i`, from row `i - 1`. -/
def Track.stepMeters (t : Track) (i : Nat) : Float :=
  Geodesy.distance (t.lon.getD (i - 1) 0) (t.lat.getD (i - 1) 0) (t.lon.getD i 0) (t.lat.getD i 0)

/-- The seconds of the step into row `i`, at least one, as a double. -/
def Track.stepSeconds (t : Track) (i : Nat) : Float :=
  Binary64.ofInt (max (t.time.getD i 0 - t.time.getD (i - 1) 0) 1)

namespace Pathway

open Real64

variable {p : PathwayParams} {e s : Anchor} {c : Float}

/-- Whether the step from position `e` to a later position `s` breaks continuity: its
distance exceeds the distance threshold, or its speed over the seconds between them (at least
one) the speed threshold. -/
def Breaks (p : PathwayParams) (e s : Anchor) : Bool :=
  isBreak p (Geodesy.distance e.lon e.lat s.lon s.lat)
    (atLeast (Binary64.ofInt (s.time - e.time)) Geodesy.minElapsed)

/-! ## Continuity against breaks -/

theorem atLeast_atLeast (x b : Float) : atLeast (atLeast x b) b = atLeast x b := by
  by_cases h : b < x <;> simp [atLeast, h]

theorem atMost_of_not_lt {x b : Float} (h : ¬x < b) : atMost x b = b := by
  unfold atMost
  rw [if_neg h]

theorem zero_le_minPositive : (0.0 : Float) ≤ minPositive := by
  have h : rank minPositive = (3, -1074, 2 ^ 52) := rfl
  refine le_iff_rank.2 ⟨rfl, rfl, ?_⟩
  rw [h]
  exact .inl (by decide)

theorem minPositive_not_lt_self : ¬minPositive < minPositive :=
  not_lt_of_le (le_refl rfl)

/-- The continuity from a position to a later one, computed: the product of the distance
factor and the speed factor, at least the least positive normal double. -/
theorem continuity_eq (h₀ : 0 ≤ s.time - e.time) (h : continuity e s p = .ok c) :
    c = atLeast
      ((1.0 - atMost (Geodesy.distance e.lon e.lat s.lon s.lat / p.distanceThreshold) 1.0) *
        (1.0 - atMost (Geodesy.knots (Geodesy.distance e.lon e.lat s.lon s.lat)
          (Binary64.ofInt (s.time - e.time)) / p.speedThreshold) 1.0)) minPositive := by
  unfold continuity at h
  obtain ⟨dt, hdt, h⟩ := Except.bind_eq_ok.1 h
  obtain ⟨el, hel, h⟩ := Except.bind_eq_ok.1 h
  obtain ⟨rfl, -, -⟩ := subInt64_eq_ok_iff.1 hdt
  -- the seconds are not negative, so their absolute value is themselves
  have hel' : el = s.time - e.time := by
    unfold absInt64 at hel
    split at hel
    · cases hel
      omega
    · cases hel
  subst hel'
  cases h
  rfl

/-- Continuity is computed only between positions whose seconds apart fit a signed 64-bit
integer. -/
theorem continuity_fits (h : continuity e s p = .ok c) : s.time - e.time ≤ maxInt64 := by
  unfold continuity at h
  obtain ⟨dt, hdt, -⟩ := Except.bind_eq_ok.1 h
  exact (subInt64_eq_ok_iff.1 hdt).2.2

/-- A saturated factor: once a quotient reaches one, `1 - min(q, 1)` is an exact zero. -/
theorem isZero_one_sub_atMost {x b : Float} (hb : 0 < b) (hx : b < x) :
    IsZero (1.0 - atMost (x / b) 1.0) := by
  rw [atMost_of_not_lt (not_div_lt_one hb hx)]
  exact isZero_sub_of_le_of_le rfl (le_refl rfl) (le_refl rfl)

/-- A continuity above the least positive normal double joins two positions that no break
separates: a distance or speed beyond its threshold would zero a factor and leave the
continuity at its floor. -/
theorem breaks_eq_false_of_continuity (hd : 0 < p.distanceThreshold)
    (hs : 0 < p.speedThreshold) (h₀ : 0 ≤ s.time - e.time) (h : continuity e s p = .ok c)
    (hc : minPositive < c) : Breaks p e s = false := by
  rw [continuity_eq h₀ h, Geodesy.knots] at hc
  simp only [Breaks, isBreak, Geodesy.knots, atLeast_atLeast, Bool.or_eq_false_iff,
    decide_eq_false_iff_not]
  constructor
  · -- a speed beyond its threshold zeroes the speed factor
    intro hv
    rw [atLeast_mul_of_isZero_right _ (isZero_one_sub_atMost hs hv) zero_le_minPositive] at hc
    exact minPositive_not_lt_self hc
  · intro hm
    rw [atLeast_mul_of_isZero_left (isZero_one_sub_atMost hd hm) _ zero_le_minPositive] at hc
    exact minPositive_not_lt_self hc

/-! ## Chunk bounds, row by row -/

/-- The rows of a track that a break separates from the row before. -/
def breakRows (t : Track) (p : PathwayParams) : List Nat :=
  (List.range' 1 (t.size - 1)).filter fun i =>
    Breaks p (Anchor.ofRow t (i - 1)) (Anchor.ofRow t i)

section Bounds

variable {t : Track} {bs : List Nat} {i : Nat}

theorem mem_breakRows :
    i ∈ breakRows t p ↔ (0 < i ∧ i < t.size) ∧
      Breaks p (Anchor.ofRow t (i - 1)) (Anchor.ofRow t i) = true := by
  simp only [breakRows, List.mem_filter, List.mem_range']
  constructor
  · rintro ⟨⟨k, hk, rfl⟩, hb⟩
    exact ⟨⟨by omega, by omega⟩, hb⟩
  · rintro ⟨⟨h₀, h₁⟩, hb⟩
    exact ⟨⟨i - 1, by omega, by omega⟩, hb⟩

/-- The speed over a step's seconds floored at one is the speed over its whole seconds raised
to one: the speed floors the seconds again, and no second at all counts as one. -/
theorem knots_atLeast_ofInt (m : Float) {d : Int} (h : 0 ≤ d) :
    Geodesy.knots m (atLeast (Binary64.ofInt d) Geodesy.minElapsed) =
      Geodesy.knots m (Binary64.ofInt (max d 1)) := by
  unfold Geodesy.knots
  rw [atLeast_atLeast]
  rcases (show d = 0 ∨ 1 ≤ d by omega) with rfl | h₁
  · have hfloor : atLeast (Binary64.ofInt 0) Geodesy.minElapsed =
        atLeast (Binary64.ofInt (max 0 1)) Geodesy.minElapsed := by
      decide +kernel
    rw [hfloor]
  · rw [max_eq_left h₁]

/-- The step into a row of a valid track breaks exactly when it goes faster than the speed
threshold or farther than the distance threshold. -/
theorem breaks_ofRow_iff (hv : t.Valid) (hi : i < t.size) :
    Breaks p (Anchor.ofRow t (i - 1)) (Anchor.ofRow t i) = true ↔
      p.speedThreshold < Geodesy.knots (t.stepMeters i) (t.stepSeconds i) ∨
        p.distanceThreshold < t.stepMeters i := by
  have hd : 0 ≤ t.time.getD i 0 - t.time.getD (i - 1) 0 := by
    have := hv.time_mono (Nat.sub_le i 1) hi
    omega
  -- the comparisons become propositions before the rows are read, while `decide` still
  -- carries its instance
  rw [Breaks, isBreak, Bool.or_eq_true, decide_eq_true_iff, decide_eq_true_iff]
  simp only [Anchor.ofRow, knots_atLeast_ofInt _ hd, Track.stepMeters, Track.stepSeconds]

theorem zip_tail_eq_map {α : Type} (l : List α) (d : α) :
    l.zip l.tail = (List.range (l.length - 1)).map fun i => (l.getD i d, l.getD (i + 1) d) := by
  apply List.ext_getElem
  · simp
  · intro i h₁ h₂
    simp only [List.length_zip, List.length_tail] at h₁
    simp [List.getElem?_eq_getElem (by omega : i < l.length),
      List.getElem?_eq_getElem (by omega : i + 1 < l.length)]

theorem consecutiveDistances_eq (hv : t.Valid) :
    t.consecutiveDistances 0 t.size = .ok ((List.range (t.size - 1)).map fun i =>
      Geodesy.distance (t.lon.getD i 0) (t.lat.getD i 0) (t.lon.getD (i + 1) 0)
        (t.lat.getD (i + 1) 0)).toArray := by
  simp only [Track.consecutiveDistances, Track.checkRange_eq_ok.2 ⟨Nat.zero_le _, le_rfl⟩,
    Bind.bind, Except.bind, pure, Except.pure, Except.ok.injEq]
  rw [zip_tail_eq_map _ (0, 0), List.map_map]
  have hn : ((t.lon.extract 0 t.size).zip (t.lat.extract 0 t.size)).toList.length = t.size := by
    simp [hv.lon_size, hv.lat_size]
  rw [hn]
  congr 1
  refine List.map_congr_left fun i hi => ?_
  have hi := List.mem_range.1 hi
  simp [hv.lon_size, hv.lat_size, (by omega : i < t.size), (by omega : i + 1 < t.size)]

/-- The consecutive seconds of a valid track are computed exactly when every step fits a
signed 64-bit integer, and are each step's seconds, at least one. -/
theorem consecutiveSeconds_eq_ok_iff (hv : t.Valid) {sec : Array Float} :
    t.consecutiveSeconds 0 t.size = .ok sec ↔ t.StepsFit ∧
      sec = ((List.range (t.size - 1)).map fun i => atLeast
        (Binary64.ofInt (t.time.getD (i + 1) 0 - t.time.getD i 0)) Geodesy.minElapsed).toArray := by
  have hts : (t.time.extract 0 t.size).toList = t.time.toList := by
    show (t.time.extract 0 t.time.size).toList = _
    rw [Array.extract_eq_self_of_le (le_refl t.time.size)]
  simp only [Track.consecutiveSeconds, Track.checkRange_eq_ok.2 ⟨Nat.zero_le _, le_rfl⟩,
    Except.ok_bind, hts, zip_tail_eq_map _ (0 : Int), List.mapM_map, Array.length_toList]
  rw [Except.bind_eq_ok]
  have hlen : t.time.size = t.size := rfl
  constructor
  · rintro ⟨ds, hds, hsec⟩
    obtain ⟨hlen', hds⟩ := Except.mapM_range_eq_ok_iff.1 hds
    -- each step's difference was computed, so it fits and is the entry of `ds`
    have hstep : ∀ k (hk : k < ds.length), ds[k] = t.time.getD (k + 1) 0 - t.time.getD k 0 ∧
        t.time.getD (k + 1) 0 - t.time.getD k 0 ≤ maxInt64 := by
      intro k hk
      obtain ⟨h, -, h'⟩ := subInt64_eq_ok_iff.1 (hds k hk)
      simp only [Array.getD_eq_getD_getElem?, List.getD_eq_getElem?_getD,
        Array.getElem?_toList] at h h' ⊢
      exact ⟨h, h'⟩
    refine ⟨fun i hi => (hstep i (by omega)).2, ?_⟩
    cases hsec
    congr 1
    have hds' : ds = (List.range (t.size - 1)).map fun k =>
        t.time.getD (k + 1) 0 - t.time.getD k 0 :=
      List.ext_getElem (by simp [hlen', hlen]) fun k h₁ h₂ => by simp [(hstep k h₁).1]
    rw [hds', List.map_map]
    rfl
  · rintro ⟨hfit, rfl⟩
    refine ⟨(List.range (t.size - 1)).map fun k => t.time.getD (k + 1) 0 - t.time.getD k 0,
      Except.mapM_range_eq_ok_iff.2 ⟨by simp [hlen], fun k hk => ?_⟩, ?_⟩
    · simp only [List.length_map, List.length_range] at hk
      have h₀ : t.time.getD k 0 ≤ t.time.getD (k + 1) 0 :=
        hv.time_mono (Nat.le_succ k) (by omega)
      simp only [List.getElem_map, List.getElem_range, List.getD_eq_getElem?_getD,
        Array.getElem?_toList, ← Array.getD_eq_getD_getElem?, Function.comp_apply]
      exact subInt64_eq_ok (by omega) (hfit k (by omega))
    · simp only [List.map_map]
      rfl

/-- The rows after a break, read off the steps `i → i + 1`. -/
theorem breakRows_eq (t : Track) (p : PathwayParams) :
    breakRows t p = ((List.range (t.size - 1)).filter fun i =>
      Breaks p (Anchor.ofRow t i) (Anchor.ofRow t (i + 1))).map (· + 1) := by
  rw [breakRows, List.range'_eq_map_range, List.filter_map]
  have hstep : ((fun i => Breaks p (Anchor.ofRow t (i - 1)) (Anchor.ofRow t i)) ∘ (1 + ·)) =
      fun i => Breaks p (Anchor.ofRow t i) (Anchor.ofRow t (i + 1)) := by
    funext i
    simp only [Function.comp_apply, Nat.add_comm 1 i, Nat.add_sub_cancel]
  rw [hstep]
  exact List.map_congr_left fun i _ => Nat.add_comm 1 i

theorem zipIdx_map_range {β : Type} (f : Nat → β) (k : Nat) :
    ((List.range k).map f).zipIdx = (List.range k).map fun i => (f i, i) := by
  apply List.ext_getElem <;> simp

/-- The chunk bounds of a valid track of two rows or more are computed exactly when the
seconds between consecutive rows fit a signed 64-bit integer, and are row `0`, the rows after
a break, and the row count. -/
theorem chunkBounds_eq_ok_iff (hv : t.Valid) (h1 : 1 < t.size) :
    chunkBounds t p = .ok bs ↔ t.StepsFit ∧ bs = 0 :: breakRows t p ++ [t.size] := by
  -- the cuts are computed from the distances and seconds of the steps, in step order
  have hcuts : ∀ sec : Array Float, sec = ((List.range (t.size - 1)).map fun i => atLeast
      (Binary64.ofInt (t.time.getD (i + 1) 0 - t.time.getD i 0)) Geodesy.minElapsed).toArray →
      ((((List.range (t.size - 1)).map fun i => Geodesy.distance (t.lon.getD i 0)
        (t.lat.getD i 0) (t.lon.getD (i + 1) 0) (t.lat.getD (i + 1) 0)).toArray.zip
        sec).toList.zipIdx.filter fun x => isBreak p x.1.1 x.1.2).map (fun x => x.2 + 1) =
        breakRows t p := by
    rintro sec rfl
    rw [Array.toList_zip, List.toList_toArray, List.toList_toArray, List.zip_map', zipIdx_map_range,
      List.filter_map, List.map_map, breakRows_eq]
    rfl
  unfold chunkBounds
  simp only [if_pos h1, consecutiveDistances_eq hv, Except.ok_bind]
  rw [Except.bind_eq_ok]
  constructor
  · rintro ⟨sec, hsec, hbs⟩
    obtain ⟨hfit, hsec'⟩ := (consecutiveSeconds_eq_ok_iff hv).1 hsec
    cases hbs
    exact ⟨hfit, by rw [← hcuts sec hsec']⟩
  · rintro ⟨hfit, rfl⟩
    refine ⟨_, (consecutiveSeconds_eq_ok_iff hv).2 ⟨hfit, rfl⟩, ?_⟩
    show Except.ok _ = Except.ok _
    rw [← hcuts _ rfl]

/-- A valid track whose steps all fit and none of which breaks is one chunk. -/
theorem chunkBounds_eq_single (hv : t.Valid) (hfit : t.StepsFit)
    (hnb : ∀ i, i + 1 < t.size → Breaks p (Anchor.ofRow t i) (Anchor.ofRow t (i + 1)) = false) :
    chunkBounds t p = .ok [0, t.size] := by
  by_cases h1 : 1 < t.size
  · have hnil : breakRows t p = [] := by
      rw [breakRows_eq, List.map_eq_nil_iff, List.filter_eq_nil_iff]
      intro i hi
      simp [hnb i (by have := List.mem_range.1 hi; omega)]
    exact (chunkBounds_eq_ok_iff hv h1).2 ⟨hfit, by rw [hnil]; rfl⟩
  · have hone : t.size = 1 := by
      have := hv.size_pos
      omega
    rw [chunkBounds_lone hone, hone]

/-- The chunk bounds of a valid track are computed exactly when the seconds of every step fit
a signed 64-bit integer. -/
theorem chunkBounds_ok_iff (hv : t.Valid) : (∃ bs, chunkBounds t p = .ok bs) ↔ t.StepsFit := by
  by_cases h1 : 1 < t.size
  · constructor
    · rintro ⟨bs, h⟩
      exact ((chunkBounds_eq_ok_iff hv h1).1 h).1
    · intro hfit
      exact ⟨_, (chunkBounds_eq_ok_iff hv h1).2 ⟨hfit, rfl⟩⟩
  · -- one row: there is no step, and the bounds are `[0, 1]`
    have hone : t.size = 1 := by
      have := hv.size_pos
      omega
    exact ⟨fun _ k hk => absurd hk (by omega), fun _ => ⟨_, chunkBounds_lone hone⟩⟩

/-- A row strictly inside a valid track is a chunk bound exactly when the step into it
breaks. -/
theorem mem_chunkBounds (hv : t.Valid) (h : chunkBounds t p = .ok bs) (h₀ : 0 < i)
    (hi : i < t.size) : i ∈ bs ↔ Breaks p (Anchor.ofRow t (i - 1)) (Anchor.ofRow t i) = true := by
  obtain ⟨-, rfl⟩ := (chunkBounds_eq_ok_iff hv (by omega)).1 h
  rw [List.mem_append, List.mem_cons, List.mem_singleton, mem_breakRows]
  constructor
  · rintro ((rfl | ⟨-, hb⟩) | rfl)
    · omega
    · exact hb
    · omega
  · intro hb
    exact .inl (.inr ⟨⟨h₀, hi⟩, hb⟩)

/-- **Chunk bounds cut a track where it breaks.** The chunk bounds of a valid track are
computed exactly when the seconds between every two consecutive rows fit a signed 64-bit
integer. They then rise strictly from row `0` to the row count, so that every two consecutive
bounds delimit a chunk of at least one row, and a row strictly inside the track is a bound
exactly when the step into it goes faster than the speed threshold or farther than the
distance threshold (a NaN exceeds neither). A track of one row is the one chunk `[0, 1)`. -/
theorem chunkBounds_cut_at_breaks (hv : t.Valid) :
    ((∃ bs, chunkBounds t p = .ok bs) ↔ t.StepsFit) ∧
      (∀ bs, chunkBounds t p = .ok bs → bs.Pairwise (· < ·) ∧ bs.head? = some 0 ∧
        bs.getLast? = some t.size ∧ ∀ i, 0 < i → i < t.size →
          (i ∈ bs ↔ p.speedThreshold < Geodesy.knots (t.stepMeters i) (t.stepSeconds i) ∨
            p.distanceThreshold < t.stepMeters i)) ∧
      (t.size = 1 → chunkBounds t p = .ok [0, 1]) := by
  refine ⟨chunkBounds_ok_iff hv, fun bs h => ?_, chunkBounds_lone⟩
  have hsorted := (chunkBounds_sorted hv h).1
  obtain ⟨cuts, rfl, -, -⟩ := chunkBounds_eq_ok hv h
  refine ⟨hsorted, rfl, List.getLast?_concat, fun i h₀ hi => ?_⟩
  rw [mem_chunkBounds hv h h₀ hi, breaks_ofRow_iff hv hi]

/-- Three rows a minute apart at the equator, the last ten degrees east of the others. -/
def leap : Track :=
  { mmsi := 1, time := #[0, 60, 120], lon := #[0.0, 0.0, 10.0], lat := #[0.0, 0.0, 0.0],
    cog := #[0.0, 0.0, 0.0], sog := #[0.0, 0.0, 0.0] }

theorem chunkBounds_cut_at_breaks_leap :
    leap.Valid ∧
      (((∃ bs, chunkBounds leap {} = .ok bs) ↔ leap.StepsFit) ∧
        (∀ bs, chunkBounds leap {} = .ok bs → bs.Pairwise (· < ·) ∧ bs.head? = some 0 ∧
          bs.getLast? = some leap.size ∧ ∀ i, 0 < i → i < leap.size →
            (i ∈ bs ↔ (({} : PathwayParams).speedThreshold <
                Geodesy.knots (leap.stepMeters i) (leap.stepSeconds i) ∨
              ({} : PathwayParams).distanceThreshold < leap.stepMeters i))) ∧
        (leap.size = 1 → chunkBounds leap {} = .ok [0, 1])) := by
  have hv : leap.Valid :=
    ⟨by decide, rfl, rfl, rfl, rfl, (fun _ hz => by cases hz), by decide⟩
  exact ⟨hv, chunkBounds_cut_at_breaks hv⟩

end Bounds

end Pathway

end Seaway
