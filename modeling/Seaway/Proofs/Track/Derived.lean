import Mathlib
import Seaway.Stream
import Seaway.Track.Reports
import Seaway.Proofs.Pathway.Deal

/-!
# Tracks made from tracks

`Track.new` checks a track's shape once. Every other operation that makes tracks out of a
track — slicing a row range, keeping the rows of a mask, appending rows, replacing the
columns — skips the check, so each operation built from them has to keep the shape by
itself. `Track.DerivedFrom q t` says what an output `q` keeps of its input `t`: `q` is valid,
it is the same vessel with the same attributes, and each of its times lies between the first
and the last time of `t`. The relation is transitive, which is what carries it through a
chain of stages.

* `gather_derivedFrom`, `select_derivedFrom`, `resample_derivedFrom`, `fence_derivedFrom`:
  the four ways a track is made from one;
* `reconstruct_derivedFrom`, `splitWith_derivedFrom`, `splitMaxLength_derivedFrom`,
  `zoneMask_derivedFrom`, `chain_derivedFrom`: every pathway, piece, masked track and output
  of a chain of stages is derived from its input;
* `Track.produced_tracks_valid`: every track the library produces is valid.
-/

namespace Seaway

namespace Track

open scoped List

/-- What a track `q` made from a track `t` keeps: the shape `Track.new` checks, the vessel
and its attributes, and its times inside the time range of `t`. -/
structure DerivedFrom (q t : Track) : Prop where
  valid : q.Valid
  mmsi_eq : q.mmsi = t.mmsi
  info_eq : q.info = t.info
  time_mem : ∀ v ∈ q.time.toList, t.time.getD 0 0 ≤ v ∧ v ≤ t.time.getD (t.size - 1) 0

variable {t q r : Track}

/-! ## The relation -/

/-- A time of a track is the time of one of its rows. -/
theorem exists_getD_of_mem {v : Int} (hv' : v ∈ t.time.toList) :
    ∃ i, i < t.size ∧ t.time.getD i 0 = v := by
  obtain ⟨i, hi, rfl⟩ := List.getElem_of_mem hv'
  refine ⟨i, by simpa [size] using hi, ?_⟩
  simp [Array.getElem?_eq_getElem (by simpa using hi)]

/-- The time of a row of a track is among its times. -/
theorem getD_mem {i : Nat} (hi : i < t.size) : t.time.getD i 0 ∈ t.time.toList := by
  have hi' : i < t.time.size := hi
  simp [Array.getElem?_eq_getElem hi']

/-- Every time of a valid track lies between its first and its last. -/
theorem Valid.time_mem (hv : t.Valid) {v : Int} (hv' : v ∈ t.time.toList) :
    t.time.getD 0 0 ≤ v ∧ v ≤ t.time.getD (t.size - 1) 0 := by
  obtain ⟨i, hi, rfl⟩ := exists_getD_of_mem hv'
  exact ⟨hv.time_mono (Nat.zero_le i) hi, hv.time_mono (by omega) (by omega)⟩

theorem DerivedFrom.refl (hv : t.Valid) : DerivedFrom t t :=
  ⟨hv, rfl, rfl, fun _ hv' => hv.time_mem hv'⟩

theorem DerivedFrom.trans (h₁ : DerivedFrom r q) (h₂ : DerivedFrom q t) : DerivedFrom r t := by
  have hq := h₂.valid
  -- the first and last times of `q` lie in the range of `t`
  have hfirst := h₂.time_mem _ (getD_mem hq.size_pos)
  have hlast := h₂.time_mem _ (getD_mem (Nat.sub_one_lt_of_lt hq.size_pos))
  refine ⟨h₁.valid, h₁.mmsi_eq.trans h₂.mmsi_eq, h₁.info_eq.trans h₂.info_eq, fun v hv => ?_⟩
  have h := h₁.time_mem v hv
  omega

/-- The label is no part of the shape. -/
theorem DerivedFrom.withLabel (h : DerivedFrom q t) (l : Option Nat) :
    DerivedFrom { q with label := l } t :=
  ⟨⟨h.valid.size_pos, h.valid.lon_size, h.valid.lat_size, h.valid.cog_size, h.valid.sog_size,
    h.valid.inZone_size, h.valid.time_sorted⟩, h.mmsi_eq, h.info_eq, h.time_mem⟩

/-! ## Rows chosen from a track -/

/-- Increasing rows of a valid track, at least one, make a track derived from it. -/
theorem gather_derivedFrom {rows : List Nat} (hv : t.Valid) (hne : rows ≠ [])
    (hs : rows.Pairwise (· < ·)) (hr : ∀ r ∈ rows, r < t.size) :
    DerivedFrom (t.gather rows) t := by
  refine ⟨⟨?_, by simp [gather, size], by simp [gather, size], by simp [gather, size],
    by simp [gather, size], fun z hz => ?_, gather_time_sorted hv hs hr⟩, rfl, rfl, ?_⟩
  · simpa using List.length_pos_iff.2 hne
  · -- the zone column is gathered at the same rows
    simp only [gather, Option.map_eq_some_iff] at hz
    obtain ⟨z', -, rfl⟩ := hz
    simp [gather, size]
  · intro v hv'
    simp only [gather, List.toList_toArray, List.mem_map] at hv'
    obtain ⟨r, hr', rfl⟩ := hv'
    exact hv.time_mem (getD_mem (hr r hr'))

/-- A row range `[a, b)` of a valid track, with at least one row, is derived from it. -/
theorem slice_derivedFrom {a b : Nat} (hv : t.Valid) (hab : a < b) (hb : b ≤ t.size) :
    DerivedFrom (t.slice a b) t := by
  rw [slice_eq_gather hv hb]
  refine gather_derivedFrom hv ?_ List.pairwise_lt_range' fun r hr => ?_
  · simp only [ne_eq, List.range'_eq_nil_iff]
    omega
  · rw [List.mem_range'_1] at hr
    omega

/-! ## Rows kept by a mask -/

/-- The rows of a valid track that a mask of its length keeps make a track derived from it. -/
theorem select_derivedFrom {keep : Array Bool} (hv : t.Valid) (hk : keep.size = t.size)
    (h : t.select keep = some q) : DerivedFrom q t := by
  rw [select_eq hv hk] at h
  split at h
  · rename_i hany
    cases h
    -- the kept rows are increasing rows of the track, at least one
    refine gather_derivedFrom hv ?_ (List.pairwise_lt_range.filter _) fun r hr => ?_
    · rw [← hk]
      exact any_id_iff_ne_nil.1 hany
    · exact List.mem_range.1 (List.mem_filter.1 hr).1
  · cases h

/-! ## Fencing -/

/-- Fencing a valid track labels each of its rows with a zone and changes nothing else. -/
theorem fence_derivedFrom (hv : t.Valid) (d : Domain) : DerivedFrom (t.fence d) t := by
  unfold fence
  split
  · exact DerivedFrom.refl hv
  · refine ⟨⟨hv.size_pos, hv.lon_size, hv.lat_size, hv.cog_size, hv.sog_size, fun z hz => ?_,
      hv.time_sorted⟩, rfl, rfl, fun v hv' => hv.time_mem hv'⟩
    cases hz
    simp [size, hv.lon_size, hv.lat_size]

/-- A fenced track has a zone column. -/
theorem fence_inZone_isSome (t : Track) (d : Domain) : (t.fence d).inZone.isSome := by
  unfold fence
  split <;> simp_all

/-! ## Resampling -/

section Resample

variable {step : Nat}

/-- The grid times of the resampling cursor are the grid. -/
theorem gridSegments_map_fst (t : Track) (step : Nat) :
    (t.gridSegments step).map (·.1) = t.grid step := by
  -- the cursor appends each grid time once, whatever segment it stands on
  have hfold : ∀ (f : Array (Int × Nat) × Nat → Int → Array (Int × Nat) × Nat),
      (∀ p g, (f p g).1.toList.map (·.1) = p.1.toList.map (·.1) ++ [g]) →
      ∀ (l : List Int) p, (l.foldl f p).1.toList.map (·.1) = p.1.toList.map (·.1) ++ l := by
    intro f hf l
    induction l with
    | nil => simp
    | cons g l ih => intro p; simp [ih, hf]
  unfold gridSegments
  refine (hfold _ ?_ (t.grid step) (#[], 0)).trans (by simp)
  intro p g
  obtain ⟨acc, s⟩ := p
  simp

/-- Grid times increase strictly with a positive step. -/
theorem grid_sorted (t : Track) (hstep : 0 < step) : (t.grid step).Pairwise (· < ·) := by
  simp only [grid, List.pairwise_map]
  refine List.pairwise_lt_range.imp fun {i j} hij => ?_
  have h : (i : Int) * step < j * step := by exact_mod_cast Nat.mul_lt_mul_of_pos_right hij hstep
  omega

/-- Grid times lie between the first and the last time of a valid track. -/
theorem grid_mem (hv : t.Valid) {v : Int} (hv' : v ∈ t.grid step) :
    t.time.getD 0 0 ≤ v ∧ v ≤ t.time.getD (t.size - 1) 0 := by
  simp only [grid, List.mem_map, List.mem_range] at hv'
  obtain ⟨k, hk, rfl⟩ := hv'
  have hmono := hv.time_mono (Nat.zero_le (t.size - 1)) (Nat.sub_one_lt_of_lt hv.size_pos)
  -- `k` steps stay within the span, which is not negative
  have hspan : k * step ≤ (t.time.getD (t.size - 1) 0 - t.time.getD 0 0).toNat :=
    (Nat.mul_le_mul_right step (Nat.le_of_lt_succ hk)).trans (Nat.div_mul_le_self _ _)
  have hspan' : ((k * step : Nat) : Int) ≤ t.time.getD (t.size - 1) 0 - t.time.getD 0 0 := by
    have := Int.toNat_of_nonneg (Int.sub_nonneg.2 hmono)
    omega
  push_cast at hspan'
  constructor
  · have : (0 : Int) ≤ k * step := by positivity
    omega
  · omega

/-- The grid of a valid track has a first time. -/
theorem grid_ne_nil (t : Track) (step : Nat) : t.grid step ≠ [] := by
  simp [grid]

/-- The times of a track of two rows or more, resampled. -/
theorem resample_time (h : 1 < t.size) : (t.resample step).time.toList = t.grid step := by
  simp [resample, Nat.not_le.2 h, withColumns, ← gridSegments_map_fst]

/-- Resampling a valid track with a positive step gives a track derived from it. -/
theorem resample_derivedFrom (hv : t.Valid) (hstep : 0 < step) :
    DerivedFrom (t.resample step) t := by
  by_cases h1 : t.size ≤ 1
  · simpa [resample, h1] using DerivedFrom.refl hv
  have htime : (t.resample step).time.toList = t.grid step := resample_time (Nat.lt_of_not_le h1)
  -- every column has one entry per grid time
  have hlen : (t.resample step).size = (t.grid step).length := by
    rw [size, ← Array.length_toList, htime]
  have h1' : ¬t.time.size ≤ 1 := h1
  refine ⟨⟨?_, ?_, ?_, ?_, ?_, fun z hz => ?_, ?_⟩, by simp [resample, h1, withColumns],
    by simp [resample, h1, withColumns], fun v hv' => grid_mem hv (htime ▸ hv')⟩
  · simpa [hlen] using List.length_pos_iff.2 (grid_ne_nil t step)
  · simp [resample, h1', withColumns, size]
  · simp [resample, h1', withColumns, size]
  · simp [resample, h1', withColumns, size]
  · simp [resample, h1', withColumns, size]
  · simp [resample, h1, withColumns] at hz
  · rw [htime]
    exact (grid_sorted t hstep).imp le_of_lt

/-- Resampling a track of two rows or more gives strictly increasing times. -/
theorem resample_time_sorted (h : 1 < t.size) (hstep : 0 < step) :
    (t.resample step).time.toList.Pairwise (· < ·) := by
  rw [resample_time h]
  exact grid_sorted t hstep

end Resample

/-! ## The operations on tracks -/

/-- A track built by `Track.new` is the vessel and attributes it was given. -/
theorem new_eq_ok_vessel {mmsi : Nat} {info : VesselInfo} {time : Array Int}
    {lon lat cog sog : Array Float} (h : Track.new mmsi info time lon lat cog sog = .ok q) :
    q.mmsi = mmsi ∧ q.info = info := by
  unfold Track.new at h
  simp only [Bind.bind, Except.bind, pure, Except.pure, throw, throwThe, MonadExceptOf.throw,
    ForIn.forIn] at h
  -- every check either throws or hands on the same columns
  split at h
  · cases h
  · split at h
    · cases h
    · split at h <;> cases h
      exact ⟨rfl, rfl⟩

/-- Attaching a zone column of the right length to a valid track gives a track derived
from it. -/
theorem setInZone_derivedFrom {zs : Array String} (hv : t.Valid) (h : t.setInZone zs = .ok q) :
    DerivedFrom q t := by
  have hq := setInZone_valid hv h
  unfold setInZone at h
  split at h
  · cases h
    exact ⟨hq, rfl, rfl, fun _ hv' => hv.time_mem hv'⟩
  · cases h

/-- Every pathway reconstructed from a valid track is derived from it. -/
theorem reconstruct_derivedFrom {p : PathwayParams} {ps : Array Track} (hv : t.Valid)
    (h : Pathway.reconstruct t p = .ok ps) : ∀ q ∈ ps.toList, DerivedFrom q t := by
  obtain ⟨bs, rows, hcb, hinv, hps⟩ := Pathway.reconstruct_eq_ok hv h
  obtain ⟨-, -, -, -, htop⟩ := Pathway.chunkBounds_sorted hv hcb
  intro q hq
  rw [hps, List.mem_mapIdx] at hq
  obtain ⟨k, hk, rfl⟩ := hq
  -- pathway `k` gathers increasing rows of the track, relabelled
  have hl := List.getElem_mem hk
  exact (gather_derivedFrom hv (hinv.pathway_ne_nil _ hl) (hinv.sorted _ hl)
    fun r hr => htop ▸ hinv.lt_top _ hl r hr).withLabel _

/-- Consecutive entries of an increasing list increase, and the later one is in the list. -/
theorem lt_of_mem_zip_tail {l : List Nat} (hs : l.Pairwise (· < ·)) {w : Nat × Nat}
    (hw : w ∈ l.zip l.tail) : w.1 < w.2 ∧ w.2 ∈ l := by
  obtain ⟨i, hi, rfl⟩ := exists_of_mem_zip_tail hw
  exact ⟨List.pairwise_iff_getElem.1 hs i (i + 1) (by omega) hi (by omega), List.getElem_mem hi⟩

/-- The bounds of the pieces at increasing rows strictly inside a valid track increase from
`0` to its row count. -/
theorem piecesAt_bounds {cuts : List Nat} (hv : t.Valid) (hs : cuts.Pairwise (· < ·))
    (hc : ∀ c ∈ cuts, 0 < c ∧ c < t.size) :
    (0 :: cuts ++ [t.size]).Pairwise (· < ·) ∧ ∀ x ∈ 0 :: cuts ++ [t.size], x ≤ t.size := by
  refine ⟨List.pairwise_cons.2 ⟨fun x hx => ?_, List.pairwise_append.2 ⟨hs, by simp,
    fun x hx y hy => ?_⟩⟩, fun x hx => ?_⟩
  · rcases List.mem_append.1 hx with hx | hx
    · exact (hc x hx).1
    · exact (List.mem_singleton.1 hx) ▸ hv.size_pos
  · exact (List.mem_singleton.1 hy) ▸ (hc x hx).2
  · simp only [List.cons_append, List.mem_cons, List.mem_append] at hx
    rcases hx with rfl | hx | rfl | hx
    · exact Nat.zero_le _
    · exact (hc x hx).2.le
    · exact le_rfl
    · simp at hx

/-- Cutting a valid track at increasing rows strictly inside it gives pieces derived from
it. -/
theorem piecesAt_derivedFrom {cuts : List Nat} (hv : t.Valid) (hs : cuts.Pairwise (· < ·))
    (hc : ∀ c ∈ cuts, 0 < c ∧ c < t.size) : ∀ q ∈ t.piecesAt cuts, DerivedFrom q t := by
  obtain ⟨hbounds, hle⟩ := piecesAt_bounds hv hs hc
  intro q hq
  simp only [piecesAt, List.mem_map] at hq
  obtain ⟨w, hw, rfl⟩ := hq
  obtain ⟨hlt, hmem⟩ := lt_of_mem_zip_tail hbounds hw
  exact slice_derivedFrom hv hlt (hle _ hmem)

/-- The rows after the first. -/
theorem range_drop_one (n : Nat) : (List.range n).drop 1 = List.range' 1 (n - 1) := by
  rw [List.range_eq_range', List.drop_range']

/-- The rows a rule cuts a valid track at increase and lie strictly inside it. -/
theorem filterM_cutsAt_inside {rule : SegmentationRule} {cuts : List Nat}
    (h : ((List.range t.size).drop 1).filterM (rule.cutsAt t) = .ok cuts) :
    cuts.Pairwise (· < ·) ∧ ∀ c ∈ cuts, 0 < c ∧ c < t.size := by
  have hsub : cuts <+ List.range' 1 (t.size - 1) :=
    range_drop_one t.size ▸ Except.filterM_eq_ok_sublist h
  refine ⟨List.Pairwise.sublist hsub List.pairwise_lt_range', fun c hc => ?_⟩
  have := List.mem_range'_1.1 (hsub.subset hc)
  omega

/-- Once the rows a rule cuts a valid track at are found, every checked slice between them
succeeds: the split is the track when there is no cut, and the pieces at the cuts otherwise. -/
theorem splitWith_eq_of_filterM (hv : t.Valid) {rule : SegmentationRule} {cuts : List Nat}
    (h : ((List.range t.size).drop 1).filterM (rule.cutsAt t) = .ok cuts) :
    t.splitWith rule = .ok (if cuts.isEmpty then [t] else t.piecesAt cuts) := by
  obtain ⟨hs, hc⟩ := filterM_cutsAt_inside h
  obtain ⟨hbounds, hle⟩ := piecesAt_bounds hv hs hc
  unfold splitWith
  rw [h, Except.ok_bind]
  split
  · rfl
  · refine Except.mapM_eq_ok_map fun w hw => ?_
    obtain ⟨hlt, hmem⟩ := lt_of_mem_zip_tail hbounds hw
    exact sliceChecked_eq_ok hlt (hle _ hmem)

/-- Cutting a valid track by any rule gives pieces derived from it. -/
theorem splitWith_derivedFrom {rule : SegmentationRule} {pieces : List Track} (hv : t.Valid)
    (h : t.splitWith rule = .ok pieces) : ∀ q ∈ pieces, DerivedFrom q t := by
  obtain ⟨cuts, hcuts, -⟩ := Except.bind_eq_ok.1 h
  obtain ⟨hs, hc⟩ := filterM_cutsAt_inside hcuts
  rw [splitWith_eq_of_filterM hv hcuts] at h
  cases h
  split
  · simpa using DerivedFrom.refl hv
  · exact piecesAt_derivedFrom hv hs hc

/-- The piece of at most `m` rows that starts at row `k · m`: every start lies inside the
track, so every checked slice succeeds. -/
theorem splitMaxLength_eq {m : Nat} (hm : 0 < m) :
    t.splitMaxLength m = .ok ((List.range ((t.size + m - 1) / m)).map fun k =>
      t.slice (k * m) (min (k * m + m) t.size)) := by
  unfold splitMaxLength
  rw [if_neg (Nat.ne_of_gt hm)]
  dsimp only
  rw [Except.mapM_eq_ok_map (g := fun a => t.slice a (min (a + m) t.size)) ?_, List.map_map]
  · rfl
  · intro a ha
    obtain ⟨k, hk, rfl⟩ := List.mem_map.1 ha
    -- piece `k` starts at row `k * m`, which is inside the track
    have hk' := (Nat.le_div_iff_mul_le hm).1 (List.mem_range.1 hk)
    rw [Nat.succ_mul] at hk'
    exact sliceChecked_eq_ok (by omega) (Nat.min_le_right _ _)

/-- Cutting a valid track into pieces of a bounded length gives pieces derived from it. -/
theorem splitMaxLength_derivedFrom {m : Nat} {pieces : List Track} (hv : t.Valid)
    (h : t.splitMaxLength m = .ok pieces) : ∀ q ∈ pieces, DerivedFrom q t := by
  rcases Nat.eq_zero_or_pos m with rfl | hm
  · simp [splitMaxLength] at h
  · rw [splitMaxLength_eq hm] at h
    cases h
    intro q hq
    simp only [List.mem_map, List.mem_range] at hq
    obtain ⟨k, hk, rfl⟩ := hq
    have hk' := (Nat.le_div_iff_mul_le hm).1 hk
    rw [Nat.succ_mul] at hk'
    exact slice_derivedFrom hv (by omega) (Nat.min_le_right _ _)

/-- Dropping the rows at or below a speed leaves, if any row, a track derived from it. -/
theorem dropLowSpeed_derivedFrom {knots : Float} (hv : t.Valid) (h : t.dropLowSpeed knots = some q) :
    DerivedFrom q t :=
  select_derivedFrom hv (by simp [hv.sog_size]) h

/-- Keeping the rows inside zones leaves, if any row, a track derived from it. -/
theorem zoneMask_derivedFrom {d : Domain} (hv : t.Valid) (h : t.zoneMask d = some q) :
    DerivedFrom q t := by
  have hf := fence_derivedFrom hv d
  obtain ⟨z, hz⟩ := Option.isSome_iff_exists.1 (fence_inZone_isSome t d)
  unfold zoneMask at h
  simp only [hz, Option.getD_some] at h
  exact (select_derivedFrom hf.valid (by simp [hf.valid.inZone_size z hz]) h).trans hf

/-- Interpolation succeeds only with a positive step, and then resamples. -/
theorem interpolate_eq_ok {step : Int} (h : t.interpolate step = .ok q) :
    0 < step ∧ q = t.resample step.toNat := by
  unfold interpolate at h
  split at h
  · cases h
  · cases h
    exact ⟨by omega, rfl⟩

end Track

namespace Batch

/-- A track made from position reports is valid and is the batch's vessel. -/
theorem toTrack_valid {b : Batch} {q : Track} (h : b.toTrack = .ok q) :
    q.Valid ∧ q.mmsi = b.mmsi := by
  obtain ⟨⟨kept, info⟩, -, h⟩ := Except.bind_eq_ok.1 h
  exact ⟨Track.new_valid h, (Track.new_eq_ok_vessel h).1⟩

end Batch

namespace Stage

open Track

variable {t : Track} {outs : List Track}

/-- Each stage makes tracks derived from a valid track. -/
theorem apply_derivedFrom {s : Stage} (hv : t.Valid) (h : s.apply t = .ok outs) :
    ∀ q ∈ outs, DerivedFrom q t := by
  cases s with
  | reconstruct p =>
    obtain ⟨ps, hps, rfl⟩ := Except.map_eq_ok.1 h
    exact reconstruct_derivedFrom hv hps
  | split r => exact splitWith_derivedFrom hv h
  | resample step =>
    -- a positive step resamples, anything else passes the track on
    simp only [apply] at h
    split at h
    · split at h
      · cases h
        simpa using resample_derivedFrom hv (by omega)
      · cases h
        simpa using DerivedFrom.refl hv
    · cases h
      simpa using DerivedFrom.refl hv
  | fence d =>
    cases h
    simpa using fence_derivedFrom hv d
  | zoneMask d =>
    cases h
    intro q hq
    exact zoneMask_derivedFrom hv (Option.mem_toList.1 hq)

/-- Every track a chain of stages makes from a valid track is derived from it. -/
theorem chain_derivedFrom {stages : List Stage} (hv : t.Valid) (h : chain stages t = .ok outs) :
    ∀ q ∈ outs, DerivedFrom q t := by
  induction stages generalizing t outs with
  | nil =>
    cases h
    simpa using DerivedFrom.refl hv
  | cons s rest ih =>
    intro q hq
    obtain ⟨mid, hmid, h⟩ := Except.bind_eq_ok.1 h
    -- `q` comes through the rest of the chain from one output of the first stage
    obtain ⟨x, hx, ys, hys, hq'⟩ := Except.flatMapM_eq_ok_mem h hq
    have hxd := apply_derivedFrom hv hmid x hx
    exact (ih hxd.valid hys q hq').trans hxd

/-- Every track a chain of stages makes from valid tracks is derived from one of them. -/
theorem run_derivedFrom {stages : List Stage} {ts : List Track} (hv : ∀ t ∈ ts, t.Valid)
    (h : run stages ts = .ok outs) : ∀ q ∈ outs, ∃ t ∈ ts, DerivedFrom q t := by
  intro q hq
  obtain ⟨t, ht, ys, hys, hq'⟩ := Except.flatMapM_eq_ok_mem h hq
  exact ⟨t, ht, chain_derivedFrom (hv t ht) hys q hq'⟩

end Stage

/-! ## Every track the library produces is valid -/

namespace Track

/-- What each operation that makes tracks out of a track `t` gives, for every value of its
parameters: tracks derived from `t`; interpolation moreover gives strictly increasing times
once `t` has two rows. -/
structure OutputsDerived (t : Track) : Prop where
  setInZone : ∀ zs q, t.setInZone zs = .ok q → DerivedFrom q t
  reconstruct : ∀ p ps, Pathway.reconstruct t p = .ok ps → ∀ q ∈ ps.toList, DerivedFrom q t
  splitWith : ∀ r pieces, t.splitWith r = .ok pieces → ∀ q ∈ pieces, DerivedFrom q t
  splitByTimeGap : ∀ gap pieces, t.splitByTimeGap gap = .ok pieces → ∀ q ∈ pieces, DerivedFrom q t
  splitMaxLength : ∀ m pieces, t.splitMaxLength m = .ok pieces → ∀ q ∈ pieces, DerivedFrom q t
  dropLowSpeed : ∀ knots q, t.dropLowSpeed knots = some q → DerivedFrom q t
  zoneMask : ∀ d q, t.zoneMask d = some q → DerivedFrom q t
  interpolate : ∀ step q, t.interpolate step = .ok q →
    DerivedFrom q t ∧ (1 < t.size → q.time.toList.Pairwise (· < ·))
  fence : ∀ d, DerivedFrom (t.fence d) t

/-- Every operation on a valid track makes tracks derived from it. -/
theorem outputsDerived (hv : t.Valid) : OutputsDerived t where
  setInZone _ _ h := setInZone_derivedFrom hv h
  reconstruct _ _ h := reconstruct_derivedFrom hv h
  splitWith _ _ h := splitWith_derivedFrom hv h
  splitByTimeGap _ _ h := splitWith_derivedFrom hv h
  splitMaxLength _ _ h := splitMaxLength_derivedFrom hv h
  dropLowSpeed _ _ h := dropLowSpeed_derivedFrom hv h
  zoneMask _ _ h := zoneMask_derivedFrom hv h
  interpolate _ _ h := by
    obtain ⟨hstep, rfl⟩ := interpolate_eq_ok h
    exact ⟨resample_derivedFrom hv (by omega), fun h2 => resample_time_sorted h2 (by omega)⟩
  fence d := fence_derivedFrom hv d

/-- **Every track the library produces is valid.** A track built by `Track.new` or from the
position reports of a batch is valid and is the vessel it was given; every operation on a
valid track, whatever its parameters, makes tracks derived from it (`OutputsDerived`): valid,
the same vessel with the same attributes; and a chain of stages run over valid tracks makes
tracks derived from one of them. -/
theorem produced_tracks_valid :
    (∀ mmsi info time lon lat cog sog q, Track.new mmsi info time lon lat cog sog = .ok q →
      q.Valid ∧ q.mmsi = mmsi ∧ q.info = info) ∧
    (∀ (b : Batch) q, b.toTrack = .ok q → q.Valid ∧ q.mmsi = b.mmsi) ∧
    (∀ t : Track, t.Valid → OutputsDerived t) ∧
    ∀ stages ts outs, (∀ t ∈ ts, t.Valid) → Stage.run stages ts = .ok outs →
      ∀ q ∈ outs, ∃ t ∈ ts, DerivedFrom q t :=
  ⟨fun _ _ _ _ _ _ _ _ h => ⟨new_valid h, new_eq_ok_vessel h⟩, fun _ _ h => Batch.toTrack_valid h,
    fun _ hv => outputsDerived hv, fun _ _ _ hv h => Stage.run_derivedFrom hv h⟩

/-- Two rows a minute apart built by `Track.new` are a valid track, and every operation on
it makes tracks derived from it. -/
theorem produced_tracks_valid_standstill :
    Track.new 1 {} #[0, 60] #[0.0, 0.0] #[0.0, 0.0] #[0.0, 0.0] #[0.0, 0.0] =
        .ok Pathway.standstill ∧
      Pathway.standstill.Valid ∧ OutputsDerived Pathway.standstill := by
  have hnew : Track.new 1 {} #[0, 60] #[0.0, 0.0] #[0.0, 0.0] #[0.0, 0.0] #[0.0, 0.0] =
      .ok Pathway.standstill := rfl
  have hv := (produced_tracks_valid.1 _ _ _ _ _ _ _ _ hnew).1
  exact ⟨hnew, hv, produced_tracks_valid.2.2.1 _ hv⟩

end Track

end Seaway
