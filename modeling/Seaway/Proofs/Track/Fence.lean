import Mathlib
import Seaway.Proofs.Track.Split

/-!
# Fencing commutes with the stages that regroup rows

Fencing gives each row of a track the zone of its position and touches nothing else, and a
track that has a zone column already is left as it is. Slicing a row range, appending rows
and relabelling carry a zone column along row by row, and neither the cut of a track nor
the dealing of its chunks to pathways reads the zone column. So a track may be fenced before
or after it is cut or its pathways are reconstructed, with the same result.

* `fence_eq_of_inZone_none`: an unfenced valid track gets the zone of every row;
* `slice_fence`, `extendFrom_fence`: slicing and appending rows commute with fencing;
* `reconstruct_fence`, `splitWith_fence`: so do reconstruction and cutting;
* `zoneMask_eq`: masking keeps the fenced rows whose zone is not `Z0`, and nothing when
  there is none;
* `Track.fence_commutes` puts these together with idempotence.
-/

namespace Seaway

namespace Track

variable {t q : Track} {d : Domain} {a b : Nat}

/-! ## What fencing changes -/

section Fields

variable (t : Track) (d : Domain)

@[simp] theorem fence_time : (t.fence d).time = t.time := by unfold fence; split <;> rfl
@[simp] theorem fence_lon : (t.fence d).lon = t.lon := by unfold fence; split <;> rfl
@[simp] theorem fence_lat : (t.fence d).lat = t.lat := by unfold fence; split <;> rfl
@[simp] theorem fence_cog : (t.fence d).cog = t.cog := by unfold fence; split <;> rfl
@[simp] theorem fence_sog : (t.fence d).sog = t.sog := by unfold fence; split <;> rfl
@[simp] theorem fence_mmsi : (t.fence d).mmsi = t.mmsi := by unfold fence; split <;> rfl
@[simp] theorem fence_label : (t.fence d).label = t.label := by unfold fence; split <;> rfl
@[simp] theorem fence_info : (t.fence d).info = t.info := by unfold fence; split <;> rfl
@[simp] theorem fence_size : (t.fence d).size = t.size := by simp [size]

end Fields

theorem fence_of_isSome (h : t.inZone.isSome) : t.fence d = t := by
  obtain ⟨z, hz⟩ := Option.isSome_iff_exists.1 h
  simp [fence, hz]

theorem fence_of_none (h : t.inZone = none) :
    t.fence d = { t with inZone := some ((t.lon.zip t.lat).map fun p => d.locate p.1 p.2) } := by
  simp [fence, h]

theorem fence_fence (t : Track) (d : Domain) : (t.fence d).fence d = t.fence d :=
  fence_of_isSome (fence_inZone_isSome t d)

/-- Relabelling commutes with fencing. -/
theorem fence_withLabel (l : Option Nat) : { t with label := l }.fence d = { t.fence d with label := l } := by
  cases h : t.inZone with
  | none => simp [fence, h]
  | some z => simp [fence, h]

/-- An unfenced valid track gets the zone of each of its positions, row by row. -/
theorem fence_eq_of_inZone_none (hv : t.Valid) (h : t.inZone = none) :
    t.fence d = { t with inZone := some ((List.range t.size).map fun i =>
      d.locate (t.lon.getD i 0) (t.lat.getD i 0)).toArray } := by
  rw [fence_of_none h]
  congr 2
  apply Array.ext
  · simp [hv.lon_size, hv.lat_size, size]
  · intro i h₁ h₂
    simp only [Array.size_map, Array.size_zip] at h₁
    simp [Array.getElem?_eq_getElem (by omega : i < t.lon.size),
      Array.getElem?_eq_getElem (by omega : i < t.lat.size)]

theorem anchor_ofRow_fence (i : Nat) : Anchor.ofRow (t.fence d) i = Anchor.ofRow t i := by
  simp [Anchor.ofRow]

theorem anchor_last_fence : Anchor.last (t.fence d) = Anchor.last t := by
  simp [Anchor.last, anchor_ofRow_fence]

theorem anchor_atRow_fence (i : Nat) : Anchor.atRow (t.fence d) i = Anchor.atRow t i := by
  simp [Anchor.atRow]

theorem anchor_lastRow_fence : Anchor.lastRow (t.fence d) = Anchor.lastRow t := by
  simp [Anchor.lastRow, anchor_atRow_fence]

/-! ## Slicing and appending rows -/

theorem zip_extract {α β : Type} (xs : Array α) (ys : Array β) :
    (xs.zip ys).extract a b = (xs.extract a b).zip (ys.extract a b) := by
  apply Array.ext
  · simp only [Array.size_extract, Array.size_zip]
    omega
  · intro i h₁ h₂
    simp [Array.getElem_extract]

theorem slice_fence (t : Track) (d : Domain) (a b : Nat) :
    (t.fence d).slice a b = (t.slice a b).fence d := by
  cases h : t.inZone with
  | some z => rw [fence_of_isSome (by simp [h]), fence_of_isSome (by simp [slice, h])]
  | none =>
    have hs : (t.slice a b).inZone = none := by simp [slice, h]
    rw [fence_of_none h, fence_of_none hs]
    simp [slice, ← Array.map_extract, zip_extract]

/-- Appending rows of an unfenced track to an unfenced track whose longitudes and latitudes
are as many commutes with fencing. -/
theorem extendFrom_fence (hq : q.inZone = none) (hql : q.lon.size = q.lat.size)
    (ht : t.inZone = none) (a b : Nat) :
    (q.fence d).extendFrom (t.fence d) a b = (q.extendFrom t a b).fence d := by
  have he : (q.extendFrom t a b).inZone = none := by simp [extendFrom, hq, ht]
  rw [fence_of_none hq, fence_of_none ht, fence_of_none he]
  simp [extendFrom, Array.zip_append hql, ← Array.map_extract, zip_extract]

/-! ## Reconstruction -/

section Reconstruct

open Pathway

variable {p : PathwayParams}

theorem chunkBounds_fence (t : Track) (d : Domain) (p : PathwayParams) :
    chunkBounds (t.fence d) p = chunkBounds t p := by
  simp [chunkBounds, consecutiveDistances, consecutiveSeconds, size]

/-- Pathways made of unfenced rows whose longitudes and latitudes are as many. -/
def Unfenced (ps : Array Track) : Prop := ∀ q ∈ ps, q.inZone = none ∧ q.lon.size = q.lat.size

/-- Dealing a chunk of a fenced track to fenced pathways deals it as for the unfenced ones,
then fences them. -/
theorem deal_fence (ht : t.inZone = none) {ps : Array Track} (hps : Unfenced ps)
    (w : Nat × Nat) :
    deal (t.fence d) p (ps.map (·.fence d)) w = (·.map (·.fence d)) <$> deal t p ps w := by
  obtain ⟨a, b⟩ := w
  exact deal_map (fun q => anchor_last_fence) (fun q => anchor_lastRow_fence)
    (anchor_atRow_fence a)
    (fun q hq => extendChecked_congr (fence_size t d)
      (extendFrom_fence (hps q hq).1 (hps q hq).2 ht a b))
    (sliceChecked_congr (fence_size t d) (slice_fence t d a b))

theorem deal_unfenced (hv : t.Valid) (ht : t.inZone = none) {ps ps' : Array Track}
    (hps : Unfenced ps) (w : Nat × Nat) (h : deal t p ps w = .ok ps') : Unfenced ps' := by
  obtain ⟨a, b⟩ := w
  obtain ⟨-, i, score, -, ⟨-, -, -, -, rfl⟩ | ⟨-, -, -, rfl⟩⟩ := deal_eq_ok_cases h
  · intro q hq
    obtain ⟨k, hk, rfl⟩ := Array.mem_iff_getElem.1 hq
    rw [Array.getElem_modify]
    have hq' := hps _ (Array.getElem_mem (by simpa using hk))
    split
    · simp [extendFrom, hq'.1, ht, hq'.2, hv.lon_size, hv.lat_size]
    · exact hq'
  · intro q hq
    rcases Array.mem_push.1 hq with hq | rfl
    · exact hps q hq
    · simp [slice, ht, hv.lon_size, hv.lat_size]

/-- Reconstructing the pathways of a fenced valid track gives the fenced pathways of the
track. -/
theorem reconstruct_fence (hv : t.Valid) (d : Domain) (p : PathwayParams) :
    reconstruct (t.fence d) p = (·.map (·.fence d)) <$> reconstruct t p := by
  cases ht : t.inZone with
  | some z =>
    -- a fenced track and its pathways, gathered from its rows, keep their zone column
    rw [fence_of_isSome (by simp [ht])]
    cases h : reconstruct t p with
    | error e => rfl
    | ok ps =>
      obtain ⟨bs, rows, -, -, hps⟩ := reconstruct_eq_ok hv h
      have hsome : ∀ q ∈ ps.toList, q.inZone.isSome := by
        intro q hq
        rw [hps, List.mem_mapIdx] at hq
        obtain ⟨k, hk, rfl⟩ := hq
        simp [gather, ht]
      show Except.ok ps = Except.ok _
      congr 1
      apply Array.ext
      · simp
      · intro i h₁ h₂
        rw [Array.getElem_map, fence_of_isSome (hsome _ (Array.getElem_mem_toList _))]
  | none =>
    -- dealing commutes with fencing, and so does labelling
    have hinit : ∀ a b, Unfenced #[t.slice a b] := by
      intro a b q hq
      rw [Array.mem_singleton] at hq
      subst hq
      simp [slice, ht, hv.lon_size, hv.lat_size]
    have hdealt : dealt (t.fence d) p = (·.map (·.fence d)) <$> dealt t p :=
      dealt_map Unfenced (fence_size t d) rfl (chunkBounds_fence t d p)
        (fun a b => sliceChecked_congr (fence_size t d) (slice_fence t d a b)) hinit
        (fun w ps ps' h h' => deal_unfenced hv ht h w h') (fun w ps h => deal_fence ht h w)
    rw [reconstruct_eq_dealt, reconstruct_eq_dealt, hdealt]
    cases dealt t p with
    | error e => rfl
    | ok ps =>
      show Except.ok _ = Except.ok _
      congr 1
      apply Array.ext
      · simp
      · intro i h₁ h₂
        simp [fence_withLabel]

end Reconstruct

/-! ## Cutting -/

theorem cutsAt_fence (r : SegmentationRule) (t : Track) (d : Domain) :
    r.cutsAt (t.fence d) = r.cutsAt t := by
  funext i
  simp [SegmentationRule.cutsAt]

/-- Cutting a fenced track gives the fenced pieces of the track. -/
theorem splitWith_fence (t : Track) (d : Domain) (r : SegmentationRule) :
    (t.fence d).splitWith r = (·.map (·.fence d)) <$> t.splitWith r := by
  unfold splitWith
  rw [cutsAt_fence, fence_size]
  cases h : ((List.range t.size).drop 1).filterM (r.cutsAt t) with
  | error e => rfl
  | ok cuts =>
    simp only [Except.ok_bind]
    split
    · rfl
    · refine Except.mapM_map_comm _ fun w _ => ?_
      obtain ⟨a, b⟩ := w
      exact sliceChecked_congr (fence_size t d) (slice_fence t d a b)

/-! ## Masking -/

/-- The rows of a track whose zone in a domain, once fenced, is not `Z0`, in order. -/
def zoneRows (t : Track) (d : Domain) : List Nat :=
  (List.range t.size).filter fun i => ((t.fence d).inZone.getD #[]).getD i "" ≠ noZone

theorem mem_zoneRows {i : Nat} :
    i ∈ zoneRows t d ↔ i < t.size ∧ ((t.fence d).inZone.getD #[]).getD i "" ≠ noZone := by
  simp [zoneRows]

/-- Masking a valid track keeps the fenced rows whose zone is not `Z0`, or gives nothing when
there is none. -/
theorem zoneMask_eq (hv : t.Valid) (d : Domain) :
    t.zoneMask d = if zoneRows t d = [] then none else some ((t.fence d).gather (zoneRows t d)) := by
  have hf := (fence_derivedFrom hv d).valid
  obtain ⟨zs, hzs⟩ := Option.isSome_iff_exists.1 (fence_inZone_isSome t d)
  have hsize : zs.size = t.size := by simpa using hf.inZone_size zs hzs
  have hk : (zs.map fun z => decide (z ≠ noZone)).size = (t.fence d).size := by
    rw [Array.size_map, hsize, fence_size]
  -- the mask is set exactly at the rows of `zoneRows`
  have hrows : (List.range (zs.map fun z => decide (z ≠ noZone)).size).filter
      ((zs.map fun z => decide (z ≠ noZone)).getD · false) = zoneRows t d := by
    rw [Array.size_map, hsize, zoneRows, hzs, Option.getD_some]
    refine List.filter_congr fun i hi => ?_
    have hi' : i < zs.size := hsize ▸ List.mem_range.1 hi
    simp [Array.getElem?_eq_getElem hi']
  unfold zoneMask
  simp only [hzs, Option.getD_some]
  rw [select_eq hf hk, ← hk, hrows]
  by_cases hany : (zs.map fun z => decide (z ≠ noZone)).any id = true
  · rw [if_pos hany, if_neg (hrows ▸ any_id_iff_ne_nil.1 hany)]
  · rw [if_neg hany, if_pos (not_not.1 fun hne => hany (any_id_iff_ne_nil.2 (hrows ▸ hne)))]

theorem zoneMask_eq_none_iff (hv : t.Valid) (d : Domain) :
    t.zoneMask d = none ↔ ∀ i < t.size, ((t.fence d).inZone.getD #[]).getD i "" = noZone := by
  rw [zoneMask_eq hv]
  split
  · rename_i h
    simp only [true_iff]
    intro i hi
    simpa [zoneRows, hi] using List.filter_eq_nil_iff.1 h i
  · rename_i h
    simp only [reduceCtorEq, false_iff, not_forall]
    obtain ⟨i, hi⟩ := List.exists_mem_of_ne_nil _ h
    simp only [zoneRows, List.mem_filter, List.mem_range, decide_eq_true_eq] at hi
    exact ⟨i, hi.1, hi.2⟩

/-- A valid track is all its rows. -/
theorem gather_range (hv : t.Valid) : t.gather (List.range t.size) = t := by
  have h := slice_eq_gather (a := 0) hv le_rfl
  rw [slice_all hv, Nat.sub_zero, ← List.range_eq_range'] at h
  exact h.symm

/-- Masking what masking kept keeps it all. -/
theorem zoneMask_zoneMask (hv : t.Valid) (h : t.zoneMask d = some q) : q.zoneMask d = some q := by
  have hq := (zoneMask_derivedFrom hv h).valid
  rw [zoneMask_eq hv] at h
  split at h
  · cases h
  · rename_i hne
    cases h
    obtain ⟨zs, hzs⟩ := Option.isSome_iff_exists.1 (fence_inZone_isSome t d)
    -- every kept row has a zone, so the second mask keeps all rows
    have hall : zoneRows ((t.fence d).gather (zoneRows t d)) d =
        List.range ((t.fence d).gather (zoneRows t d)).size := by
      rw [zoneRows, List.filter_eq_self]
      intro i hi
      have hi' : i < (zoneRows t d).length := by simpa using hi
      have hmem := (mem_zoneRows.1 (List.getElem_mem hi')).2
      rw [hzs, Option.getD_some] at hmem
      rw [fence_of_isSome (by simp [gather, hzs])]
      simp only [gather, hzs, Option.map_some, Option.getD_some, Array.getD_eq_getD_getElem?,
        List.getElem?_toArray, List.getElem?_map, List.getElem?_eq_getElem hi', Option.map_some,
        Option.getD_some]
      simpa [Array.getD_eq_getD_getElem?] using hmem
    rw [zoneMask_eq hq, hall, if_neg (by simpa using hq.size_pos.ne'),
      fence_of_isSome (by simp [gather, hzs]), gather_range hq]

/-! ## Fencing and the other stages -/

/-- **Fencing commutes with the stages that regroup rows.** For a valid track and any domain:
an unfenced track gets the zone of each of its positions, and a fenced one is left as it is,
so fencing twice is fencing once; reconstructing the pathways of the fenced track, or cutting
it by any rule, gives the fenced pathways or pieces of the track, failures included; masking
gives nothing exactly when every fenced row is `Z0`, and otherwise the fenced rows that are
not, in order; and masking what masking kept keeps all of it. -/
theorem fence_commutes (hv : t.Valid) (d : Domain) :
    (t.inZone = none → t.fence d = { t with inZone := some ((List.range t.size).map fun i =>
      d.locate (t.lon.getD i 0) (t.lat.getD i 0)).toArray }) ∧
    (t.inZone.isSome → t.fence d = t) ∧
    (t.fence d).fence d = t.fence d ∧
    (∀ p, Pathway.reconstruct (t.fence d) p = (·.map (·.fence d)) <$> Pathway.reconstruct t p) ∧
    (∀ r, (t.fence d).splitWith r = (·.map (·.fence d)) <$> t.splitWith r) ∧
    (t.zoneMask d = none ↔ ∀ i < t.size, ((t.fence d).inZone.getD #[]).getD i "" = noZone) ∧
    t.zoneMask d = (if zoneRows t d = [] then none else some ((t.fence d).gather (zoneRows t d))) ∧
    ∀ q, t.zoneMask d = some q → q.zoneMask d = some q :=
  ⟨fence_eq_of_inZone_none hv, fun h => fence_of_isSome h, fence_fence t d,
    reconstruct_fence hv d, splitWith_fence t d, zoneMask_eq_none_iff hv d, zoneMask_eq hv d,
    fun _ h => zoneMask_zoneMask hv h⟩

theorem fence_commutes_silence :
    silence.Valid ∧
      (silence.inZone = none → silence.fence default =
        { silence with
          inZone := some ((List.range silence.size).map fun i =>
            (default : Domain).locate (silence.lon.getD i 0) (silence.lat.getD i 0)).toArray }) ∧
      (silence.inZone.isSome → silence.fence default = silence) ∧
      (silence.fence default).fence default = silence.fence default ∧
      (∀ p, Pathway.reconstruct (silence.fence default) p =
        (·.map (·.fence default)) <$> Pathway.reconstruct silence p) ∧
      (∀ r, (silence.fence default).splitWith r =
        (·.map (·.fence default)) <$> silence.splitWith r) ∧
      (silence.zoneMask default = none ↔ ∀ i < silence.size,
        ((silence.fence default).inZone.getD #[]).getD i "" = noZone) ∧
      silence.zoneMask default = (if zoneRows silence default = [] then none
        else some ((silence.fence default).gather (zoneRows silence default))) ∧
      ∀ q, silence.zoneMask default = some q → q.zoneMask default = some q := by
  have hv : silence.Valid :=
    ⟨by decide, rfl, rfl, rfl, rfl, (fun _ hz => by cases hz), by decide⟩
  exact ⟨hv, fence_commutes hv default⟩

end Track

end Seaway
