import Mathlib
import Seaway.Graph.Run
import Seaway.Proofs.Track.Derived
import Seaway.Proofs.Transit.Edges

/-!
# Tracks whose span fits 64 bits

Times are signed 64-bit seconds, and every elapsed time the library computes is the
difference of two times of one track: of consecutive rows (speeds, cuts), of the first and
last row of a range (transit edges, the transit rate), or of a pathway's last row and the
first row of a later chunk (continuity). On a valid track each such difference lies between
`0` and the span from the first to the last row; so once the span fits a signed 64-bit
integer (`RangeFits 0 size`), none of them overflows. The rows read, the row counts less one
and the row ranges sliced are checked as the library checks them, and on a valid track every
one of them lies inside the track. Tracks made from a track keep their times inside its span,
so the same holds of every track a stage derives.

* `noOverflow`: on a valid track whose span fits, the per-row computations, chunk bounds,
  reconstruction, both cuts, and (once fenced) the transit edges and transit rate are
  computed (`Track.NoOverflow`);
* `Stage.chain_ok`, `NetworkGraph.transits_ok`, `NetworkGraph.processBatch_error_not_panic`:
  chains of stages, the transit edges of a batch and its processing never overflow;
* `interpolate_ok`: resampling never overflows, whatever the times, since every grid time
  lies between the first and the last time;
* `Track.span_fits_never_overflows` puts these together.
-/

namespace Seaway

namespace Track

open Transit

variable {t q : Track}

/-! ## Row ranges inside a track whose span fits -/

/-- A row range of a valid track whose span fits fits too. -/
theorem RangeFits.mono (hv : t.Valid) (hfit : t.RangeFits 0 t.size) {a b : Nat} (hab : a < b)
    (hb : b ≤ t.size) : t.RangeFits a b := by
  have h₀ := hv.time_mono (Nat.zero_le a) (by omega)
  have h₁ := hv.time_mono (by omega : b - 1 ≤ t.size - 1) (by omega)
  unfold RangeFits at *
  omega

/-- A track derived from a track whose span fits has a span that fits. -/
theorem RangeFits.of_derivedFrom (h : DerivedFrom q t) (hfit : t.RangeFits 0 t.size) :
    q.RangeFits 0 q.size := by
  have hq := h.valid
  have hfirst := h.time_mem _ (getD_mem hq.size_pos)
  have hlast := h.time_mem _ (getD_mem (Nat.sub_one_lt_of_lt hq.size_pos))
  unfold RangeFits at *
  omega

/-- The consecutive seconds of an empty row range are none. -/
theorem consecutiveSeconds_self {a : Nat} (ha : a ≤ t.size) :
    t.consecutiveSeconds a a = .ok #[] := by
  simp [consecutiveSeconds, checkRange_eq_ok.2 ⟨le_rfl, ha⟩, Bind.bind, Except.bind, pure,
    Except.pure]

/-- The consecutive seconds of every row range of a valid track whose span fits are
computed. -/
theorem consecutiveSeconds_ok_of_fits (hv : t.Valid) (hfit : t.RangeFits 0 t.size) {a b : Nat}
    (hab : a ≤ b) (hb : b ≤ t.size) : ∃ s, t.consecutiveSeconds a b = .ok s := by
  rcases Nat.eq_or_lt_of_le hab with rfl | hlt
  · exact ⟨_, consecutiveSeconds_self hb⟩
  · obtain ⟨s, hs, -⟩ := consecutiveSeconds_ok hv hab hb (hfit.mono hv hlt hb)
    exact ⟨s, hs⟩

/-! ## What a track whose span fits computes -/

/-- Whether a cut falls before a row is decided for every row. -/
theorem cutsAt_ok (hv : t.Valid) (hfit : t.RangeFits 0 t.size) (r : SegmentationRule)
    {i : Nat} (hi₀ : 0 < i) (hin : i < t.size) : ∃ b, r.cutsAt t i = .ok b := by
  have hgap := hv.sub_le_range (Nat.zero_le (i - 1)) (Nat.sub_le i 1) hin le_rfl
  unfold RangeFits at hfit
  have hsub := subInt64_eq_ok hgap.1 (Int.le_trans hgap.2 hfit)
  -- both rows are read, the one before `i` through a subtraction that stays at or above zero
  obtain ⟨ht, hx, -⟩ := hv.entry_eq_ok hin
  obtain ⟨ht', hx', -⟩ := hv.entry_eq_ok (show i - 1 < t.size by omega)
  simp only [SegmentationRule.cutsAt, subSize_eq_ok (show 1 ≤ i by omega), ht, ht', hx, hx',
    hsub, Bind.bind, Except.bind, pure, Except.pure]
  exact ⟨_, rfl⟩

/-- Cutting a valid track whose span fits succeeds for every rule. -/
theorem splitWith_ok (hv : t.Valid) (hfit : t.RangeFits 0 t.size) (r : SegmentationRule) :
    ∃ pieces, t.splitWith r = .ok pieces := by
  have hcuts : ∃ cuts, ((List.range t.size).drop 1).filterM (r.cutsAt t) = .ok cuts := by
    refine Except.filterM_ok fun i hi => ?_
    rw [range_drop_one, List.mem_range'_1] at hi
    exact cutsAt_ok hv hfit r (by omega) (by omega)
  obtain ⟨cuts, hcuts⟩ := hcuts
  exact ⟨_, splitWith_eq_of_filterM hv hcuts⟩

/-- The transit edges of a fenced valid track whose span fits are computed. -/
theorem transitEdges_ok (hv : t.Valid) (hfit : t.RangeFits 0 t.size) (hz : t.inZone.isSome) :
    ∃ es, t.transitEdges = .ok es := by
  obtain ⟨z, hz⟩ := Option.isSome_iff_exists.1 hz
  have hzs : z.size = t.size := hv.inZone_size z hz
  refine (transitEdges_ok_iff hv hz).2 fun k hk => ?_
  -- every edge is a non-empty row range inside the track
  have hlt := edgeStart_lt_edgeStop (hzs ▸ hv.size_pos) hk
  have hle := edgeStop_le (z := z) (k := k)
  rw [hzs] at hlt hle
  exact hfit.mono hv hlt hle

/-- The transit rate of a fenced valid track whose span fits is computed. -/
theorem hourlyTransitRate_ok (hv : t.Valid) (hfit : t.RangeFits 0 t.size) (hz : t.inZone.isSome) :
    ∃ rate, t.hourlyTransitRate = .ok rate := by
  obtain ⟨z, hz⟩ := Option.isSome_iff_exists.1 hz
  have hspan := hv.time_mono (Nat.zero_le (t.size - 1)) (Nat.sub_one_lt_of_lt hv.size_pos)
  unfold RangeFits at hfit
  -- the first and the last time are read, the last through the row count less one
  obtain ⟨htn, -, -⟩ := hv.entry_eq_ok (Nat.sub_one_lt_of_lt hv.size_pos)
  obtain ⟨ht0, -, -⟩ := hv.entry_eq_ok hv.size_pos
  simp only [hourlyTransitRate, hz, subSize_eq_ok hv.size_pos, htn, ht0,
    subInt64_eq_ok (Int.sub_nonneg.2 hspan) hfit, Bind.bind, Except.bind, pure, Except.pure]
  exact ⟨_, rfl⟩

/-- What is computed on a track without a 64-bit overflow, a row count less one that
underflows, a read past the end of a column or a slice outside the track: the consecutive
distances, seconds and speeds of every row range, the chunk bounds and the pathways for all
thresholds, the pieces of every cut, and, once the track is fenced, its transit edges and
transit rate. Each of these fails with its own fault at the first such step, so being
computed means that none was taken. -/
structure NoOverflow (t : Track) : Prop where
  consecutive : ∀ a b, a ≤ b → b ≤ t.size → (∃ m, t.consecutiveDistances a b = .ok m) ∧
    (∃ s, t.consecutiveSeconds a b = .ok s) ∧ ∃ k, t.consecutiveKnots a b = .ok k
  chunkBounds : ∀ p, ∃ bs, Pathway.chunkBounds t p = .ok bs
  reconstruct : ∀ p, ∃ ps, Pathway.reconstruct t p = .ok ps
  splitWith : ∀ r, ∃ pieces, t.splitWith r = .ok pieces
  splitMaxLength : ∀ m, 0 < m → ∃ pieces, t.splitMaxLength m = .ok pieces
  transitEdges : t.inZone.isSome → ∃ es, t.transitEdges = .ok es
  hourlyTransitRate : t.inZone.isSome → ∃ rate, t.hourlyTransitRate = .ok rate

/-- Nothing overflows on a valid track whose span fits. -/
theorem noOverflow (hv : t.Valid) (hfit : t.RangeFits 0 t.size) : NoOverflow t where
  consecutive a b hab hb := by
    obtain ⟨m, hm, -⟩ := consecutiveDistances_ok hv hab hb
    obtain ⟨s, hs⟩ := consecutiveSeconds_ok_of_fits hv hfit hab hb
    exact ⟨⟨m, hm⟩, ⟨s, hs⟩, ⟨(m.zip s).map fun x => x.1 / x.2 * Geodesy.knotsPerMps, by
      simp only [consecutiveKnots, hm, hs, Bind.bind, Except.bind, pure, Except.pure]⟩⟩
  chunkBounds _ := Pathway.chunkBounds_ok hv hfit
  reconstruct _ := Pathway.reconstruct_ok hv hfit
  splitWith r := splitWith_ok hv hfit r
  splitMaxLength _ hm := ⟨_, splitMaxLength_eq hm⟩
  transitEdges hz := transitEdges_ok hv hfit hz
  hourlyTransitRate hz := hourlyTransitRate_ok hv hfit hz

/-- Nothing overflows on a track derived from a valid track whose span fits. -/
theorem DerivedFrom.noOverflow (h : DerivedFrom q t) (hfit : t.RangeFits 0 t.size) :
    NoOverflow q :=
  Track.noOverflow h.valid (RangeFits.of_derivedFrom h hfit)

/-- Resampling never overflows: with a positive step it succeeds, and every grid time lies
between the first and the last time of the track, whatever their values. -/
theorem interpolate_ok (hv : t.Valid) {step : Int} (hstep : 0 < step) :
    ∃ q, t.interpolate step = .ok q ∧
      ∀ v ∈ q.time.toList, t.time.getD 0 0 ≤ v ∧ v ≤ t.time.getD (t.size - 1) 0 := by
  have hq : DerivedFrom (t.resample step.toNat) t := resample_derivedFrom hv (by omega)
  refine ⟨_, ?_, hq.time_mem⟩
  simp [interpolate, Int.not_le.2 hstep]

end Track

/-! ## Chains of stages and graph runs -/

namespace Stage

open Track

variable {t : Track}

/-- Each stage succeeds on a valid track whose span fits. -/
theorem apply_ok (hv : t.Valid) (hfit : t.RangeFits 0 t.size) (s : Stage) :
    ∃ outs, s.apply t = .ok outs := by
  cases s with
  | reconstruct p =>
    obtain ⟨ps, hps⟩ := Pathway.reconstruct_ok (p := p) hv hfit
    exact ⟨ps.toList, Except.map_eq_ok.2 ⟨ps, hps, rfl⟩⟩
  | split r => exact splitWith_ok hv hfit r
  | resample step =>
    simp only [apply]
    split
    · split <;> exact ⟨_, rfl⟩
    · exact ⟨_, rfl⟩
  | fence d => exact ⟨_, rfl⟩
  | zoneMask d => exact ⟨_, rfl⟩

/-- A chain of stages succeeds on a valid track whose span fits. -/
theorem chain_ok (hv : t.Valid) (hfit : t.RangeFits 0 t.size) (stages : List Stage) :
    ∃ outs, chain stages t = .ok outs := by
  induction stages generalizing t with
  | nil => exact ⟨_, rfl⟩
  | cons s rest ih =>
    obtain ⟨mid, hmid⟩ := apply_ok hv hfit s
    -- every output of the first stage is derived from `t`, so its span fits too
    obtain ⟨outs, houts⟩ := Except.flatMapM_ok (f := chain rest) (l := mid) fun x hx =>
      have hx := apply_derivedFrom hv hmid x hx
      ih hx.valid (RangeFits.of_derivedFrom hx hfit)
    exact ⟨outs, Except.bind_eq_ok.2 ⟨mid, hmid, houts⟩⟩

/-- A chain of stages run over valid tracks whose spans fit succeeds. -/
theorem run_ok {ts : List Track} (hv : ∀ t ∈ ts, t.Valid ∧ t.RangeFits 0 t.size)
    (stages : List Stage) : ∃ outs, run stages ts = .ok outs :=
  Except.flatMapM_ok fun t ht => chain_ok (hv t ht).1 (hv t ht).2 stages

/-- A chain that ends by fencing makes fenced tracks. -/
theorem chain_fence_inZone {stages : List Stage} {d : Domain} {outs : List Track}
    (h : chain (stages ++ [.fence d]) t = .ok outs) : ∀ q ∈ outs, q.inZone.isSome := by
  induction stages generalizing t outs with
  | nil =>
    cases h
    simpa using fence_inZone_isSome t d
  | cons s rest ih =>
    intro q hq
    obtain ⟨mid, -, h⟩ := Except.bind_eq_ok.1 h
    obtain ⟨x, -, ys, hys, hq'⟩ := Except.flatMapM_eq_ok_mem h hq
    exact ih hys q hq'

end Stage

namespace EdgeSink

/-- Appending to an artifact fails only when a subfolder takes its name. -/
theorem append_eq_error {f : Folder} {mmsi : Nat} {es : List TransitEdge} {e : Fault}
    (h : append f mmsi es = .error e) : e = .io isFolderText := by
  unfold append at h
  dsimp only at h
  split at h
  · cases h
  · split at h
    · cases h
      rfl
    · cases h

end EdgeSink

namespace NetworkGraph

open Track

variable {g : NetworkGraph} {b : Batch} {t : Track}

/-- The stages after reconstruction end by fencing. -/
theorem stages_eq (g : NetworkGraph) :
    g.stages = [.split g.params.segmentationRule, .resample g.params.interpStep] ++
      [.fence g.domain] := rfl

/-- The tracks of a batch whose track has a span that fits: they are computed, and each is
a fenced track, derived from a pathway of the batch's track. -/
theorem pathways_ok (hb : b.toTrack = .ok t) (hfit : t.RangeFits 0 t.size) :
    ∃ r, g.pathways b = .ok r ∧ ∀ q ∈ r.2, q.inZone.isSome ∧ ∃ p, DerivedFrom q p ∧
      DerivedFrom p t := by
  have hv := (Batch.toTrack_valid hb).1
  obtain ⟨ps, hps⟩ := Pathway.reconstruct_ok (p := g.params.encoder) hv hfit
  have hpd := reconstruct_derivedFrom hv hps
  obtain ⟨outs, houts⟩ := Stage.run_ok (fun p hp =>
    ⟨(hpd p hp).valid, RangeFits.of_derivedFrom (hpd p hp) hfit⟩) g.stages
  refine ⟨(ps.size, outs), by simp [pathways, hb, hps, houts, Bind.bind, Except.bind, pure,
    Except.pure], fun q hq => ?_⟩
  obtain ⟨p, hp, ys, hys, hq'⟩ := Except.flatMapM_eq_ok_mem houts hq
  rw [stages_eq] at hys
  exact ⟨Stage.chain_fence_inZone hys q hq',
    p, Stage.chain_derivedFrom (hpd p hp).valid hys q hq', hpd p hp⟩

/-- The transit edges of every track of a batch whose track has a span that fits are
computed. -/
theorem transitEdges_ok_of_pathways (hfit : t.RangeFits 0 t.size) {r : Nat × List Track}
    (hr : ∀ q ∈ r.2, q.inZone.isSome ∧ ∃ p, DerivedFrom q p ∧ DerivedFrom p t) :
    ∀ q ∈ r.2, ∃ es, q.transitEdges = .ok es := by
  intro q hq
  obtain ⟨hz, p, hqp, hpt⟩ := hr q hq
  exact ((hqp.trans hpt).noOverflow hfit).transitEdges hz

/-- The transit edges of a batch whose track has a span that fits are computed. -/
theorem transits_ok (hb : b.toTrack = .ok t) (hfit : t.RangeFits 0 t.size) :
    ∃ es, g.transits b = .ok es := by
  obtain ⟨r, hr, hq⟩ := pathways_ok (g := g) hb hfit
  obtain ⟨es, hes⟩ := Except.flatMapM_ok (transitEdges_ok_of_pathways hfit hq)
  refine ⟨es, Except.bind_eq_ok.2 ⟨r.2, ?_, hes⟩⟩
  simp [fencedTracks, hr, Functor.map, Except.map]

/-- Processing a batch whose track has a span that fits fails, if at all, without a panic:
only writing an artifact can fail. -/
theorem processBatch_error_not_panic (hb : b.toTrack = .ok t) (hfit : t.RangeFits 0 t.size)
    {f : Folder} {e : Fault} (h : g.processBatch f b = .error e) : e.isPanic = false := by
  obtain ⟨r, hr, hq⟩ := pathways_ok (g := g) hb hfit
  have hedges := transitEdges_ok_of_pathways hfit hq
  simp only [processBatch, hr, Bind.bind, Except.bind] at h
  -- the fold over the tracks failed at one track, after its edges were computed
  obtain ⟨q, hq', ⟨s, f'⟩, hstep⟩ := Except.foldlM_eq_error h
  obtain ⟨es, hes⟩ := hedges q hq'
  simp only [hes] at hstep
  split at hstep
  · rename_i err happ
    cases hstep
    rw [EdgeSink.append_eq_error happ]
    rfl
  · cases hstep

end NetworkGraph

/-! ## Nothing overflows once the span fits -/

namespace Track

/-- **Nothing overflows once a track's span fits 64 bits.** On a valid track whose first and
last times are at most `2 ^ 63 - 1` seconds apart, the per-row computations of every row
range, the chunk bounds, reconstruction, both cuts and, once fenced, the transit edges and
the transit rate are computed (`NoOverflow`), with no time difference that overflows, no row
count less one that underflows and no read or slice outside the track; every chain of stages
succeeds on it, and the same holds of every track a chain of stages or a cut into bounded
pieces makes of it. A batch
whose track has such a span has its transit edges computed, and its processing fails, if at
all, without a panic. Resampling with a positive step succeeds on every valid track, and every
grid time lies between its first and last time. -/
theorem span_fits_never_overflows :
    (∀ t : Track, t.Valid → t.RangeFits 0 t.size →
      NoOverflow t ∧ (∀ stages, ∃ outs, Stage.chain stages t = .ok outs) ∧
      (∀ stages outs, Stage.chain stages t = .ok outs → ∀ q ∈ outs, NoOverflow q) ∧
      (∀ m pieces, t.splitMaxLength m = .ok pieces → ∀ q ∈ pieces, NoOverflow q)) ∧
    (∀ (g : NetworkGraph) (b : Batch) (t : Track), b.toTrack = .ok t → t.RangeFits 0 t.size →
      (∃ es, g.transits b = .ok es) ∧ ∀ f e, g.processBatch f b = .error e → e.isPanic = false) ∧
    ∀ t : Track, t.Valid → ∀ step, 0 < step → ∃ q, t.interpolate step = .ok q ∧
      ∀ v ∈ q.time.toList, t.time.getD 0 0 ≤ v ∧ v ≤ t.time.getD (t.size - 1) 0 := by
  refine ⟨fun t hv hfit => ⟨noOverflow hv hfit, fun stages => Stage.chain_ok hv hfit stages,
    fun _ _ h q hq => ?_, fun _ _ h q hq => ?_⟩, fun g b t hb hfit =>
    ⟨NetworkGraph.transits_ok hb hfit, fun _ _ h => NetworkGraph.processBatch_error_not_panic hb hfit h⟩,
    fun t hv _ hstep => interpolate_ok hv hstep⟩
  · exact (Stage.chain_derivedFrom hv h q hq).noOverflow hfit
  · exact (splitMaxLength_derivedFrom hv h q hq).noOverflow hfit

/-- The two reports of a vessel standing still for a minute. -/
def standstillReports : Batch :=
  ⟨1, [{ mmsi := 1, time := 0, lon := 0.0, lat := 0.0 },
    { mmsi := 1, time := 60, lon := 0.0, lat := 0.0 }]⟩

/-- A vessel standing still for a minute: nothing overflows on its track, and its transit
edges are computed. -/
theorem span_fits_never_overflows_standstill :
    standstillReports.toTrack = .ok Pathway.standstill ∧
      Pathway.standstill.RangeFits 0 Pathway.standstill.size ∧
      NoOverflow Pathway.standstill ∧ ∃ es, (default : NetworkGraph).transits standstillReports = .ok es := by
  have hb : standstillReports.toTrack = .ok Pathway.standstill := by
    simp [standstillReports, Batch.toTrack, Batch.keep, Bind.bind, Except.bind]
    rfl
  have hv : Pathway.standstill.Valid := new_valid (show Track.new 1 {} #[0, 60] #[0.0, 0.0]
    #[0.0, 0.0] #[0.0, 0.0] #[0.0, 0.0] = .ok Pathway.standstill from rfl)
  have hfit : Pathway.standstill.RangeFits 0 Pathway.standstill.size := by
    unfold RangeFits
    decide
  exact ⟨hb, hfit, (span_fits_never_overflows.1 _ hv hfit).1,
    (span_fits_never_overflows.2.1 default _ _ hb hfit).1⟩

end Track

end Seaway
