import Mathlib
import Seaway.Proofs.Graph.Batch

/-!
# Batches processed one after another are processed alone

A run processes its batches one after another in one scratch folder, yet, when the batches
are of distinct vessels, the folder holds no entry named like an artifact, and every track
spans at most `2 ^ 63 - 1` seconds (`NetworkGraph.Ready`), each batch behaves as if it were
alone: what the run reports and leaves is assembled from what each batch gives alone.

* `process_eq`: the report sums the counts of the batches that succeed alone
  (`NetworkGraph.tally`), lists the faults of the others in batch order, and summarizes the
  lengths of all their tracks; the folder gains exactly the batches' artifacts
  (`NetworkGraph.scratchAfter`), listed in name order (`artifacts_scratchAfter`);
* `process_perm`, `run_perm`: every order of the batches gives the same report up to the
  order of its failures, the same artifacts and the same table;
* `process_isolates_batches` puts these together with what each batch leaves.
-/

namespace Seaway

namespace NetworkGraph

variable {g : NetworkGraph} {b : Batch} {t : Track} {e : Fault}

/-! ## Batches processed one after another -/

/-- The counts of the batches that succeed alone, in order. -/
def succeeded (g : NetworkGraph) (bs : List Batch) : List VesselStats :=
  bs.filterMap fun b => (g.vesselStats b).toOption

/-- The report of a run over batches, before its length statistics, assembled from what each
batch gives alone: the counts summed over the batches that succeed, and the faults of the
others in batch order. -/
def tally (g : NetworkGraph) (bs : List Batch) : GraphReport where
  vesselsProcessed := (g.succeeded bs).length
  tracks := ((g.succeeded bs).map fun s => s.trackLengths.length).sum
  edgesWritten := ((g.succeeded bs).map (·.edges)).sum
  singleEdges := ((g.succeeded bs).map (·.singleEdges)).sum
  fragmentedVessels := (g.succeeded bs).countP (·.fragmented)
  failures := bs.filterMap g.failure?

/-- The lengths of the tracks of the batches that succeed alone, in order. -/
def allTrackLengths (g : NetworkGraph) (bs : List Batch) : List Nat :=
  (g.succeeded bs).flatMap (·.trackLengths)

/-- The artifacts the batches leave alone, in batch order. -/
def batchArtifacts (g : NetworkGraph) (bs : List Batch) : List (String × String) :=
  bs.filterMap g.artifact?

variable {bs : List Batch} {s : VesselStats}

theorem tally_append_ok (h : g.vesselStats b = .ok s) :
    g.tally (bs ++ [b]) = { g.tally bs with
      vesselsProcessed := (g.tally bs).vesselsProcessed + 1
      tracks := (g.tally bs).tracks + s.trackLengths.length
      edgesWritten := (g.tally bs).edgesWritten + s.edges
      singleEdges := (g.tally bs).singleEdges + s.singleEdges
      fragmentedVessels := (g.tally bs).fragmentedVessels + if s.fragmented then 1 else 0 } := by
  simp [tally, succeeded, failure?, h, Except.toOption, List.countP_append]

theorem tally_append_error (h : g.vesselStats b = .error e) :
    g.tally (bs ++ [b]) = { g.tally bs with failures := (g.tally bs).failures ++ [(b.mmsi, e)] } := by
  simp [tally, succeeded, failure?, h, Except.toOption]

theorem allTrackLengths_append_ok (h : g.vesselStats b = .ok s) :
    g.allTrackLengths (bs ++ [b]) = g.allTrackLengths bs ++ s.trackLengths := by
  simp [allTrackLengths, succeeded, h, Except.toOption]

theorem allTrackLengths_append_error (h : g.vesselStats b = .error e) :
    g.allTrackLengths (bs ++ [b]) = g.allTrackLengths bs := by
  simp [allTrackLengths, succeeded, h, Except.toOption]

theorem batchArtifacts_append :
    g.batchArtifacts (bs ++ [b]) = g.batchArtifacts bs ++ (g.artifact? b).toList := by
  rw [batchArtifacts, batchArtifacts, List.filterMap_append]
  cases h : g.artifact? b <;> simp [h]

/-- What a run over batches assumes: distinct vessels, a scratch folder with no entry named
like an artifact, and batches whose tracks span at most `2 ^ 63 - 1` seconds. -/
structure Ready (f : Folder) (bs : List Batch) : Prop where
  mmsi_nodup : (bs.map Batch.mmsi).Nodup
  fresh : ∀ e ∈ f.entries, EdgeSink.isArtifactName e.1 = false
  span_fits : ∀ b ∈ bs, ∀ t, b.toTrack = .ok t → t.RangeFits 0 t.size

/-- The folder a run leaves: the scratch folder with the batches' artifacts added. -/
def scratchAfter (g : NetworkGraph) (f : Folder) (bs : List Batch) : Folder :=
  ⟨f.path, f.entries ++ (g.batchArtifacts bs).map fun a => (a.1, .file a.2)⟩

theorem artifact?_name {a : String × String} (h : g.artifact? b = some a) :
    a.1 = EdgeSink.artifactName b.mmsi := by
  simp only [artifact?, Option.map_eq_some_iff] at h
  obtain ⟨es, -, rfl⟩ := h
  rfl

/-- No entry of the folder left by some batches takes the artifact name of another vessel. -/
theorem scratchAfter_name_ne {f : Folder} (hf : ∀ e ∈ f.entries, EdgeSink.isArtifactName e.1 = false)
    (hb : b.mmsi ∉ bs.map Batch.mmsi) :
    ∀ e ∈ (g.scratchAfter f bs).entries, e.1 ≠ EdgeSink.artifactName b.mmsi := by
  intro e he h
  rcases List.mem_append.1 he with he | he
  · have := hf e he
    rw [h, EdgeSink.isArtifactName_artifactName] at this
    cases this
  · obtain ⟨a, ha, rfl⟩ := List.mem_map.1 he
    obtain ⟨b', hb', ha'⟩ := List.mem_filterMap.1 ha
    rw [artifact?_name ha', EdgeSink.artifactName_inj] at h
    exact hb (List.mem_map.2 ⟨b', hb', h⟩)

/-- **Batches processed one after another are processed alone.** The report of a run sums
what each batch gives alone, lists the faults of the failed batches in batch order, and
summarizes all track lengths; the scratch folder gains exactly the batches' artifacts. -/
theorem process_eq {f : Folder} (h : Ready f bs) :
    g.process f bs = (fun st => ({ g.tally bs with trackLengths := st }, g.scratchAfter f bs)) <$>
      LengthStats.ofLengths (g.allTrackLengths bs) := by
  let S : List Batch → GraphReport × List Nat × Folder := fun done =>
    (g.tally done, g.allTrackLengths done, g.scratchAfter f done)
  have h0 : ((({} : GraphReport)), ([] : List Nat), f) = S [] := by
    simp only [S, scratchAfter, batchArtifacts, List.filterMap_nil, List.map_nil,
      List.append_nil]
    rfl
  unfold process
  rw [h0, Except.foldlM_eq_ok_of_prefix S []]
  · simp only [List.nil_append, Bind.bind, Except.bind]
    cases LengthStats.ofLengths (g.allTrackLengths bs) <;> rfl
  · intro done b rest hl
    simp only [List.nil_append]
    -- the batch's vessel is not among those processed before it
    have hnd := h.mmsi_nodup
    rw [hl, List.map_append, List.map_cons] at hnd
    have hb : b.mmsi ∉ done.map Batch.mmsi := fun hm =>
      (List.nodup_append.1 hnd).2.2 _ hm _ List.mem_cons_self rfl
    have hpb : g.processBatch (g.scratchAfter f done) b = _ :=
      processBatch_eq (scratchAfter_name_ne h.fresh hb) (h.span_fits b (by simp [hl]))
    dsimp only [S]
    rw [hpb]
    cases hs : g.vesselStats b with
    | ok s =>
      have hsc : g.scratchAfter f (done ++ [b]) = ⟨f.path, f.entries ++
          (g.batchArtifacts done).map (fun a => (a.1, .file a.2)) ++
          (g.artifact? b).toList.map fun a => (a.1, .file a.2)⟩ := by
        simp [scratchAfter, batchArtifacts_append]
      rw [tally_append_ok hs, allTrackLengths_append_ok hs, hsc]
      rfl
    | error e =>
      -- a track that cannot be built is no panic, and the vessel has no file to remove
      have htrack := (vesselStats_eq_error_iff (h.span_fits b (by simp [hl]))).1 hs
      have hpanic := Batch.toTrack_error_isPanic htrack
      have hdiscard := discardArtifact_eq (scratchAfter_name_ne (g := g) h.fresh hb)
      have hsc : g.scratchAfter f (done ++ [b]) = g.scratchAfter f done := by
        simp [scratchAfter, batchArtifacts_append, artifact?_eq_none htrack]
      rw [tally_append_error hs, allTrackLengths_append_error hs, hsc]
      simp only [Functor.map, Except.map, hpanic, Bool.false_eq_true, if_false, hdiscard]
      rfl

/-! ## What the report says -/

/-- Every batch is counted once: as processed or as a failure. -/
theorem vesselsProcessed_add_failures (g : NetworkGraph) (bs : List Batch) :
    (g.tally bs).vesselsProcessed + (g.tally bs).failures.length = bs.length := by
  induction bs with
  | nil => rfl
  | cons b bs ih =>
    simp only [tally, succeeded, List.filterMap_cons] at ih ⊢
    cases hs : g.vesselStats b with
    | ok s =>
      have hf : g.failure? b = none := by simp [failure?, hs]
      have hso : (Except.ok s : Except Fault VesselStats).toOption = some s := rfl
      simp only [hf, hso, List.length_cons]
      omega
    | error e =>
      have hf : g.failure? b = some (b.mmsi, e) := by simp [failure?, hs]
      have hso : (Except.error e : Except Fault VesselStats).toOption = none := rfl
      simp only [hf, hso, List.length_cons]
      omega

/-- A batch that succeeds alone writes at least one edge. -/
theorem edges_pos (h : g.vesselStats b = .ok s) : 0 < s.edges := by
  obtain ⟨r, -, h⟩ := Except.bind_eq_ok.1 h
  obtain ⟨es, hes, h⟩ := Except.bind_eq_ok.1 h
  cases h
  exact List.length_pos_of_ne_nil (transits_ne_nil hes)

/-- A run writes no edge exactly when no batch succeeds alone. -/
theorem edgesWritten_eq_zero_iff :
    (g.tally bs).edgesWritten = 0 ↔ ∀ b ∈ bs, ∃ e, g.vesselStats b = .error e := by
  simp only [tally, succeeded, List.sum_eq_zero_iff_forall_eq_nat, List.mem_map,
    List.mem_filterMap]
  constructor
  · intro h b hb
    cases hs : g.vesselStats b with
    | ok s => exact absurd (h s.edges ⟨s, ⟨b, hb, by simp [hs, Except.toOption]⟩, rfl⟩) (edges_pos hs).ne'
    | error e => exact ⟨e, rfl⟩
  · rintro h _ ⟨s, ⟨b, hb, hs⟩, rfl⟩
    obtain ⟨e, he⟩ := h b hb
    simp [he, Except.toOption] at hs

variable {f : Folder}

/-- In a run over distinct vessels, a vessel's failures are the faults of its batch alone. -/
theorem mem_failures_iff (h : Ready f bs) (hb : b ∈ bs) :
    (b.mmsi, e) ∈ (g.tally bs).failures ↔ b.toTrack = .error e := by
  rw [← vesselStats_eq_error_iff (g := g) (h.span_fits b hb)]
  simp only [tally, List.mem_filterMap]
  constructor
  · rintro ⟨b', hb', hf⟩
    unfold failure? at hf
    split at hf
    · cases hf
    · rename_i e' he'
      obtain ⟨hm, rfl⟩ := Prod.mk.inj (Option.some.inj hf)
      rwa [← List.inj_on_of_nodup_map h.mmsi_nodup hb' hb hm]
  · intro he
    exact ⟨b, hb, by simp [failure?, he]⟩

theorem mem_batchArtifacts {a : String × String} (ha : a ∈ g.batchArtifacts bs) :
    ∃ b ∈ bs, g.artifact? b = some a ∧ a.1 = EdgeSink.artifactName b.mmsi := by
  obtain ⟨b, hb, ha⟩ := List.mem_filterMap.1 ha
  exact ⟨b, hb, ha, artifact?_name ha⟩

/-- Distinct vessels leave artifacts of distinct names. -/
theorem batchArtifacts_names_nodup (hnd : (bs.map Batch.mmsi).Nodup) :
    ((g.batchArtifacts bs).map (·.1)).Nodup := by
  induction bs with
  | nil => exact List.nodup_nil
  | cons b bs ih =>
    rw [List.map_cons, List.nodup_cons] at hnd
    have hcons : g.batchArtifacts (b :: bs) = (g.artifact? b).toList ++ g.batchArtifacts bs := by
      simp only [batchArtifacts, List.filterMap_cons]
      cases g.artifact? b <;> rfl
    rw [hcons, List.map_append, List.nodup_append]
    refine ⟨by cases g.artifact? b <;> simp, ih hnd.2, ?_⟩
    intro x hx y hy hxy
    obtain ⟨a, ha, rfl⟩ := List.mem_map.1 hx
    obtain ⟨a', ha', rfl⟩ := List.mem_map.1 hy
    obtain ⟨b', hb', -, hname'⟩ := mem_batchArtifacts ha'
    rw [artifact?_name (Option.mem_toList.1 ha), hname', EdgeSink.artifactName_inj] at hxy
    exact hnd.1 (List.mem_map.2 ⟨b', hb', hxy.symm⟩)

/-- The artifacts of the folder a run leaves are the batches' artifacts in name order. -/
theorem artifacts_scratchAfter (h : Ready f bs) :
    EdgeSink.artifacts (g.scratchAfter f bs) =
      (g.batchArtifacts bs).mergeSort fun a b => decide (a.1 ≤ b.1) := by
  refine EdgeSink.artifacts_mk_append h.fresh (fun a ha => ?_)
    (batchArtifacts_names_nodup h.mmsi_nodup)
  obtain ⟨b, -, -, hname⟩ := mem_batchArtifacts ha
  rw [hname]
  exact EdgeSink.isArtifactName_artifactName _

/-- Of the artifacts of distinct vessels, one batch's name picks out its own. -/
theorem batchArtifacts_filter (hnd : (bs.map Batch.mmsi).Nodup) (hb : b ∈ bs) :
    (g.batchArtifacts bs).filter (fun a => a.1 = EdgeSink.artifactName b.mmsi) =
      (g.artifact? b).toList := by
  -- an artifact is named by its own vessel, and no other batch has that vessel
  have hother : ∀ b' ∈ bs, b' ≠ b → ∀ a, g.artifact? b' = some a →
      ¬a.1 = EdgeSink.artifactName b.mmsi := by
    intro b' hb' hne a ha hname
    rw [artifact?_name ha, EdgeSink.artifactName_inj] at hname
    exact hne (List.inj_on_of_nodup_map hnd hb' hb hname)
  obtain ⟨pre, post, rfl⟩ := List.append_of_mem hb
  have hnd' := hnd
  rw [List.map_append, List.map_cons, List.nodup_append, List.nodup_cons] at hnd'
  have hnone : ∀ b' ∈ pre ++ post, (g.artifact? b').filter
      (fun a => decide (a.1 = EdgeSink.artifactName b.mmsi)) = none := by
    intro b' hb'
    have hne : b' ≠ b := by
      rintro rfl
      rcases List.mem_append.1 hb' with hb' | hb'
      · exact hnd'.2.2 _ (List.mem_map_of_mem hb') _ List.mem_cons_self rfl
      · exact hnd'.2.1.1 (List.mem_map_of_mem hb')
    cases ha : g.artifact? b' with
    | none => rfl
    | some a =>
      have := hother b' (by rcases List.mem_append.1 hb' with h | h <;> simp [h]) hne a ha
      simp [this]
  have hself : (g.artifact? b).filter (fun a => decide (a.1 = EdgeSink.artifactName b.mmsi)) =
      g.artifact? b := by
    cases ha : g.artifact? b with
    | none => rfl
    | some a => simp [artifact?_name ha]
  rw [batchArtifacts, List.filter_filterMap, List.filterMap_append, List.filterMap_cons, hself,
    List.filterMap_eq_nil_iff.2 fun b' hb' => hnone b' (List.mem_append_left _ hb'),
    List.filterMap_eq_nil_iff.2 fun b' hb' => hnone b' (List.mem_append_right _ hb')]
  cases g.artifact? b <;> rfl

/-- Each batch of a run leaves its own artifact and no other: the one it leaves alone. -/
theorem artifacts_scratchAfter_filter (h : Ready f bs) (hb : b ∈ bs) :
    (EdgeSink.artifacts (g.scratchAfter f bs)).filter
        (fun a => a.1 = EdgeSink.artifactName b.mmsi) = (g.artifact? b).toList := by
  rw [artifacts_scratchAfter h]
  have hp := ((List.mergeSort_perm (g.batchArtifacts bs) fun a b => decide (a.1 ≤ b.1)).filter
    (fun a => decide (a.1 = EdgeSink.artifactName b.mmsi)))
  rw [batchArtifacts_filter h.mmsi_nodup hb] at hp
  cases ha : g.artifact? b with
  | none =>
    rw [ha] at hp
    exact List.perm_nil.1 hp
  | some a =>
    rw [ha] at hp
    exact List.perm_singleton.1 hp

/-! ## The order of the batches does not matter -/

variable {bs' : List Batch}

theorem Ready.perm (h : Ready f bs) (hp : bs'.Perm bs) : Ready f bs' where
  mmsi_nodup := (hp.map Batch.mmsi).nodup_iff.2 h.mmsi_nodup
  fresh := h.fresh
  span_fits b hb := h.span_fits b (hp.subset hb)

theorem succeeded_perm (hp : bs'.Perm bs) : (g.succeeded bs').Perm (g.succeeded bs) :=
  hp.filterMap _

/-- Reordering the batches reorders the failures and changes nothing else of the report. -/
theorem tally_perm (hp : bs'.Perm bs) :
    g.tally bs' = { g.tally bs with failures := (g.tally bs').failures } := by
  have hs := succeeded_perm (g := g) hp
  simp only [tally, hs.length_eq, (hs.map _).sum_nat, hs.countP_eq]

theorem failures_perm (hp : bs'.Perm bs) : (g.tally bs').failures.Perm (g.tally bs).failures :=
  hp.filterMap _

theorem allTrackLengths_perm (hp : bs'.Perm bs) :
    (g.allTrackLengths bs').Perm (g.allTrackLengths bs) :=
  (succeeded_perm hp).flatMap_right _

theorem batchArtifacts_perm (hp : bs'.Perm bs) :
    (g.batchArtifacts bs').Perm (g.batchArtifacts bs) :=
  hp.filterMap _

end NetworkGraph

namespace LengthStats

/-- The statistics of track lengths do not depend on their order. -/
theorem ofLengths_perm {l l' : List Nat} (hp : l'.Perm l) : ofLengths l' = ofLengths l := by
  have hsort : (l'.mergeSort fun a b => decide (a ≤ b)) = l.mergeSort fun a b => decide (a ≤ b) :=
    StableSort.mergeSort_eq_of_perm (fun a b c hab hbc => by simp at *; omega)
      (fun a b => by simp; omega) (fun a _ b _ hab hba => by simp at *; omega) hp
  have hsum : l'.foldl (· + ·) 0 = l.foldl (· + ·) 0 := by
    rw [← List.sum_eq_foldl_nat, ← List.sum_eq_foldl_nat, hp.sum_nat]
  simp only [ofLengths, hsort, hsum]

end LengthStats

namespace GraphReport

/-- The order of failures: by vessel, then by message. -/
theorem failureLE_trans (a b c : Nat × Fault)
    (hab : (a.1 < b.1 || (a.1 == b.1 && decide (a.2.message ≤ b.2.message))) = true)
    (hbc : (b.1 < c.1 || (b.1 == c.1 && decide (b.2.message ≤ c.2.message))) = true) :
    (a.1 < c.1 || (a.1 == c.1 && decide (a.2.message ≤ c.2.message))) = true := by
  simp only [Bool.or_eq_true, Bool.and_eq_true, decide_eq_true_eq, beq_iff_eq] at *
  rcases hab with hab | ⟨hab, hab'⟩ <;> rcases hbc with hbc | ⟨hbc, hbc'⟩
  · exact .inl (by omega)
  · exact .inl (by omega)
  · exact .inl (by omega)
  · exact .inr ⟨hab.trans hbc, le_trans hab' hbc'⟩

theorem failureLE_total (a b : Nat × Fault) :
    ((a.1 < b.1 || (a.1 == b.1 && decide (a.2.message ≤ b.2.message))) ||
      (b.1 < a.1 || (b.1 == a.1 && decide (b.2.message ≤ a.2.message)))) = true := by
  simp only [Bool.or_eq_true, Bool.and_eq_true, decide_eq_true_eq, beq_iff_eq]
  rcases Nat.lt_trichotomy a.1 b.1 with h | h | h
  · exact .inl (.inl h)
  · rcases le_total a.2.message b.2.message with h' | h'
    · exact .inl (.inr ⟨h, h'⟩)
    · exact .inr (.inr ⟨h.symm, h'⟩)
  · exact .inr (.inl h)

/-- Sorting failures of distinct vessels gives one list for every order of them. -/
theorem sortFailures_eq_of_perm {r r' : GraphReport} (hnd : (r.failures.map (·.1)).Nodup)
    (hp : r'.failures.Perm r.failures) (hrest : r' = { r with failures := r'.failures }) :
    r'.sortFailures = r.sortFailures := by
  rw [hrest]
  simp only [sortFailures]
  rw [StableSort.mergeSort_eq_of_perm failureLE_trans failureLE_total (fun a ha b hb hab hba => ?_) hp]
  -- two failures ranked alike are of one vessel, hence one failure
  refine List.inj_on_of_nodup_map hnd ha hb ?_
  simp only [Bool.or_eq_true, Bool.and_eq_true, decide_eq_true_eq, beq_iff_eq] at hab hba
  omega

/-- Sorting the failures and setting the aggregation summary are independent. -/
theorem sortFailures_setAggregate (r : GraphReport) (s : Option AggregateSummary) :
    ({ r with aggregate := s } : GraphReport).sortFailures = { r.sortFailures with aggregate := s } :=
  rfl

end GraphReport

namespace NetworkGraph

variable {g : NetworkGraph} {b : Batch} {bs bs' : List Batch} {f : Folder}

theorem failures_mmsi_sublist (g : NetworkGraph) (bs : List Batch) :
    ((g.tally bs).failures.map (·.1)).Sublist (bs.map Batch.mmsi) := by
  induction bs with
  | nil => exact List.Sublist.slnil
  | cons b bs ih =>
    simp only [tally, List.filterMap_cons] at ih ⊢
    cases hf : g.failure? b with
    | none => exact ih.cons _
    | some x =>
      have hx : x.1 = b.mmsi := by
        unfold failure? at hf
        split at hf <;> cases hf
        rfl
      simpa [hx] using ih.cons_cons b.mmsi

theorem tally_sortFailures_perm (h : Ready f bs) (hp : bs'.Perm bs) (st : Option LengthStats) :
    ({ g.tally bs' with trackLengths := st } : GraphReport).sortFailures =
      ({ g.tally bs with trackLengths := st } : GraphReport).sortFailures :=
  GraphReport.sortFailures_eq_of_perm ((failures_mmsi_sublist g bs).nodup h.mmsi_nodup)
    (failures_perm hp) (by rw [tally_perm hp])

theorem artifacts_scratchAfter_perm (h : Ready f bs) (hp : bs'.Perm bs) :
    EdgeSink.artifacts (g.scratchAfter f bs') = EdgeSink.artifacts (g.scratchAfter f bs) := by
  rw [artifacts_scratchAfter (h.perm hp), artifacts_scratchAfter h]
  exact EdgeSink.mergeSort_byName_of_perm (batchArtifacts_names_nodup h.mmsi_nodup)
    (batchArtifacts_perm hp)

/-- **The order of the batches does not matter.** Every order of the same batches gives
the same report, its failures sorted, and the same artifacts. -/
theorem process_perm (h : Ready f bs) (hp : bs'.Perm bs) :
    (fun x => (x.1.sortFailures, EdgeSink.artifacts x.2)) <$> g.process f bs' =
      (fun x => (x.1.sortFailures, EdgeSink.artifacts x.2)) <$> g.process f bs := by
  rw [process_eq (h.perm hp), process_eq h, LengthStats.ofLengths_perm (allTrackLengths_perm hp)]
  cases LengthStats.ofLengths (g.allTrackLengths bs) with
  | error e => rfl
  | ok st =>
    simp only [Functor.map, Except.map, tally_sortFailures_perm h hp, artifacts_scratchAfter_perm h hp]

/-! ## The table of a run -/

/-- A run in which no batch writes an edge gives the table of the header alone. -/
theorem run_eq_header {filters : List EdgeFilter} {x : GraphReport × Folder}
    (h : g.process f bs = .ok x) (h0 : x.1.edgesWritten = 0) :
    g.run f bs filters = .ok (x.1, TransitEdge.header, x.2) := by
  simp [run, h, h0, Bind.bind, Except.bind, pure, Except.pure]

/-- A run in which some batch writes an edge tables exactly the batches' artifacts, in name
order: its table is the one aggregated from a folder holding nothing else. -/
theorem run_table (h : Ready f bs) {filters : List EdgeFilter} {x : GraphReport × Folder}
    (hx : g.process f bs = .ok x) (hw : x.1.edgesWritten ≠ 0) :
    (fun y => y.2.1) <$> g.run f bs filters =
      (fun y => y.1) <$> EdgeSink.aggregate (g.scratchAfter ⟨f.path, []⟩ bs) filters
        (!g.params.keepIntermediates) := by
  obtain ⟨st, -, rfl⟩ := Except.map_eq_ok.1 ((process_eq h).symm.trans hx)
  have hart : EdgeSink.artifacts (g.scratchAfter f bs) =
      EdgeSink.artifacts (g.scratchAfter ⟨f.path, []⟩ bs) := by
    rw [artifacts_scratchAfter h, artifacts_scratchAfter ⟨h.mmsi_nodup, by simp, h.span_fits⟩]
  have hagg := congrArg (Functor.map Prod.fst) (EdgeSink.aggregate_congr
    (show (g.scratchAfter f bs).path = (g.scratchAfter ⟨f.path, []⟩ bs).path from rfl) hart
    filters (!g.params.keepIntermediates))
  simp only [Functor.map_map] at hagg
  simp only [run, hx, Bind.bind, Except.bind]
  rw [if_neg hw, ← hagg]
  cases EdgeSink.aggregate (g.scratchAfter f bs) filters (!g.params.keepIntermediates) <;> rfl

/-- A run reads of what processing gives only the report, its failures sorted, the folder's
path and its artifacts: two processings that agree on these give runs that agree. -/
theorem run_congr {x x' : GraphReport × Folder}
    (hx : g.process f bs = .ok x) (hx' : g.process f bs' = .ok x')
    (hr : x'.1.sortFailures = x.1.sortFailures) (hpath : x'.2.path = x.2.path)
    (ha : EdgeSink.artifacts x'.2 = EdgeSink.artifacts x.2) (filters : List EdgeFilter) :
    (fun y => (y.1.sortFailures, y.2.1)) <$> g.run f bs' filters =
      (fun y => (y.1.sortFailures, y.2.1)) <$> g.run f bs filters := by
  have hedges : x'.1.edgesWritten = x.1.edgesWritten := by
    change x'.1.sortFailures.edgesWritten = x.1.sortFailures.edgesWritten
    rw [hr]
  simp only [run, hx, hx', Except.ok_bind]
  by_cases h0 : x.1.edgesWritten = 0
  · rw [if_pos (hedges ▸ h0), if_pos h0]
    simp only [map_pure, hr]
  · rw [if_neg (hedges ▸ h0), if_neg h0, map_bind, map_bind]
    -- the aggregation reads only the folder's path and artifacts
    refine Except.bind_congr_of_map_eq (fun a => (a.1, a.2.1))
      (EdgeSink.aggregate_congr hpath ha _ _) fun a c hac => ?_
    obtain ⟨h1, h2⟩ := Prod.mk.inj hac
    simp only [map_pure, GraphReport.sortFailures_setAggregate, hr, h1, h2]

/-- **The table does not depend on the order of the batches.** Every order of the same
batches gives the same table and the same report, its failures sorted. -/
theorem run_perm (h : Ready f bs) (hp : bs'.Perm bs) (filters : List EdgeFilter) :
    (fun y => (y.1.sortFailures, y.2.1)) <$> g.run f bs' filters =
      (fun y => (y.1.sortFailures, y.2.1)) <$> g.run f bs filters := by
  have hL := LengthStats.ofLengths_perm (allTrackLengths_perm (g := g) hp)
  cases hst : LengthStats.ofLengths (g.allTrackLengths bs) with
  | error e =>
    -- both orders fail, with one fault
    have hx : g.process f bs = .error e := by rw [process_eq h, hst]; rfl
    have hx' : g.process f bs' = .error e := by rw [process_eq (h.perm hp), hL, hst]; rfl
    simp only [run, hx, hx']
  | ok st =>
    have hx : g.process f bs = .ok ({ g.tally bs with trackLengths := st }, g.scratchAfter f bs) := by
      rw [process_eq h, hst]
      rfl
    have hx' : g.process f bs' =
        .ok ({ g.tally bs' with trackLengths := st }, g.scratchAfter f bs') := by
      rw [process_eq (h.perm hp), hL, hst]
      rfl
    exact run_congr hx hx' (tally_sortFailures_perm h hp st) rfl (artifacts_scratchAfter_perm h hp)
      filters

/-- The worker count of a run is never read. -/
theorem run_workers (g : NetworkGraph) (f : Folder) (bs : List Batch) (filters : List EdgeFilter)
    (w : Nat) :
    ({ g with params := { g.params with workers := w } } : NetworkGraph).run f bs filters =
      g.run f bs filters := rfl

/-- **Batches of distinct vessels are processed as if each were alone.** On a scratch folder
with no entry named like an artifact, over batches whose tracks span at most `2 ^ 63 - 1`
seconds:

* the report sums the counts of the batches that succeed alone, lists the faults of the
  others in batch order, and summarizes the lengths of all their tracks; the scratch folder
  gains exactly the batches' artifacts;
* a batch fails exactly when its track cannot be built, with that fault, and then leaves no
  artifact; any other batch gives at least one transit edge and leaves exactly one artifact,
  named by its MMSI and holding the records of its transit edges in order; the artifacts are
  listed in name order;
* every batch is counted once, as processed or as failed, and no edge is written exactly when
  every batch fails, in which case the table of the run is the header alone; otherwise the
  table is the one aggregated from a folder holding the batches' artifacts and nothing else;
* every order of the batches gives the same report up to the order of the failures, the same
  artifacts and the same table, and the worker count changes nothing. -/
theorem process_isolates_batches (g : NetworkGraph) (f : Folder) (bs : List Batch)
    (filters : List EdgeFilter) (h : Ready f bs) :
    g.process f bs = (fun st => ({ g.tally bs with trackLengths := st }, g.scratchAfter f bs)) <$>
        LengthStats.ofLengths (g.allTrackLengths bs) ∧
    (∀ x, g.process f bs = .ok x →
      (∀ b ∈ bs, (∀ e, (b.mmsi, e) ∈ x.1.failures ↔ b.toTrack = .error e) ∧
        ((∃ e, b.toTrack = .error e) →
          (EdgeSink.artifacts x.2).filter (·.1 = EdgeSink.artifactName b.mmsi) = []) ∧
        (∀ t, b.toTrack = .ok t → ∃ es, g.transits b = .ok es ∧ es ≠ [] ∧
          (EdgeSink.artifacts x.2).filter (·.1 = EdgeSink.artifactName b.mmsi) =
            [(EdgeSink.artifactName b.mmsi, EdgeSink.records es)])) ∧
      EdgeSink.artifacts x.2 = (g.batchArtifacts bs).mergeSort (fun a b => decide (a.1 ≤ b.1)) ∧
      x.1.vesselsProcessed + x.1.failures.length = bs.length ∧
      (x.1.edgesWritten = 0 ↔ ∀ b ∈ bs, ∃ e, b.toTrack = .error e) ∧
      (x.1.edgesWritten = 0 → g.run f bs filters = .ok (x.1, TransitEdge.header, x.2)) ∧
      (x.1.edgesWritten ≠ 0 → (fun y => y.2.1) <$> g.run f bs filters =
        (fun y => y.1) <$> EdgeSink.aggregate (g.scratchAfter ⟨f.path, []⟩ bs) filters
          (!g.params.keepIntermediates))) ∧
    (∀ bs', bs'.Perm bs →
      (fun x => (x.1.sortFailures, EdgeSink.artifacts x.2)) <$> g.process f bs' =
        (fun x => (x.1.sortFailures, EdgeSink.artifacts x.2)) <$> g.process f bs ∧
      (fun y => (y.1.sortFailures, y.2.1)) <$> g.run f bs' filters =
        (fun y => (y.1.sortFailures, y.2.1)) <$> g.run f bs filters) ∧
    ∀ w, ({ g with params := { g.params with workers := w } } : NetworkGraph).run f bs filters =
      g.run f bs filters := by
  refine ⟨process_eq h, fun x hx => ?_, fun bs' hp => ⟨process_perm h hp, run_perm h hp filters⟩,
    run_workers g f bs filters⟩
  -- the outcome is the one assembled from the batches alone
  obtain ⟨st, -, rfl⟩ := Except.map_eq_ok.1 ((process_eq h).symm.trans hx)
  refine ⟨fun b hb => ⟨fun e => mem_failures_iff h hb, fun hfail => ?_, fun t ht => ?_⟩,
    artifacts_scratchAfter h, vesselsProcessed_add_failures g bs, ?_, run_eq_header hx,
    run_table h hx⟩
  · obtain ⟨e, he⟩ := hfail
    rw [artifacts_scratchAfter_filter h hb, artifact?_eq_none he]
    rfl
  · obtain ⟨es, hes⟩ := transits_ok (g := g) ht (h.span_fits b hb t ht)
    refine ⟨es, hes, transits_ne_nil hes, ?_⟩
    rw [artifacts_scratchAfter_filter h hb]
    simp [artifact?, hes, Except.toOption]
  · rw [show ({ g.tally bs with trackLengths := st } : GraphReport).edgesWritten =
      (g.tally bs).edgesWritten from rfl, edgesWritten_eq_zero_iff]
    exact forall₂_congr fun b hb => exists_congr fun e => vesselStats_eq_error_iff (h.span_fits b hb)

/-- A vessel moored for a minute: two reports from one place. -/
def mooredBatch : Batch :=
  ⟨1, [{ mmsi := 1, time := 0, lon := 0.0, lat := 0.0 },
    { mmsi := 1, time := 60, lon := 0.0, lat := 0.0 }]⟩

/-- A vessel that sent no report. -/
def silentBatch : Batch := ⟨2, []⟩

/-- A moored vessel and a silent one, in either order, give the same report and artifacts. -/
theorem process_isolates_batches_moored :
    Ready ⟨"scratch", []⟩ [mooredBatch, silentBatch] ∧
      (fun x => (x.1.sortFailures, EdgeSink.artifacts x.2)) <$>
          (default : NetworkGraph).process ⟨"scratch", []⟩ [silentBatch, mooredBatch] =
        (fun x => (x.1.sortFailures, EdgeSink.artifacts x.2)) <$>
          (default : NetworkGraph).process ⟨"scratch", []⟩ [mooredBatch, silentBatch] := by
  have hready : Ready ⟨"scratch", []⟩ [mooredBatch, silentBatch] := by
    refine ⟨by decide, by simp, fun b hb t ht => ?_⟩
    simp only [List.mem_cons, List.not_mem_nil, or_false] at hb
    rcases hb with rfl | rfl
    · have hT : mooredBatch.toTrack = .ok {
          mmsi := 1
          time := #[0, 60]
          lon := #[0.0, 0.0]
          lat := #[0.0, 0.0]
          cog := #[0.0, 0.0]
          sog := #[0.0, 0.0] } := by
        simp [mooredBatch, Batch.toTrack, Batch.keep, Bind.bind, Except.bind]
        rfl
      rw [hT] at ht
      cases ht
      unfold Track.RangeFits
      decide
    · have hT : silentBatch.toTrack = .error (.emptyTrack 2) := by
        simp [silentBatch, Batch.toTrack, Batch.keep, Track.new, Bind.bind, Except.bind, throw,
          throwThe, MonadExceptOf.throw]
      rw [hT] at ht
      cases ht
  exact ⟨hready, ((process_isolates_batches default _ _ [] hready).2.2.1 _
    (List.Perm.swap _ _ [])).1⟩

end NetworkGraph

end Seaway
