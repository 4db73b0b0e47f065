import Mathlib
import Seaway.Proofs.Transit.Artifacts
import Seaway.Proofs.Track.Span

/-!
# A batch processed alone

What one vessel's batch gives is read off its pathways and its transit edges, not off the
scratch folder: its counts (`NetworkGraph.vesselStats`), its artifact
(`NetworkGraph.artifact?`) and its fault (`NetworkGraph.failure?`).

* A batch whose track is built has at least one fenced track, and every fenced track at
  least one transit edge, so such a batch always leaves an artifact (`transits_ne_nil`).
* A batch whose track cannot be built fails with that fault, which is never a panic
  (`Batch.toTrack_error_isPanic`); once its span fits, that is the only way a batch fails
  (`vesselStats_eq_error_iff`).
* `processBatch_eq`: processing a batch on a folder with no entry of its artifact's name
  gives its counts alone and adds its artifact at the end of the folder.
-/

namespace Seaway

namespace Track

variable {t : Track}

/-- Cutting a track gives at least one piece. -/
theorem splitWith_ne_nil {r : SegmentationRule} {pieces : List Track}
    (h : t.splitWith r = .ok pieces) : pieces ≠ [] := by
  obtain ⟨cuts, -, h⟩ := Except.bind_eq_ok.1 h
  split at h
  · cases h
    exact List.cons_ne_nil _ _
  · -- one piece for each of the pairs of consecutive bounds, of which there is one at least
    have hlen := (Except.mapM_eq_ok_iff.1 h).length_eq
    rintro rfl
    simp at hlen

/-- A fenced track has at least one transit edge. -/
theorem transitEdges_ne_nil {es : List TransitEdge} (h : t.transitEdges = .ok es) : es ≠ [] := by
  cases hz : t.inZone with
  | none =>
    unfold transitEdges at h
    rw [hz] at h
    cases h
  | some z =>
    by_cases hn : 0 < z.size
    · rw [transitEdges_eq hz hn] at h
      have hlen := (Except.mapM_range_eq_ok_iff.1 h).1
      have hpos : 0 < Transit.edgeCount z := lt_max_of_lt_left Nat.one_pos
      exact List.ne_nil_of_length_pos (hlen ▸ hpos)
    · -- without zones there is no first zone to read
      have h0 : z.size = 0 := by omega
      have hcs : Transit.changes z = [] := by simp [Transit.changes, h0]
      simp [transitEdges, hz, hcs, entry, h0, Bind.bind, Except.bind] at h

/-- Building a track fails only on its shape: no row, a column of another length, or times
out of order. -/
theorem new_error_isPanic {mmsi : Nat} {info : VesselInfo} {time : Array Int}
    {lon lat cog sog : Array Float} {e : Fault}
    (h : Track.new mmsi info time lon lat cog sog = .error e) : e.isPanic = false := by
  unfold Track.new at h
  simp only [Bind.bind, Except.bind, pure, Except.pure, throw, throwThe, MonadExceptOf.throw,
    ForIn.forIn, List.forIn'_cons, List.forIn'_nil] at h
  -- each check in turn either throws its own fault or hands on to the next
  by_cases h0 : time.size = 0
  · simp only [h0, if_true] at h
    cases h
    rfl
  by_cases h1 : lon.size = time.size
  swap
  · simp only [h0, h1, if_false, ne_eq, not_false_eq_true, if_true] at h
    cases h
    rfl
  by_cases h2 : lat.size = time.size
  swap
  · simp only [h0, h1, h2, if_false, ne_eq, not_true_eq_false, not_false_eq_true, if_true] at h
    cases h
    rfl
  by_cases h3 : cog.size = time.size
  swap
  · simp only [h0, h1, h2, h3, if_false, ne_eq, not_true_eq_false, not_false_eq_true, if_true] at h
    cases h
    rfl
  by_cases h4 : sog.size = time.size
  swap
  · simp only [h0, h1, h2, h3, h4, if_false, ne_eq, not_true_eq_false, not_false_eq_true,
      if_true] at h
    cases h
    rfl
  simp only [h0, h1, h2, h3, h4, if_false, ne_eq, not_true_eq_false] at h
  split at h
  · cases h
    rfl
  · cases h

end Track

namespace Batch

variable {e : Fault}

/-- Dropping repeated times fails only on a report of another vessel. -/
theorem keep_error_isPanic {m : Nat} :
    ∀ {rs : List Report} {kept : Array Report} {info : Option VesselInfo},
      keep m rs kept info = .error e → e.isPanic = false
  | [], _, _, h => by cases h
  | r :: rs, kept, info, h => by
    unfold keep at h
    split at h
    · cases h
      rfl
    · split at h
      · exact keep_error_isPanic h
      · exact keep_error_isPanic h

/-- A batch whose track cannot be built fails without a panic. -/
theorem toTrack_error_isPanic {b : Batch} (h : b.toTrack = .error e) : e.isPanic = false := by
  unfold toTrack at h
  cases hk : keep b.mmsi b.reports #[] none with
  | error e' =>
    rw [hk] at h
    cases h
    exact keep_error_isPanic hk
  | ok ki =>
    rw [hk] at h
    simp only [Bind.bind, Except.bind] at h
    exact Track.new_error_isPanic h

end Batch

namespace Stage

variable {t : Track} {outs : List Track}

/-- A chain of stages none of which drops its track gives at least one track. -/
theorem chain_ne_nil {stages : List Stage}
    (hs : ∀ s ∈ stages, ∀ t outs, s.apply t = .ok outs → outs ≠ [])
    (h : chain stages t = .ok outs) : outs ≠ [] := by
  induction stages generalizing t outs with
  | nil =>
    cases h
    exact List.cons_ne_nil _ _
  | cons s rest ih =>
    obtain ⟨mid, hmid, h⟩ := Except.bind_eq_ok.1 h
    exact Except.flatMapM_ne_nil (hs s (by simp) t mid hmid)
      (fun x _ ys hys => ih (fun s' hs' => hs s' (by simp [hs'])) hys) h

end Stage

namespace NetworkGraph

variable {g : NetworkGraph} {b : Batch} {t : Track} {e : Fault}


/-- The counts a batch gives when processed alone, read off its pathways and its transit
edges: its edges, those over a single position, whether its reconstruction fragmented, and
the lengths of its fenced tracks. -/
def vesselStats (g : NetworkGraph) (b : Batch) : Except Fault VesselStats := do
  let r ← g.pathways b
  let es ← g.transits b
  pure {
    edges := es.length
    singleEdges := (es.filter (·.isSingle)).length
    fragmented := Pathway.isFragmented r.1
    trackLengths := r.2.map Track.size }

/-- The artifact a batch leaves when processed alone: its name and the records of its
transit edges. -/
def artifact? (g : NetworkGraph) (b : Batch) : Option (String × String) :=
  (g.transits b).toOption.map fun es => (EdgeSink.artifactName b.mmsi, EdgeSink.records es)

/-- The fault of a batch processed alone, with its vessel. -/
def failure? (g : NetworkGraph) (b : Batch) : Option (Nat × Fault) :=
  match g.vesselStats b with
  | .ok _ => none
  | .error e => some (b.mmsi, e)

theorem pathways_eq_error (h : b.toTrack = .error e) : g.pathways b = .error e := by
  simp [pathways, h, Bind.bind, Except.bind]

theorem transits_eq_error (h : b.toTrack = .error e) : g.transits b = .error e := by
  simp [transits, fencedTracks, pathways_eq_error h, Bind.bind, Except.bind, Functor.map,
    Except.map]

theorem vesselStats_eq_error (h : b.toTrack = .error e) : g.vesselStats b = .error e := by
  simp [vesselStats, pathways_eq_error h, Bind.bind, Except.bind]

/-- None of the stages after reconstruction drops a track. -/
theorem stages_apply_ne_nil : ∀ s ∈ g.stages, ∀ t outs, s.apply t = .ok outs → outs ≠ [] := by
  intro s hs t outs h
  simp only [stages, List.mem_cons, List.not_mem_nil, or_false] at hs
  rcases hs with rfl | rfl | rfl
  · exact Track.splitWith_ne_nil h
  · simp only [Stage.apply] at h
    split at h
    · split at h <;> (cases h; exact List.cons_ne_nil _ _)
    · cases h
      exact List.cons_ne_nil _ _
  · cases h
    exact List.cons_ne_nil _ _

/-- A batch whose track is built has at least one fenced track. -/
theorem pathways_ne_nil (hb : b.toTrack = .ok t) {r : Nat × List Track}
    (h : g.pathways b = .ok r) : r.2 ≠ [] := by
  have hv := (Batch.toTrack_valid hb).1
  simp only [pathways, hb, Bind.bind, Except.bind] at h
  obtain ⟨ps, hps, h⟩ := Except.bind_eq_ok.1 h
  obtain ⟨outs, houts, h⟩ := Except.bind_eq_ok.1 h
  cases h
  obtain ⟨bs, rows, -, hinv, hrows⟩ := Pathway.reconstruct_eq_ok hv hps
  have hne : ps.toList ≠ [] := by
    rw [hrows]
    simpa using hinv.ne_nil
  exact Except.flatMapM_ne_nil hne
    (fun _ _ ys hys => Stage.chain_ne_nil stages_apply_ne_nil hys) houts

/-- A batch that gives transit edges gives at least one. -/
theorem transits_ne_nil {es : List TransitEdge} (h : g.transits b = .ok es) : es ≠ [] := by
  cases hb : b.toTrack with
  | error e =>
    rw [transits_eq_error hb] at h
    cases h
  | ok t =>
    obtain ⟨ts, hts, h⟩ := Except.bind_eq_ok.1 h
    obtain ⟨r, hr, rfl⟩ := Except.map_eq_ok.1 hts
    exact Except.flatMapM_ne_nil (pathways_ne_nil hb hr)
      (fun _ _ ys hys => Track.transitEdges_ne_nil hys) h

/-- The vessel of every fenced track of a batch is the batch's. -/
theorem mmsi_of_pathways (hb : b.toTrack = .ok t) {r : Nat × List Track}
    (hr : ∀ q ∈ r.2, q.inZone.isSome ∧ ∃ p, Track.DerivedFrom q p ∧ Track.DerivedFrom p t) :
    ∀ q ∈ r.2, q.mmsi = b.mmsi := by
  intro q hq
  obtain ⟨-, p, hqp, hpt⟩ := hr q hq
  rw [hqp.mmsi_eq, hpt.mmsi_eq, (Batch.toTrack_valid hb).2]

/-- The transit edges of a batch are those of its fenced tracks, track after track. -/
theorem transits_eq_flatMap {r : Nat × List Track} {E : Track → List TransitEdge}
    (hr : g.pathways b = .ok r) (hE : ∀ q ∈ r.2, q.transitEdges = .ok (E q)) :
    g.transits b = .ok (r.2.flatMap E) := by
  simp only [transits, fencedTracks, hr, Functor.map, Except.map, Bind.bind, Except.bind]
  exact Except.flatMapM_eq_ok_flatMap hE

/-- Processing a batch whose fenced tracks and their edges are known, on a folder with no
entry of its artifact's name: the counts add up over the tracks and one artifact grows by each
track's edges. -/
theorem processBatch_eq_ok {p : String} {base : List (String × Entry)}
    (hbase : ∀ e ∈ base, e.1 ≠ EdgeSink.artifactName b.mmsi) {count : Nat} {tracks : List Track}
    {E : Track → List TransitEdge} (hr : g.pathways b = .ok (count, tracks))
    (hE : ∀ q ∈ tracks, q.transitEdges = .ok (E q)) (hmmsi : ∀ q ∈ tracks, q.mmsi = b.mmsi) :
    g.processBatch ⟨p, base⟩ b = .ok ({
        edges := (tracks.flatMap E).length
        singleEdges := ((tracks.flatMap E).filter (·.isSingle)).length
        fragmented := Pathway.isFragmented count
        trackLengths := tracks.map Track.size },
      ⟨p, base ++ EdgeSink.artifactEntries b.mmsi (tracks.flatMap E)⟩) := by
  -- the state of the fold once the tracks `done` are processed
  let S : List Track → VesselStats × Folder := fun done =>
    ({ edges := (done.flatMap E).length
       singleEdges := ((done.flatMap E).filter (·.isSingle)).length
       fragmented := Pathway.isFragmented count
       trackLengths := done.map Track.size },
      ⟨p, base ++ EdgeSink.artifactEntries b.mmsi (done.flatMap E)⟩)
  have h0 : (({ fragmented := Pathway.isFragmented count } : VesselStats), (⟨p, base⟩ : Folder)) =
      S [] := by
    simp [S, EdgeSink.artifactEntries]
  simp only [processBatch, hr, Bind.bind, Except.bind]
  rw [h0, Except.foldlM_eq_ok_of_prefix S []]
  · rfl
  · intro done q rest hl
    have hq : q ∈ tracks := by simp [hl]
    have happ : EdgeSink.append (S done).2 q.mmsi (E q) =
        .ok (⟨p, base ++ EdgeSink.artifactEntries b.mmsi (done.flatMap E ++ E q)⟩, (E q).length) := by
      rw [hmmsi q hq]
      exact EdgeSink.append_artifactEntries hbase
    simp only [List.nil_append, hE q hq, happ]
    simp [S, pure, Except.pure, Nat.add_comm]

/-- **Processing a batch is processing it alone.** On a folder with no entry of the batch's
artifact name, a batch whose span fits gives the counts it gives alone and adds its artifact
at the end of the folder; a batch whose track cannot be built fails with that fault. -/
theorem processBatch_eq {p : String} {base : List (String × Entry)}
    (hbase : ∀ e ∈ base, e.1 ≠ EdgeSink.artifactName b.mmsi)
    (hfit : ∀ t, b.toTrack = .ok t → t.RangeFits 0 t.size) :
    g.processBatch ⟨p, base⟩ b =
      (fun s => (s, ⟨p, base ++ (g.artifact? b).toList.map fun a => (a.1, .file a.2)⟩)) <$>
        g.vesselStats b := by
  cases hb : b.toTrack with
  | error e =>
    simp [processBatch, vesselStats_eq_error hb, pathways_eq_error hb, Bind.bind, Except.bind,
      Functor.map, Except.map]
  | ok t =>
    obtain ⟨⟨count, tracks⟩, hr, hq⟩ := pathways_ok (g := g) hb (hfit t hb)
    -- the edges of each fenced track, as a function of the track
    let E : Track → List TransitEdge := fun q => q.transitEdges.toOption.getD []
    have hE : ∀ q ∈ tracks, q.transitEdges = .ok (E q) := by
      intro q hq'
      obtain ⟨es, hes⟩ := transitEdges_ok_of_pathways (hfit t hb) hq q hq'
      simp [E, hes, Except.toOption]
    have htr := transits_eq_flatMap hr hE
    have hne : (tracks.flatMap E).isEmpty = false := by simpa using transits_ne_nil htr
    rw [processBatch_eq_ok hbase hr hE (mmsi_of_pathways hb hq)]
    simp [vesselStats, artifact?, hr, htr, hne, EdgeSink.artifactEntries, Bind.bind, Except.bind,
      pure, Except.pure, Except.toOption]

/-- A batch whose span fits fails alone exactly when its track cannot be built, with that
fault. -/
theorem vesselStats_eq_error_iff (hfit : ∀ t, b.toTrack = .ok t → t.RangeFits 0 t.size) :
    g.vesselStats b = .error e ↔ b.toTrack = .error e := by
  refine ⟨fun h => ?_, vesselStats_eq_error⟩
  cases hb : b.toTrack with
  | error e' =>
    rw [vesselStats_eq_error hb, Except.error.injEq] at h
    rw [h]
  | ok t =>
    obtain ⟨r, hr, -⟩ := pathways_ok (g := g) hb (hfit t hb)
    obtain ⟨es, hes⟩ := transits_ok (g := g) hb (hfit t hb)
    simp [vesselStats, hr, hes, Bind.bind, Except.bind, pure, Except.pure] at h

theorem artifact?_eq_none (h : b.toTrack = .error e) : g.artifact? b = none := by
  simp [artifact?, transits_eq_error h, Except.toOption]

/-- The folder is left as it is when the vessel has no artifact file. -/
theorem discardArtifact_eq {f : Folder} {m : Nat}
    (h : ∀ e ∈ f.entries, e.1 ≠ EdgeSink.artifactName m) : discardArtifact f m = f := by
  simp [discardArtifact, Folder.read?_eq_none h]

end NetworkGraph

end Seaway
