import Seaway.Stream
import Seaway.Track.Reports
import Seaway.Transit.Sink
import Seaway.Graph.Params
import Seaway.Graph.Stats

/-!
# Network graph runs

A run turns the position reports of many vessels into one table of transit edges. Each
vessel's batch becomes a track, the track is reconstructed into pathways, and every
pathway is cut by the segmentation rule, resampled when a step is set, and fenced in the
domain; the transit edges of each resulting track are appended to the vessel's artifact
in the scratch folder. The artifacts are then aggregated into the table, or, when no
edge was written, the table is the header alone.

A vessel whose batch fails is counted as a failure with its fault, and its artifact file
(if any, and even one that was there before) is removed; the other vessels go on. An
arithmetic overflow is not a failure of one vessel: it ends the run.
-/

namespace Seaway

/-- What processing one vessel gave. -/
structure VesselStats where
  edges : Nat := 0
  singleEdges : Nat := 0
  fragmented : Bool := false
  trackLengths : List Nat := []
  deriving Inhabited

/-- The outcome of a run. -/
structure GraphReport where
  vesselsProcessed : Nat := 0
  tracks : Nat := 0
  edgesWritten : Nat := 0
  singleEdges : Nat := 0
  fragmentedVessels : Nat := 0
  failures : List (Nat × Fault) := []
  trackLengths : Option LengthStats := none
  aggregate : Option AggregateSummary := none
  deriving Inhabited

namespace GraphReport

/-- Edges over a single position and fragmented vessels together. -/
def warnings (r : GraphReport) : Nat := r.singleEdges + r.fragmentedVessels

/-- The report with its failures ordered by vessel, then by message. -/
def sortFailures (r : GraphReport) : GraphReport :=
  { r with failures := r.failures.mergeSort fun a b =>
      a.1 < b.1 || (a.1 == b.1 && decide (a.2.message ≤ b.2.message)) }

/-- One line of counts. -/
def describe (r : GraphReport) : String :=
  toString r.vesselsProcessed ++ " vessel(s) processed, " ++ toString r.failures.length ++
    " failed, " ++ toString r.tracks ++ " track(s), " ++ toString r.edgesWritten ++
    " edge(s), " ++ toString r.warnings ++ " warning(s)"

/-- The line of counts, the warning counts, the track length block and one line per
failure. -/
def describeBlock (r : GraphReport) : String :=
  r.describe ++ "\n  single-position edges: " ++ toString r.singleEdges ++
    ", fragmented vessels: " ++ toString r.fragmentedVessels ++
    (match r.trackLengths with
      | some s => "\n" ++ s.describeBlock
      | none => "") ++
    String.join (r.failures.map fun (m, e) => "\n  mmsi=" ++ toString m ++ ": " ++ e.message)

end GraphReport

/-- A domain with the settings of a run. -/
structure NetworkGraph where
  domain : Domain
  params : GraphParams
  deriving Inhabited

namespace NetworkGraph

/-- The stages after reconstruction: cut, resample, fence. -/
def stages (g : NetworkGraph) : List Stage :=
  [.split g.params.segmentationRule, .resample g.params.interpStep, .fence g.domain]

/-- The pathways of a batch with whether they are fragmented, and the fenced tracks made
of them. -/
def pathways (g : NetworkGraph) (b : Batch) : Except Fault (Nat × List Track) := do
  let ps ← Pathway.reconstruct (← b.toTrack) g.params.encoder
  pure (ps.size, ← Stage.run g.stages ps.toList)

/-- The fenced tracks of a batch. -/
def fencedTracks (g : NetworkGraph) (b : Batch) : Except Fault (List Track) :=
  (·.2) <$> g.pathways b

/-- The transit edges of a batch, track after track. -/
def transits (g : NetworkGraph) (b : Batch) : Except Fault (List TransitEdge) := do
  (← g.fencedTracks b).flatMapM Track.transitEdges

/-- Processes one batch, appending its edges to the vessel's artifact. -/
def processBatch (g : NetworkGraph) (f : Folder) (b : Batch) :
    Except Fault (VesselStats × Folder) := do
  let (count, tracks) ← g.pathways b
  tracks.foldlM (fun (s, f) t => do
      let edges ← t.transitEdges
      let (f, n) ← EdgeSink.append f t.mmsi edges
      pure ({ s with
        edges := s.edges + n
        singleEdges := s.singleEdges + (edges.filter (·.isSingle)).length
        trackLengths := s.trackLengths ++ [t.size] }, f))
    ({ fragmented := Pathway.isFragmented count }, f)

/-- The folder without a vessel's artifact file. -/
def discardArtifact (f : Folder) (mmsi : Nat) : Folder :=
  let name := EdgeSink.artifactName mmsi
  if (f.read? name).isSome then f.remove name else f

/-- Processes every batch in order, each failure kept with its vessel. The library may hand
the batches to a pool of worker threads instead, in an order of its own; the worker count
is not read here, since the order changes neither the artifacts nor the counts, and a pool
that cannot be started is a failure of the environment, as a failing file system is. -/
def process (g : NetworkGraph) (f : Folder) (batches : List Batch) :
    Except Fault (GraphReport × Folder) := do
  let (r, lengths, f) ← batches.foldlM (fun (r, lengths, f) b =>
      match g.processBatch f b with
      | .ok (s, f') => pure ({ r with
          vesselsProcessed := r.vesselsProcessed + 1
          tracks := r.tracks + s.trackLengths.length
          edgesWritten := r.edgesWritten + s.edges
          singleEdges := r.singleEdges + s.singleEdges
          fragmentedVessels := r.fragmentedVessels + (if s.fragmented then 1 else 0) },
          lengths ++ s.trackLengths, f')
      | .error e =>
        if e.isPanic then throw e
        else pure ({ r with failures := r.failures ++ [(b.mmsi, e)] }, lengths,
          discardArtifact f b.mmsi))
    (({} : GraphReport), ([] : List Nat), f)
  pure ({ r with trackLengths := ← LengthStats.ofLengths lengths }, f)

/-- Runs the graph over the batches with a scratch folder; gives the report, the table
and the scratch folder afterwards. -/
def run (g : NetworkGraph) (scratch : Folder) (batches : List Batch)
    (filters : List EdgeFilter) : Except Fault (GraphReport × String × Folder) := do
  let (r, f) ← g.process scratch batches
  if r.edgesWritten = 0 then pure (r, TransitEdge.header, f)
  else
    let (table, summary, f) ← EdgeSink.aggregate f filters (!g.params.keepIntermediates)
    pure ({ r with aggregate := some summary }, table, f)

end NetworkGraph

end Seaway
