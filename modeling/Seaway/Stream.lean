import Seaway.Track.Pathway
import Seaway.Track.Segment
import Seaway.Track.Resample
import Seaway.Fence

/-!
# Chains of track stages

A stage turns one track into zero or more tracks: pathway reconstruction, cutting by a
segmentation rule, resampling on a time grid (skipped without a positive step), fencing
in a domain, and masking to the rows inside zones. A chain applies its stages to each
track in turn, depth first: every output of a stage goes through the rest of the chain
before the stage's next output, and one track is finished before the next one starts.
-/

namespace Seaway

/-- One stage of a chain. -/
inductive Stage where
  | reconstruct (p : PathwayParams)
  | split (r : SegmentationRule)
  | resample (step : Option Int)
  | fence (d : Domain)
  | zoneMask (d : Domain)
  deriving Inhabited

namespace Stage

/-- The tracks one stage makes of one track. -/
def apply : Stage → Track → Except Fault (List Track)
  | reconstruct p, t => (·.toList) <$> Pathway.reconstruct t p
  | split r, t => t.splitWith r
  | resample step, t =>
    match step with
    | some s => if 0 < s then pure [t.resample s.toNat] else pure [t]
    | none => pure [t]
  | fence d, t => pure [t.fence d]
  | zoneMask d, t => pure (t.zoneMask d).toList

end Stage

/-- The tracks a chain of stages makes of one track. -/
def Stage.chain : List Stage → Track → Except Fault (List Track)
  | [], t => pure [t]
  | s :: rest, t => do
    let outs ← s.apply t
    outs.flatMapM (Stage.chain rest)

/-- The tracks a chain of stages makes of a list of tracks, in order. -/
def Stage.run (stages : List Stage) (tracks : List Track) : Except Fault (List Track) :=
  tracks.flatMapM (Stage.chain stages)

end Seaway
