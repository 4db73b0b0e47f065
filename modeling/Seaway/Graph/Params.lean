import Seaway.Track.Pathway
import Seaway.Track.Segment
import Seaway.Text.Blank

/-!
# Parameters of a network graph run

A run reconstructs pathways with its encoder thresholds, cuts them at time gaps of at
least `maxTimeGap` seconds or longitude jumps of more than `lonJumpTolerance` degrees,
resamples them every `interpStep` seconds when a step is given, and keeps per-vessel
artifacts in a scratch folder. Building checks, in this order, that the gap is positive,
that the tolerance lies in `(0, 360]` (a NaN does not), that a given step is positive and
that there is at least one worker. The encoder thresholds are taken as given.
-/

namespace Seaway

/-- The settings of a network graph run. -/
structure GraphParams where
  encoder : PathwayParams := {}
  maxTimeGap : Int := 7 * 24 * 3600
  lonJumpTolerance : Float := 300.0
  interpStep : Option Int := none
  workers : Nat := 1
  scratchDir : Option String := none
  keepIntermediates : Bool := false
  deriving Inhabited

namespace GraphParams

/-- Checks the settings. -/
def build (p : GraphParams) : Except Fault GraphParams :=
  if p.maxTimeGap ≤ 0 then .error (.invalidParameter "max_time_gap must be > 0")
  else if !(0.0 < p.lonJumpTolerance) || 360.0 < p.lonJumpTolerance then
    .error (.invalidParameter "lon_jump_tolerance must be in (0, 360]")
  else if p.interpStep.any (· ≤ 0) then .error (.invalidParameter "interp_step must be > 0")
  else if p.workers = 0 then .error (.invalidParameter "workers must be >= 1")
  else .ok p

/-- The rule that cuts tracks. -/
def segmentationRule (p : GraphParams) : SegmentationRule :=
  { maxDelta := p.maxTimeGap, lonJumpTolerance := p.lonJumpTolerance }

/-- The resampling step as written on one line: `None` or `Some(step)`. -/
def stepText : Option Int → String
  | none => "None"
  | some s => "Some(" ++ toString s ++ ")"

/-- One line: the encoder's line, then gap, tolerance with one decimal, step and workers. -/
def describe (p : GraphParams) : String :=
  p.encoder.describe ++ ", max_time_gap=" ++ toString p.maxTimeGap ++
    "s, lon_jump_tolerance=" ++ Decimal.fixed 1 p.lonJumpTolerance ++ ", interp_step=" ++
    stepText p.interpStep ++ ", workers=" ++ toString p.workers

/-- A setting line with its comment in column 40, counted in bytes, or one space after a
longer setting. -/
def commented (setting comment : String) : String :=
  let n := setting.utf8ByteSize
  let pad := if n < 40 then String.ofList (List.replicate (40 - n) ' ') else " "
  "  " ++ setting ++ pad ++ "# " ++ comment ++ "\n"

/-- A titled block with the encoder's block and one commented line per setting. -/
def describeBlock (p : GraphParams) : String :=
  "Network Graph Parameters\n------------------------\n" ++ p.encoder.describeBlock ++
    "\n[Segmentation]\n" ++
    commented ("max_time_gap       = " ++ toString p.maxTimeGap ++ " s")
      "Gap splitting a track" ++
    commented ("lon_jump_tolerance = " ++ Decimal.fixed 1 p.lonJumpTolerance ++ "°")
      "Longitude jump splitting a track" ++
    commented ("interp_step        = " ++
        (match p.interpStep with
          | some s => toString s ++ " s"
          | none => "off"))
      "Interpolation step" ++
    "[Execution]\n" ++
    commented ("workers            = " ++ toString p.workers) "Worker threads" ++
    commented ("scratch_dir        = " ++ p.scratchDir.getD "<temporary>")
      "Per-vessel artifacts" ++
    commented ("keep_intermediates = " ++ toString p.keepIntermediates)
      "Keep artifacts after aggregation"

end GraphParams

end Seaway
