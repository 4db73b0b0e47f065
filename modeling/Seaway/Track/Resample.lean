import Seaway.Track.Basic

/-!
# Resampling a track on a time grid

A track of at least two rows is resampled at the times `t₀ + k · step` that do not pass
its last time. At a grid time `t` the bracketing segment is the last one (of rows
`s, s + 1`) whose end time is at most `t`, never past the last segment; each of the
columns lon, lat, cog and sog is then interpolated linearly in time inside it, taking the
segment's first value when its two times are equal or `t` is not past its start, and
its second value when `t` is not before its end. The zone column is dropped; vessel,
label and attributes stay. A track of one row is returned as it is.
-/

namespace Seaway

namespace Track

/-- The segment that brackets a grid time: moves forward from segment `s` while the next
row's time is at most `t` and a later segment exists. -/
def bracket (time : Array Int) (t : Int) (s : Nat) : Nat :=
  go s (time.size - s)
where
  go (s : Nat) : Nat → Nat
    | 0 => s
    | fuel + 1 =>
      if s + 2 < time.size ∧ time.getD (s + 1) 0 ≤ t then go (s + 1) fuel else s

/-- The value of a column at grid time `t` in segment `s`. -/
def interpolateAt (time : Array Int) (col : Array Float) (s : Nat) (t : Int) : Float :=
  let ta := time.getD s 0
  let tb := time.getD (s + 1) 0
  let a := col.getD s 0
  let b := col.getD (s + 1) 0
  if tb = ta ∨ t ≤ ta then a
  else if tb ≤ t then b
  else
    let w := (Binary64.ofInt t - Binary64.ofInt ta) / (Binary64.ofInt tb - Binary64.ofInt ta)
    a + (b - a) * w

/-- The grid times `t₀ + k · step` up to the last time. -/
def grid (t : Track) (step : Nat) : List Int :=
  let t0 := t.time.getD 0 0
  let tn := t.time.getD (t.size - 1) 0
  (List.range ((tn - t0).toNat / step + 1)).map fun (k : Nat) => t0 + (k : Int) * step

/-- Each grid time with its bracketing segment, the cursor only moving forward. -/
def gridSegments (t : Track) (step : Nat) : List (Int × Nat) :=
  ((t.grid step).foldl (fun (acc, s) g =>
    let s' := bracket t.time g s
    (acc.push (g, s'), s')) (#[], 0)).1.toList

/-- Resamples a track on a grid of `step` seconds (`step > 0`). -/
def resample (t : Track) (step : Nat) : Track :=
  if t.size ≤ 1 then t
  else
    let gs := (t.gridSegments step).toArray
    let column (col : Array Float) := gs.map fun (g, s) => interpolateAt t.time col s g
    t.withColumns (gs.map (·.1)) (column t.lon) (column t.lat) (column t.cog) (column t.sog)

/-- Resamples a track on a grid of `step` seconds; the step must be positive. -/
def interpolate (t : Track) (step : Int) : Except Fault Track :=
  if step ≤ 0 then
    .error (.invalidParameter s!"interpolation step must be > 0 seconds, got {step}")
  else .ok (t.resample step.toNat)

end Track

end Seaway
