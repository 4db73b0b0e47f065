import Seaway.Geodesy

/-!
# Reconstructing pathways

A vessel identifier may be shared by several vessels, or a receiver may log spurious
positions; a track then zigzags between places no ship could join in time. The track is
cut into chunks wherever two consecutive positions are too far apart or would need too
high a speed, and the chunks are dealt out greedily, in time order, to pathways: each
chunk joins the pathway whose last position it continues best, or starts a new pathway
when no continuation scores at least `minscore`.

The continuity of two positions is the product of two factors in `[0, 1]`, one falling
with distance and one with the speed needed, floored at the least positive normal double
so that it is never zero (nor NaN). Of equally good pathways the later one wins.
-/

namespace Seaway

/-- The thresholds of pathway reconstruction. -/
structure PathwayParams where
  /-- Distance in meters at which continuity has fallen to zero. -/
  distanceThreshold : Float := 200000.0
  /-- Speed in knots at which continuity has fallen to zero. -/
  speedThreshold : Float := 50.0
  /-- The least continuity for joining a pathway. -/
  minscore : Float := Float.ofBits 0x3EB0C6F7A0B5ED8D
  deriving Inhabited

namespace PathwayParams

/-- Checks the thresholds: both positive (a NaN is not), and `minscore` in `[0, 1]`, where
a zero of either sign becomes the least positive normal double. -/
def validate (p : PathwayParams) : Except Fault PathwayParams :=
  if !(0 < p.distanceThreshold) then .error (.invalidParameter "distance_threshold must be > 0")
  else if !(0 < p.speedThreshold) then .error (.invalidParameter "speed_threshold must be > 0")
  else if p.minscore == 0 then .ok { p with minscore := Real64.minPositive }
  else if 0 < p.minscore ∧ p.minscore ≤ 1 then .ok p
  else .error (.invalidParameter "minscore must be in [0, 1]")

/-- One line: distance with one decimal, speed with two, `minscore` in exponent form. -/
def describe (p : PathwayParams) : String :=
  "distance_threshold=" ++ Decimal.fixed 1 p.distanceThreshold ++ "m, speed_threshold=" ++
    Decimal.fixed 2 p.speedThreshold ++ "kn, minscore=" ++
    Decimal.render .exponent p.minscore

/-- A block of aligned lines under a title. -/
def describeBlock (p : PathwayParams) : String :=
  "[Denoising encoder]\n  distance_threshold = " ++ Decimal.fixed 1 p.distanceThreshold ++
    " m\n  speed_threshold    = " ++ Decimal.fixed 2 p.speedThreshold ++
    " kn\n  minscore           = " ++ Decimal.render .exponent p.minscore

end PathwayParams

/-- A position with its time, the end or start of a pathway. -/
structure Anchor where
  lon : Float
  lat : Float
  time : Int
  deriving Inhabited

namespace Anchor

/-- The position of a track's row. -/
def ofRow (t : Track) (i : Nat) : Anchor :=
  ⟨t.lon.getD i 0, t.lat.getD i 0, t.time.getD i 0⟩

/-- The last position of a track. -/
def last (t : Track) : Anchor := ofRow t (t.size - 1)

/-- The position of row `i` as the library reads it, longitude, latitude, then time, each
failing past the end of its column. -/
def atRow (t : Track) (i : Nat) : Except Fault Anchor := do
  let lon ← entry t.lon i
  let lat ← entry t.lat i
  let time ← entry t.time i
  pure ⟨lon, lat, time⟩

/-- The last position as the library reads it: the row count less one, which fails for a
track without rows, then that row. -/
def lastRow (t : Track) : Except Fault Anchor := do
  atRow t (← subSize t.size 1)

end Anchor

namespace Pathway

/-- How well a pathway ending at `e` continues with a position `s`: the product of
`1 - min(d / distanceThreshold, 1)` and `1 - min(v / speedThreshold, 1)` for the distance
`d` and the speed `v` over the elapsed seconds, at least the least positive normal
double. Fails when the elapsed time overflows 64 bits. -/
def continuity (e s : Anchor) (p : PathwayParams) : Except Fault Float := do
  let meters := Geodesy.distance e.lon e.lat s.lon s.lat
  let dt ← subInt64 s.time e.time
  let elapsed ← absInt64 dt
  let speed := Geodesy.knots meters (Binary64.ofInt elapsed)
  let d := Real64.atMost (meters / p.distanceThreshold) 1.0
  let v := Real64.atMost (speed / p.speedThreshold) 1.0
  pure (Real64.atLeast ((1.0 - d) * (1.0 - v)) Real64.minPositive)

/-- Whether the step into row `i + 1` breaks continuity: its speed exceeds the speed
threshold or its distance the distance threshold. -/
def isBreak (p : PathwayParams) (meters seconds : Float) : Bool :=
  p.speedThreshold < Geodesy.knots meters seconds || p.distanceThreshold < meters

/-- The chunk bounds of a track: `0`, every row that starts after a break, and the row
count. -/
def chunkBounds (t : Track) (p : PathwayParams) : Except Fault (List Nat) := do
  let n := t.size
  if 1 < n then
    let m ← t.consecutiveDistances 0 n
    let s ← t.consecutiveSeconds 0 n
    let cuts := ((m.zip s).toList.zipIdx.filter fun ((d, e), _) => isBreak p d e).map
      fun (_, i) => i + 1
    pure (0 :: cuts ++ [n])
  else pure [0, n]

/-- The pathway that a chunk starting at `head` continues best, with its continuity; of
equal scores the later pathway wins. An empty list gives index `0` and `-∞`. -/
def best (pathways : List Track) (head : Anchor) (p : PathwayParams) :
    Except Fault (Nat × Float) :=
  pathways.zipIdx.foldlM (fun (b, score) (q, i) => do
      let c ← continuity (Anchor.last q) head p
      pure (if score ≤ c then (i, c) else (b, score)))
    (0, -Real64.inf)

/-- Consecutive pairs of a list. -/
def windows : List Nat → List (Nat × Nat)
  | a :: b :: rest => (a, b) :: windows (b :: rest)
  | _ => []

/-- Deals one chunk `[a, b)` of a track to the pathways: reads the chunk's first position
and the last position of every pathway, then appends the chunk to the best pathway or
opens a new one with it. -/
def deal (t : Track) (p : PathwayParams) (ps : Array Track) (w : Nat × Nat) :
    Except Fault (Array Track) := do
  let (a, b) := w
  let head ← Anchor.atRow t a
  let _ ← ps.toList.mapM Anchor.lastRow
  let (i, score) ← best ps.toList head p
  if p.minscore ≤ score then
    let q ← entry ps i
    let q' ← q.extendChecked t a b
    pure (ps.modify i fun _ => q')
  else pure (ps.push (← t.sliceChecked a b))

/-- Reconstructs the pathways of a track, labelled `0, 1, …` in order of creation; a track
of one row is one pathway. The first chunk is read off the first two bounds. -/
def reconstruct (t : Track) (p : PathwayParams) : Except Fault (Array Track) := do
  let ps ← if t.size = 1 then pure #[t]
    else
      match ← chunkBounds t p with
      | a :: b :: rest => do
        let first ← t.sliceChecked a b
        (windows (b :: rest)).foldlM (deal t p) #[first]
      | [] => throw (.outOfBounds 0 0)
      | [_] => throw (.outOfBounds 1 1)
  pure (ps.mapIdx fun i q => { q with label := some i })

/-- Whether reconstruction produced more pathways than a plausible track has (100). -/
def isFragmented (count : Nat) : Bool := 100 < count

end Pathway

end Seaway
