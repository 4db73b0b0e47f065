import Seaway.Calendar
import Seaway.Geodesy

/-!
# Transit edges

A transit edge summarizes the movement of one fenced track between two zone
boundaries. The boundaries of a track are row `0` and every row whose zone differs from
the row before. Each pair of consecutive boundaries `(b₀, b₁)` gives one edge from the
zone of row `b₀` to the zone of row `b₁`, summarized over the rows `[b₀, b₁)`; the last
pair is summarized up to the end of the track, so that its rows after the last boundary
are counted too. A track that never changes zone gives one open edge, whose receiving
zone is unknown.

An edge carries the vessel and its attributes, the calendar minutes of its first and
last rows (and the date of the first), the straight distance between them, the distance
along the rows (a sum that starts at `-0.0`, so `-0.0` for one row), the least, mean and
largest speed between consecutive rows, and the minutes from first to last row; the
speeds and minutes are missing for a single row.
-/

namespace Seaway

/-- A zone-to-zone movement of one track. -/
structure TransitEdge where
  mmsi : Nat
  label : Option Nat
  vesselName : Option String
  shipType : Option Nat
  imo : Option Nat
  dimBow : Option Nat
  dimStern : Option Nat
  dimPort : Option Nat
  dimStar : Option Nat
  srcZone : String
  rcvZone : Option String
  transitNodes : String
  firstSeen : String
  lastSeen : String
  year : Int
  month : Nat
  day : Nat
  totalDistance : Float
  cumulativeDistance : Float
  speedMin : Option Float
  speedAvg : Option Float
  speedMax : Option Float
  minutesInZone : Option Float
  deriving Inhabited, BEq

namespace TransitEdge

/-- The names of an edge's fields, in record order. -/
def fieldNames : List String :=
  ["mmsi", "label", "vessel_name", "ship_type", "imo", "dim_bow", "dim_stern", "dim_port",
    "dim_star", "src_zone", "rcv_zone", "transit_nodes", "first_seen_in_zone",
    "last_seen_in_zone", "year", "month", "day", "total_distance_meters",
    "cumulative_distance_meters", "velocity_knots_min", "velocity_knots_avg",
    "velocity_knots_max", "minutes_spent_in_zone"]

/-- Whether the receiving zone is unknown. -/
def isOpen (e : TransitEdge) : Bool := e.rcvZone.isNone

/-- Whether the edge spans a single row (it has no mean speed). -/
def isSingle (e : TransitEdge) : Bool := e.speedAvg.isNone

end TransitEdge

namespace Transit

/-- The rows after the first whose zone differs from the row before. -/
def changes (zones : Array String) : List Nat :=
  ((List.range zones.size).drop 1).filter fun i => zones.getD i "" != zones.getD (i - 1) ""

/-- The least and largest of the first values seen while walking pairs: `acc` holds
them, each further pair is ordered by `<` first, its smaller one then replaces the least
when smaller, and its larger one replaces the largest unless smaller; a last single
value replaces the least when smaller, otherwise the largest unless smaller. -/
def minMaxFrom (acc : Float × Float) : List Float → Float × Float
  | [] => acc
  | [x] => if x < acc.1 then (x, acc.2) else if x < acc.2 then acc else (acc.1, x)
  | a :: b :: rest =>
    let (lo, hi) := if b < a then (b, a) else (a, b)
    minMaxFrom (if lo < acc.1 then lo else acc.1, if hi < acc.2 then acc.2 else hi) rest

/-- The least and largest value of a list, compared in pairs; `none` for an empty list.
Of equal values the least is the first and the largest the last. -/
def minMax : List Float → Option (Float × Float)
  | [] => none
  | [x] => some (x, x)
  | x :: y :: rest => some (minMaxFrom (if y < x then (y, x) else (x, y)) rest)

/-- The edge of the rows `[a, b)` of a track (`a < b`) from zone `src` to `rcv`. The rows
are read as the library reads them: the last row is `b - 1`, which fails for `b = 0`, and
each column entry fails past the end of its column. -/
def edge (t : Track) (a b : Nat) (src : String) (rcv : Option String) :
    Except Fault TransitEdge := do
  let last ← subSize b 1
  let t0 ← entry t.time a
  let t1 ← entry t.time last
  let first := Minute.ofUnix t0
  let speeds ← t.consecutiveKnots a b
  let (speedMin, speedAvg, speedMax) := match minMax speeds.toList with
    | none => (none, none, none)
    | some (lo, hi) =>
      (some lo, some (Real64.sum speeds.toList / Binary64.ofNat speeds.size), some hi)
  let minutesInZone ← if 1 < b - a then
      (fun d => some (Binary64.ofInt d / 60.0)) <$> subInt64 t1 t0
    else pure none
  let x0 ← entry t.lon a
  let y0 ← entry t.lat a
  let x1 ← entry t.lon last
  let y1 ← entry t.lat last
  let along ← t.consecutiveDistances a b
  let info := t.info
  pure {
    mmsi := t.mmsi, label := t.label, vesselName := info.vesselName,
    shipType := info.shipType, imo := info.imo, dimBow := info.dimBow,
    dimStern := info.dimStern, dimPort := info.dimPort, dimStar := info.dimStar,
    srcZone := src, rcvZone := rcv,
    transitNodes := match rcv with
      | some r => src ++ "_" ++ r
      | none => src,
    firstSeen := first.render, lastSeen := (Minute.ofUnix t1).render,
    year := first.year, month := first.month, day := first.day,
    totalDistance := Geodesy.distance x0 y0 x1 y1,
    cumulativeDistance := Real64.sum along.toList,
    speedMin, speedAvg, speedMax, minutesInZone }

end Transit

namespace Track

/-- The transit edges of a fenced track, in row order; refused for a track without zone
labels. -/
def transitEdges (t : Track) : Except Fault (List TransitEdge) := do
  let some zones := t.inZone | throw (.notFenced t.mmsi)
  let n := t.size
  match Transit.changes zones with
  | [] => pure [← Transit.edge t 0 n (← entry zones 0) none]
  | cs =>
    let bounds := 0 :: cs
    let pairs := bounds.zip bounds.tail
    let lastPair ← subSize bounds.length 2
    pairs.zipIdx.mapM fun ((a, b), k) => do
      let src ← entry zones a
      let rcv ← entry zones b
      Transit.edge t a (if k = lastPair then n else b) src (some rcv)

/-- Zone changes per hour: the number of zone changes over the hours from the first to
the last row, taken as at least one second. -/
def hourlyTransitRate (t : Track) : Except Fault Float := do
  let some zones := t.inZone | throw (.notFenced t.mmsi)
  let tn ← entry t.time (← subSize t.size 1)
  let t0 ← entry t.time 0
  let d ← subInt64 tn t0
  let seconds := Real64.atLeast (Binary64.ofInt d) 1.0
  pure (Binary64.ofNat (Transit.changes zones).length / (seconds / 3600.0))

end Track

end Seaway
