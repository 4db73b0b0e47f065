import Seaway.Track.Basic

/-!
# Tracks from position reports

Position reports arrive per vessel, in time order, as a batch. A batch becomes a track
by dropping every report whose time equals that of the last report kept (a run of equal
times keeps its first report), taking the vessel attributes of the first kept report
that carries any, and checking the columns as `Track.new` does. A report of another
vessel in the batch is refused when it is reached, before anything else is done with it.
-/

namespace Seaway

/-- One position report of a vessel. -/
structure Report where
  mmsi : Nat
  time : Int
  lon : Float
  lat : Float
  cog : Float := 0.0
  sog : Float := 0.0
  info : Option VesselInfo := none
  deriving Inhabited

/-- The reports of one vessel. -/
structure Batch where
  mmsi : Nat
  reports : List Report
  deriving Inhabited

namespace Batch

/-- A batch from columns, refused when a column's length differs from the time column's
(checked in the order lon, lat, cog, sog). -/
def ofColumns (mmsi : Nat) (time : Array Int) (lon lat cog sog : Array Float) :
    Except Fault Batch := do
  let n := time.size
  for (c, len) in [(Column.lon, lon.size), (.lat, lat.size), (.cog, cog.size), (.sog, sog.size)] do
    if len ≠ n then throw (.columnLength c n len)
  pure ⟨mmsi, (List.range n).map fun i =>
    { mmsi, time := time.getD i 0, lon := lon.getD i 0, lat := lat.getD i 0,
      cog := cog.getD i 0, sog := sog.getD i 0 }⟩

/-- The kept reports and the attributes, after the vessel check of every report. -/
def keep (mmsi : Nat) : List Report → Array Report → Option VesselInfo →
    Except Fault (Array Report × Option VesselInfo)
  | [], kept, info => .ok (kept, info)
  | r :: rs, kept, info =>
    if r.mmsi ≠ mmsi then
      .error (.invalidParameter ("report for vessel " ++ toString r.mmsi ++
        " found in batch of vessel " ++ toString mmsi))
    else if kept.back?.map (·.time) = some r.time then keep mmsi rs kept info
    else keep mmsi rs (kept.push r) (info <|> r.info)

/-- The track of a batch. -/
def toTrack (b : Batch) : Except Fault Track := do
  let (kept, info) ← keep b.mmsi b.reports #[] none
  Track.new b.mmsi (info.getD {}) (kept.map (·.time)) (kept.map (·.lon)) (kept.map (·.lat))
    (kept.map (·.cog)) (kept.map (·.sog))

end Batch

end Seaway
