import Seaway.Zone.Domain

/-!
# Geofencing

Fencing labels every row of a track with the zone of its position in a domain (`Z0` for
none), as a zone column. A track that already has a zone column is left as it is, so
fencing twice is fencing once. Masking keeps only the rows that lie in some zone.
-/

namespace Seaway

namespace Track

/-- The track with the zone of every position, unless it already has a zone column. -/
def fence (t : Track) (d : Domain) : Track :=
  match t.inZone with
  | some _ => t
  | none => { t with inZone := some ((t.lon.zip t.lat).map fun (x, y) => d.locate x y) }

/-- The fenced rows that lie in some zone, or `none` when no row does. -/
def zoneMask (t : Track) (d : Domain) : Option Track :=
  let f := t.fence d
  f.select ((f.inZone.getD #[]).map (· ≠ noZone))

end Track

end Seaway
