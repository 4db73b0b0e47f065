import Seaway.Zone.Basic

/-!
# Domains

A domain is a named, ordered set of zones with distinct names, none of them reserved
(`Z0` names the outside of every zone, `NULL` an unknown zone), none reaching beyond
`[-180, 180]` in longitude, together with the box covering all of them.

A position is located in three steps: outside the domain box it is in no zone; else the
zones whose centroid margin is negative are ranked by that margin, nearest first (a
stable order, so earlier zones win ties); the first of them that contains the position
is its zone, and if none does it is in no zone.
-/

namespace Seaway

/-- The name of the outside of every zone. -/
def noZone : String := "Z0"

/-- The text written for an unknown value in record files. -/
def nullText : String := "NULL"

/-- A named set of zones with its covering box. -/
structure Domain where
  name : String
  zones : Array Zone
  bounds : Box
  deriving Inhabited

namespace Domain

/-- Adds one zone to a domain under construction: refused when its name is reserved or
already taken, or when its box leaves `[-180, 180]` in longitude, in which case the fault
carries the polygon cut at the antimeridian. -/
def addZone (d : Domain) (z : Zone) : Except Fault Domain := do
  if z.name = noZone ∨ z.name = nullText then
    throw (.invalidParameter ("zone name '" ++ z.name ++ "' is reserved"))
  if d.zones.any (·.name = z.name) then throw (.duplicateZone z.name)
  let b := z.bbox
  if b.xmin < -180.0 ∨ 180.0 < b.xmax then
    throw (.spansAntimeridian z.name b.xmin b.xmax z.geometry.splitAntimeridian)
  pure { d with zones := d.zones.push z, bounds := d.bounds.expand b }

/-- Refuses a covering box that is empty or leaves the globe. -/
def checkBounds (d : Domain) : Except Fault Domain :=
  let b := d.bounds
  let extent := "[" ++ Decimal.render .plain b.xmin ++ ", " ++ Decimal.render .plain b.xmax ++
    "] × [" ++ Decimal.render .plain b.ymin ++ ", " ++ Decimal.render .plain b.ymax ++ "]"
  if !(b.xmin < b.xmax ∧ b.ymin < b.ymax) then .error (.invalidBounds s!"empty extent {extent}")
  else if b.xmin < -180.0 ∨ 180.0 < b.xmax ∨ b.ymin < -90.0 ∨ 90.0 < b.ymax then
    .error (.invalidBounds s!"extent {extent} leaves the globe")
  else .ok d

/-- A domain from zones in order; refused without zones, and at the first zone that
cannot be added. -/
def new (name : String) (zones : List Zone) : Except Fault Domain := do
  match zones with
  | [] => throw (.emptyDomain name)
  | z :: _ =>
    let d ← zones.foldlM addZone { name, zones := #[], bounds := z.bbox }
    d.checkBounds

/-- The zone of a name. -/
def zone? (d : Domain) (n : String) : Option Zone :=
  d.zones.find? (·.name = n)

/-- The zones whose centroid margin to a position is negative, with their margins,
nearest first; zones of equal margin keep their order. -/
def nearest (d : Domain) (x y : Float) : List (Zone × Float) :=
  let cands := d.zones.toList.filterMap fun z =>
    let m := z.centroidMargin x y
    if m < 0.0 then some (z, m) else none
  cands.mergeSort fun a b => a.2 ≤ b.2

/-- The name of the zone a position lies in, `Z0` for none. -/
def locate (d : Domain) (x y : Float) : String :=
  if !d.bounds.contains x y then noZone
  else match (d.nearest x y).find? (fun (z, _) => z.contains x y) with
    | some (z, _) => z.name
    | none => noZone

/-- One line: the name and the number of zones. -/
def describe (d : Domain) : String :=
  "Domain '" ++ d.name ++ "' (" ++ toString d.zones.size ++ " zones)"

/-- A header line and one line per zone with centroid and boundary radius bound. -/
def describeBlock (d : Domain) : String :=
  let line (z : Zone) : String :=
    "  " ++ Text.padRight 16 z.name ++ " centroid=(" ++
      Text.padLeft 10 (Decimal.fixed 5 z.centroid.x) ++ ", " ++
      Text.padLeft 9 (Decimal.fixed 5 z.centroid.y) ++ ")  max_radius=" ++
      Text.padLeft 12 (Decimal.fixed 1 z.maxRadius) ++ " m\n"
  "Domain '" ++ d.name ++ "'\n" ++ String.join (d.zones.toList.map line)

end Domain

end Seaway
