import Seaway.Transit.Edge
import Seaway.Csv.Write
import Seaway.Csv.Read
import Seaway.Decimal.Read
import Seaway.Decimal.Integer

/-!
# Transit edges as records

An edge is written as a record of its 23 fields in the order of `TransitEdge.fieldNames`.
A missing attribute or label is an empty field. The receiving zone and the four
two-position statistics are written as `NULL` when missing, a statistic present as its
shortest decimal without exponent. The two distances are written as shortest
round-trip decimals (`0.0`, `-0.0`, `1e300`).

Reading a record back takes its fields in order. An integer field may be written in
hexadecimal after `0x`; an empty optional field is missing; a `NULL` receiving zone or
statistic is missing. A record with fewer than 23 fields is refused at the first field
missing, and fields after the 23rd are ignored. The reasons for refusal name the field's
index for integers and distances, not for the `NULL`-able statistics; an empty optional
text reads back as missing, and a receiving zone written `NULL` as unknown, so those two
edges do not survive the trip.
-/

namespace Seaway

namespace TransitEdge

/-- An optional count as a field. -/
def countField : Option Nat → String
  | some n => toString n
  | none => ""

/-- A value that may be missing, `NULL` when it is. -/
def nullable {α : Type} (write : α → String) : Option α → String
  | some v => write v
  | none => "NULL"

/-- The fields of an edge's record. -/
def fields (e : TransitEdge) : List String :=
  [toString e.mmsi, countField e.label, e.vesselName.getD "", countField e.shipType,
    countField e.imo, countField e.dimBow, countField e.dimStern, countField e.dimPort,
    countField e.dimStar, e.srcZone, nullable id e.rcvZone, e.transitNodes, e.firstSeen,
    e.lastSeen, toString e.year, toString e.month, toString e.day,
    Decimal.render .roundTrip e.totalDistance,
    Decimal.render .roundTrip e.cumulativeDistance,
    nullable (Decimal.render .plain) e.speedMin, nullable (Decimal.render .plain) e.speedAvg,
    nullable (Decimal.render .plain) e.speedMax,
    nullable (Decimal.render .plain) e.minutesInZone]

/-- The record of an edge, line feed included. -/
def toRecord (e : TransitEdge) : String := Csv.record e.fields

/-- The header record. -/
def header : String := Csv.record fieldNames

end TransitEdge

namespace EdgeReader

/-- Reading the fields of one record: the index of the next field and the fields left. -/
abbrev Reading := StateT (Nat × List String) (Except String)

/-- The next field with its index; refused when the record has no more fields. -/
def next : Reading (Nat × String) := do
  let (i, fs) ← get
  match fs with
  | [] => throw s!"invalid length {i}, expected struct TransitEdge with 23 elements"
  | f :: rest =>
    set (i + 1, rest)
    pure (i, f)

/-- An integer of `[lo, hi]`, in hexadecimal after `0x`. -/
def integerOf (lo hi : Int) (i : Nat) (f : String) : Reading Int :=
  let read :=
    if f.startsWith "0x" then Decimal.readInteger 16 lo hi (String.ofList (f.toList.drop 2))
    else Decimal.readInteger 10 lo hi f
  match read with
  | .ok v => pure v
  | .error e => throw ("field " ++ toString i ++ ": " ++ e.message)

/-- A natural number below `bound`. -/
def natural (bound : Nat) : Reading Nat := do
  let (i, f) ← next
  return (← integerOf 0 (bound - 1) i f).toNat

/-- A natural number below `bound`, missing when the field is empty. -/
def optNatural (bound : Nat) : Reading (Option Nat) := do
  let (i, f) ← next
  if f.isEmpty then return none
  return some (← integerOf 0 (bound - 1) i f).toNat

/-- A text. -/
def text : Reading String := do
  return (← next).2

/-- A text, missing when the field is empty. -/
def optText : Reading (Option String) := do
  let f := (← next).2
  return if f.isEmpty then none else some f

/-- The reason a text is not a double. -/
def floatReason (f : String) : String :=
  if f.isEmpty then "cannot parse float from empty string" else "invalid float literal"

/-- A double. -/
def real : Reading Float := do
  let (i, f) ← next
  match Decimal.readFloat? f with
  | some x => pure x
  | none => throw ("field " ++ toString i ++ ": " ++ floatReason f)

/-- A text, missing when it is `NULL`. -/
def nullText : Reading (Option String) := do
  let f := (← next).2
  return if f = "NULL" then none else some f

/-- A double, missing when the field is `NULL`. -/
def nullReal : Reading (Option Float) := do
  let f := (← next).2
  if f = "NULL" then return none
  match Decimal.readFloat? f with
  | some x => pure (some x)
  | none => throw (floatReason f)

/-- Reads an edge from the fields of a record. -/
def edge : Reading TransitEdge := do
  let mmsi ← natural (Nat.pow 2 32)
  let label ← optNatural (Nat.pow 2 32)
  let vesselName ← optText
  let shipType ← optNatural (Nat.pow 2 16)
  let imo ← optNatural (Nat.pow 2 32)
  let dimBow ← optNatural (Nat.pow 2 16)
  let dimStern ← optNatural (Nat.pow 2 16)
  let dimPort ← optNatural (Nat.pow 2 16)
  let dimStar ← optNatural (Nat.pow 2 16)
  let srcZone ← text
  let rcvZone ← nullText
  let transitNodes ← text
  let firstSeen ← text
  let lastSeen ← text
  let (i, f) ← next
  let year ← integerOf (-((Nat.pow 2 31 : Nat) : Int))
    (((Nat.pow 2 31 : Nat) : Int) - 1) i f
  let month ← natural (Nat.pow 2 8)
  let day ← natural (Nat.pow 2 8)
  let totalDistance ← real
  let cumulativeDistance ← real
  let speedMin ← nullReal
  let speedAvg ← nullReal
  let speedMax ← nullReal
  let minutesInZone ← nullReal
  pure ⟨mmsi, label, vesselName, shipType, imo, dimBow, dimStern, dimPort, dimStar,
    srcZone, rcvZone, transitNodes, firstSeen, lastSeen, year, month, day, totalDistance,
    cumulativeDistance, speedMin, speedAvg, speedMax, minutesInZone⟩

end EdgeReader

namespace TransitEdge

/-- Reads an edge from the fields of a record, or the reason it cannot be read. -/
def ofFields (fs : List String) : Except String TransitEdge :=
  (EdgeReader.edge.run (0, fs)).map (·.1)

/-- Reads an edge from a record, the reason for a refusal prefixed by the record's
position. -/
def ofRow (r : Csv.Row) : Except String TransitEdge :=
  match ofFields r.fields with
  | .ok e => .ok e
  | .error why =>
    .error ("CSV deserialize error: record " ++ toString r.index ++ " (line: " ++
      toString r.line ++ ", byte: " ++ toString r.byte ++ "): " ++ why)

/-- Whether an edge reads back equal from the text of its record. -/
def roundTrips (e : TransitEdge) : Bool :=
  match Csv.rows e.toRecord with
  | [r] => match ofRow r with
    | .ok e' => e' == e
    | .error _ => false
  | _ => false

end TransitEdge

end Seaway
