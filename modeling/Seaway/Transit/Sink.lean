import Seaway.Transit.Record
import Seaway.Folder

/-!
# Edge artifacts and their aggregation

The edges of each vessel are appended, as records without a header, to one file of a
scratch folder named after the vessel's MMSI written with at least nine digits. The
artifacts of a folder are its files whose names are non-empty and all ASCII digits.

Aggregation reads every artifact, in name order, and writes one table: the header, then
each record that no filter rejects, written anew from the edge read. Within one artifact
every record must have as many fields as its first; the first record that does not, or
that is not an edge, stops the aggregation. Artifacts may be removed once read.
-/

namespace Seaway

/-- A rule that rejects edges at aggregation: any predicate on edges. -/
def EdgeFilter : Type := TransitEdge → Bool

namespace EdgeFilter

/-- Rejects edges whose receiving zone is unknown. -/
def isOpen : EdgeFilter := TransitEdge.isOpen

/-- Rejects edges over a single position. -/
def single : EdgeFilter := TransitEdge.isSingle

/-- Rejects edges whose largest speed is known and above a value. -/
def speedAbove (knots : Float) : EdgeFilter := fun e => e.speedMax.any (knots < ·)

/-- Rejects edges leaving a zone. -/
def source (zone : String) : EdgeFilter := fun e => e.srcZone == zone

/-- Rejects edges entering a zone. -/
def receiver (zone : String) : EdgeFilter := fun e => e.rcvZone == some zone

/-- Rejects the edges of a vessel. -/
def vessel (mmsi : Nat) : EdgeFilter := fun e => e.mmsi == mmsi

end EdgeFilter

/-- Counts of an aggregation. -/
structure AggregateSummary where
  artifacts : Nat := 0
  rowsWritten : Nat := 0
  rowsFiltered : Nat := 0
  deriving Inhabited, BEq, Repr

namespace EdgeSink

/-- The artifact name of a vessel: its MMSI with at least nine digits. -/
def artifactName (mmsi : Nat) : String :=
  let s := toString mmsi
  String.ofList (List.replicate (9 - s.length) '0') ++ s

/-- Whether a file name is an artifact's: non-empty, ASCII digits only. -/
def isArtifactName (name : String) : Bool :=
  !name.isEmpty && name.all Char.isDigit

/-- The text of a failure to open a folder as a file. -/
def isFolderText : String := "Is a directory (os error 21)"

/-- Appends edges to a vessel's artifact, creating it when missing; gives the folder and
the number of edges written. Nothing is touched for no edges. Refused when the artifact's
name is taken by a subfolder. -/
def append (f : Folder) (mmsi : Nat) (edges : List TransitEdge) :
    Except Fault (Folder × Nat) :=
  let name := artifactName mmsi
  if edges.isEmpty then .ok (f, 0)
  else if f.entries.any (· == (name, .folder)) then .error (.io isFolderText)
  else .ok (f.append name (String.join (edges.map TransitEdge.toRecord)), edges.length)

/-- The artifacts of a folder with their texts, in name order. -/
def artifacts (f : Folder) : List (String × String) :=
  f.files.filter fun (n, _) => isArtifactName n

/-- The text of a record-count mismatch. -/
def unequalText (r : Csv.Row) (expected : Nat) : String :=
  "CSV error: record " ++ toString r.index ++ " (line: " ++ toString r.line ++ ", byte: " ++
    toString r.byte ++ "): found record with " ++ toString r.fields.length ++
    " fields, but the previous record has " ++ toString expected ++ " fields"

/-- Reads the edges of one artifact's text, each checked against the first record's field
count. -/
def readEdges (text : String) : Except Fault (List TransitEdge) :=
  let rows := Csv.rows text
  let width := (rows.head?.map (·.fields.length)).getD 0
  rows.mapM fun r =>
    if r.fields.length ≠ width then .error (.csv (unequalText r width))
    else match TransitEdge.ofRow r with
      | .ok e => .ok e
      | .error why => .error (.csv why)

/-- Aggregates the artifacts of a folder into one table, rejecting the edges that any
filter rejects; removes the artifacts when asked. Gives the table, the counts and the
folder. Refused when the folder has no artifact. -/
def aggregate (f : Folder) (filters : List EdgeFilter) (removeArtifacts : Bool) :
    Except Fault (String × AggregateSummary × Folder) := do
  let arts := artifacts f
  if arts.isEmpty then throw (.noArtifacts f.path)
  arts.foldlM (fun (out, sum, g) (name, text) => do
      let edges ← readEdges text
      let kept := edges.filter fun e => !filters.any fun f => f e
      pure (out ++ String.join (kept.map TransitEdge.toRecord),
        { sum with
          rowsWritten := sum.rowsWritten + kept.length
          rowsFiltered := sum.rowsFiltered + (edges.length - kept.length) },
        if removeArtifacts then g.remove name else g))
    (TransitEdge.header, { artifacts := arts.length }, f)

end EdgeSink

end Seaway
