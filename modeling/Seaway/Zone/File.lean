import Seaway.Zone.Domain
import Seaway.Folder
import Seaway.Decimal.Read

/-!
# Zone files

A zone file lists the exterior's vertices as `lon,lat` values separated by commas and
line breaks, for example `-41,60,-41,61` and `-40,61,-40,60` on two lines. Tokens are
trimmed of blanks and empty ones skipped, so trailing separators and blank lines are
accepted; every other token must read as a double, and their number must be even. The
zone's name is the file's stem.

A folder of zones is read from its files whose extension is exactly `txt`, in name
order; the first file that fails decides the failure.
-/

namespace Seaway

namespace ZoneFile

/-- Whether a character separates tokens: a comma, a line feed or a carriage return. -/
def isSeparator (c : Char) : Bool := c = ',' ∨ c = '\n' ∨ c = '\r'

/-- The pieces of a character list between separators, empty pieces included. -/
def pieces : List Char → List (List Char)
  | [] => [[]]
  | c :: rest =>
    if isSeparator c then [] :: pieces rest
    else match pieces rest with
      | p :: ps => (c :: p) :: ps
      | [] => [[c]]

/-- The tokens of a zone file: split at separators, trimmed, empty ones dropped. -/
def tokens (content : String) : List String :=
  ((pieces content.toList).map fun cs => Text.trim (String.ofList cs)).filter (!·.isEmpty)

/-- The longitudes and latitudes of a zone file, alternating in its tokens. -/
def vertices (path content : String) : Except Fault (List Float × List Float) := do
  let vals ← (tokens content).mapM fun tok =>
    match Decimal.readFloat? tok with
    | some v => pure v
    | none => throw (.zoneFile path s!"'{tok}': invalid float literal")
  if vals.length % 2 ≠ 0 then
    throw (.zoneFile path ("odd number of coordinate values (" ++
      toString vals.length ++ ")"))
  pure (pairs vals)
where
  pairs : List Float → List Float × List Float
    | x :: y :: rest => let (xs, ys) := pairs rest; (x :: xs, y :: ys)
    | _ => ([], [])

/-- A zone from a zone file, named by the file's stem. -/
def zone (path name content : String) : Except Fault Zone := do
  let (xs, ys) ← vertices path content
  Zone.ofCoords (splitName name).1 xs ys

/-- The zones of a folder's `txt` files, in name order. -/
def load (f : Folder) : Except Fault (List Zone) :=
  (f.files.filter fun (n, _) => (splitName n).2 = some "txt").mapM fun (n, c) =>
    zone (f.pathOf n) n c

end ZoneFile

/-- A domain of the zones in a folder's `txt` files. -/
def Domain.ofFolder (name : String) (f : Folder) : Except Fault Domain := do
  Domain.new name (← ZoneFile.load f)

end Seaway
