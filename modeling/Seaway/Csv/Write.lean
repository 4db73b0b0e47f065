/-!
# Writing comma-separated records

A record is its fields joined by commas and ended by a line feed. A field holding a
comma, a double quote, a carriage return or a line feed is written between double
quotes with each of its double quotes doubled; other fields are written as they are.
A record of one empty field is written as `""`, so that it is not read back as an empty
line.
-/

namespace Seaway

namespace Csv

/-- Whether a field must be quoted. -/
def needsQuotes (s : String) : Bool :=
  s.any fun c => c == ',' || c == '"' || c == '\n' || c == '\r'

/-- A field as written in a record. -/
def quoteField (s : String) : String :=
  if needsQuotes s then "\"" ++ String.ofList (s.toList.flatMap fun c =>
    if c == '"' then ['"', '"'] else [c]) ++ "\""
  else s

/-- A record as written, line feed included. -/
def record (fields : List String) : String :=
  match fields with
  | [""] => "\"\"\n"
  | _ => ",".intercalate (fields.map quoteField) ++ "\n"

end Csv

end Seaway
