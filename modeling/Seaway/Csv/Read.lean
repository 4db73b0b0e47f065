/-!
# Reading comma-separated records

Text is read into records by a machine of six states, one character at a time. Fields
are separated by commas; a record ends at a carriage return, a line feed, or both in
that order. A field that starts with a double quote runs to the next lone double quote,
commas and line ends included, and a doubled double quote in it stands for one; text
after its closing quote is kept as unquoted text of the same field. Empty lines between
records are skipped. At the end of the text an unfinished record (even an open quoted
field) is a record.

Each record comes with its position: its number from `0`, and the line (from `1`, one
more for every line feed read) and byte offset where reading it began. Reading begins
right after the character that ended the record before, so the skipped empty lines and
the line feed of a carriage-return–line-feed pair belong to the next record.
-/

namespace Seaway

namespace Csv

/-- A record with the position where reading it began. -/
structure Row where
  fields : List String
  index : Nat
  line : Nat
  byte : Nat
  deriving Inhabited, Repr

/-- The states of the reading machine. -/
inductive Scan where
  /-- Before a record; line ends are skipped. -/
  | startRecord
  /-- Before a field of a record. -/
  | startField
  /-- In an unquoted field. -/
  | inField
  /-- In a quoted field. -/
  | inQuoted
  /-- Right after a double quote in a quoted field. -/
  | quoteInQuoted
  /-- Right after a carriage return that ended a record. -/
  | afterReturn
  deriving Inhabited, DecidableEq, Repr

/-- The machine with what it has read. -/
structure Reader where
  state : Scan := .startRecord
  /-- The current field's characters, last first. -/
  field : List Char := []
  /-- The current record's fields, last first. -/
  fields : List String := []
  line : Nat := 1
  byte : Nat := 0
  /-- Line and byte offset where reading the current record began. -/
  start : Nat × Nat := (1, 0)
  /-- The records read, last first. -/
  rows : List Row := []
  deriving Inhabited

namespace Reader

/-- Whether a character ends a record. -/
def isLineEnd (c : Char) : Bool := c == '\r' || c == '\n'

/-- Ends the current field. -/
def endField (k : Reader) : Reader :=
  { k with fields := String.ofList k.field.reverse :: k.fields, field := [] }

/-- Ends the current record at the line end `c`, just read. -/
def endRecord (k : Reader) (c : Char) : Reader :=
  let k := k.endField
  { k with
    state := if c == '\r' then .afterReturn else .startRecord
    rows := ⟨k.fields.reverse, k.rows.length, k.start.1, k.start.2⟩ :: k.rows
    fields := []
    start := (k.line, k.byte) }

/-- Adds a character to the current field. -/
def keep (k : Reader) (s : Scan) (c : Char) : Reader :=
  { k with state := s, field := c :: k.field }

/-- Reads `c` at the start of a field. -/
def atField (k : Reader) (c : Char) : Reader :=
  if c == '"' then { k with state := .inQuoted }
  else if c == ',' then { k.endField with state := .startField }
  else if isLineEnd c then k.endRecord c
  else k.keep .inField c

/-- Reads `c` before a record. -/
def atRecord (k : Reader) (c : Char) : Reader :=
  if isLineEnd c then { k with state := .startRecord } else k.atField c

/-- Reads one character. -/
def step (k : Reader) (c : Char) : Reader :=
  let k := { k with
    byte := k.byte + c.utf8Size
    line := if c == '\n' then k.line + 1 else k.line }
  match k.state with
  | .startRecord => k.atRecord c
  | .startField => k.atField c
  | .inField =>
    if c == ',' then { k.endField with state := .startField }
    else if isLineEnd c then k.endRecord c
    else k.keep .inField c
  | .inQuoted => if c == '"' then { k with state := .quoteInQuoted } else k.keep .inQuoted c
  | .quoteInQuoted =>
    if c == '"' then k.keep .inQuoted c
    else if c == ',' then { k.endField with state := .startField }
    else if isLineEnd c then k.endRecord c
    else k.keep .inField c
  | .afterReturn => if c == '\n' then { k with state := .startRecord } else k.atRecord c

/-- The records read, ending an unfinished one. -/
def finish (k : Reader) : List Row :=
  match k.state with
  | .startRecord | .afterReturn => k.rows.reverse
  | _ => (k.endRecord '\n').rows.reverse

end Reader

/-- The records of a text, in order. -/
def rows (text : String) : List Row :=
  (text.toList.foldl Reader.step {}).finish

end Csv

end Seaway
