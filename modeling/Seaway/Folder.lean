/-!
# Folders as values

The library reads zone files from a folder and keeps record files in one. A folder is a
value here: its path (used only in messages) and its entries, each a file with its text
or a subfolder. Entries are kept in the order they were created; listings that the
library depends on are sorted by name, which for UTF-8 names is the order of their
bytes.
-/

namespace Seaway

/-- What a folder entry is: a file with its text, or a subfolder. -/
inductive Entry where
  | file (content : String)
  | folder
  deriving Inhabited, BEq, Repr

/-- A folder: its path and its named entries. -/
structure Folder where
  path : String
  entries : List (String × Entry) := []
  deriving Inhabited

namespace Folder

/-- The files of a folder with their texts, sorted by name. -/
def files (f : Folder) : List (String × String) :=
  (f.entries.filterMap fun (n, e) => match e with
    | .file c => some (n, c)
    | .folder => none).mergeSort fun a b => decide (a.1 ≤ b.1)

/-- The text of a file, if the folder has a file of that name. -/
def read? (f : Folder) (name : String) : Option String :=
  f.entries.findSome? fun (n, e) => match e with
    | .file c => if n = name then some c else none
    | .folder => none

/-- Whether the folder has an entry of that name. -/
def has (f : Folder) (name : String) : Bool :=
  f.entries.any (·.1 = name)

/-- The folder with a file set to a text, replacing an entry of that name or adding one
at the end. -/
def write (f : Folder) (name content : String) : Folder :=
  if f.has name then
    { f with entries := f.entries.map fun (n, e) =>
        if n = name then (n, .file content) else (n, e) }
  else { f with entries := f.entries ++ [(name, .file content)] }

/-- The folder with text appended to a file, which is created when missing. -/
def append (f : Folder) (name content : String) : Folder :=
  f.write name ((f.read? name).getD "" ++ content)

/-- The folder without the entry of that name. -/
def remove (f : Folder) (name : String) : Folder :=
  { f with entries := f.entries.filter (·.1 ≠ name) }

/-- The path of an entry. -/
def pathOf (f : Folder) (name : String) : String := f.path ++ "/" ++ name

end Folder

/-- A file name split at its last dot into stem and extension. A name without a dot, or
whose only dot is its first character, is all stem and has no extension. -/
def splitName (name : String) : String × Option String :=
  let cs := name.toList
  match (cs.reverse.span (· ≠ '.')) with
  | (_, []) => (name, none)
  | (after, _ :: before) =>
    if before.isEmpty then (name, none)
    else (String.ofList before.reverse, some (String.ofList after.reverse))

end Seaway
