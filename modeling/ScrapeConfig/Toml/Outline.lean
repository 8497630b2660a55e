import ScrapeConfig.Datum.Basic

/-!
# Tables under construction

TOML text is a list of statements: headers, which open a table, and assignments to the table that
was opened last. While they are carried out, each table remembers how it came about, since that
decides what may still be added to it.
-/

namespace ScrapeConfig.Toml

/-- How a table came about. -/
inductive Origin where
  /-- By its own header. -/
  | header
  /-- As part of a longer path in a header. -/
  | path
  /-- As part of a dotted key. -/
  | dotted
  deriving DecidableEq

inductive Node where
  | value (v : Datum)
  /-- The entries of a table, last one first. -/
  | table (origin : Origin) (entries : List (String × Node))
  /-- An array of tables, last one first. -/
  | tables (items : List (List (String × Node)))

instance : Inhabited Node := ⟨.table .header []⟩

abbrev Entries := List (String × Node)

mutual

/-- A node as data, with entries in the order in which they were made. -/
def Node.toDatum : Node → Datum
  | .value v => v
  | .table _ entries => .obj (entriesFields entries [])
  | .tables items => .arr (tablesData items [])

/-- The fields of a table in front of `tail`. -/
def entriesFields : List (String × Node) → List (String × Datum) → List (String × Datum)
  | [], tail => tail
  | (k, n) :: rest, tail => entriesFields rest ((k, n.toDatum) :: tail)

/-- The tables of an array in front of `tail`. -/
def tablesData : List (List (String × Node)) → List Datum → List Datum
  | [], tail => tail
  | entries :: rest, tail => tablesData rest (.obj (entriesFields entries []) :: tail)

end

namespace Entries

def get? (es : Entries) (key : String) : Option Node := (es.find? (·.1 == key)).map (·.2)

def set (es : Entries) (key : String) (n : Node) : Entries :=
  if es.any (·.1 == key) then es.map fun e => if e.1 == key then (key, n) else e
  else (key, n) :: es

/-- Applies `change` to the table at the end of a path; missing tables on the way are made with
the origin `made`. In an array of tables the path goes on in the last one. -/
def descend (made : Origin) (change : Origin → Entries → Option Entries) :
    List String → Origin → Entries → Option Entries
  | [], origin, es => change origin es
  | key :: path, _, es =>
    match es.get? key with
    | none => (descend made change path made []).map fun sub => es.set key (.table made sub)
    | some (.table origin sub) =>
      if made = .dotted ∧ origin = .header then none
      else (descend made change path origin sub).map fun sub => es.set key (.table origin sub)
    | some (.tables (last :: others)) =>
      (descend made change path .header last).map fun last => es.set key (.tables (last :: others))
    | some _ => none

/-- Adds a value under a new dotted key. The tables on the way come about by dotted keys alone. -/
def assign (path : List String) (key : String) (v : Datum) : Origin → Entries → Option Entries :=
  descend .dotted (fun origin es =>
    if (origin = .dotted ↔ path = []) ∨ (es.get? key).isSome then none
    else some (es.set key (.value v))) path

/-- Opens a table that has no header yet and holds no dotted keys. It moves behind the other entries
if it was there already. -/
def openTable (key : String) (_ : Origin) (es : Entries) : Option Entries :=
  match es.get? key with
  | none => some (es.set key (.table .header []))
  | some (.table .path sub) => some ((key, .table .header sub) :: es.filter (·.1 != key))
  | _ => none

/-- Appends an empty table to an array of tables, which may be new. -/
def openItem (key : String) (_ : Origin) (es : Entries) : Option Entries :=
  match es.get? key with
  | none => some (es.set key (.tables [[]]))
  | some (.tables items) => some (es.set key (.tables ([] :: items)))
  | _ => none

end Entries

/-- A key with at least one part: the parts before the last one, and the last one. -/
structure DottedKey where
  path : List String
  last : String

def DottedKey.parts (k : DottedKey) : List String := k.path ++ [k.last]

inductive Statement where
  | table (key : DottedKey)
  | item (key : DottedKey)
  | assign (key : DottedKey) (v : Datum)

/-- What has been built, and the table that is open. -/
structure Outline where
  entries : Entries := []
  current : List String := []

namespace Outline

def run (o : Outline) : Statement → Option Outline
  | .table k =>
    (Entries.descend .path (Entries.openTable k.last) k.path .header o.entries).map
      fun es => ⟨es, k.parts⟩
  | .item k =>
    (Entries.descend .path (Entries.openItem k.last) k.path .header o.entries).map
      fun es => ⟨es, k.parts⟩
  | .assign k v =>
    (Entries.descend .path (Entries.assign k.path k.last v) o.current .header o.entries).map
      fun es => { o with entries := es }

end Outline

/-- The table that statements make, as data; none if they contradict each other. -/
def tableOfStatements? (statements : List Statement) : Option Datum :=
  (statements.foldlM Outline.run {}).map fun o => .obj (entriesFields o.entries [])

/-- The table that is written inline by assignments, as data. -/
def tableOfAssignments? (assignments : List (DottedKey × Datum)) : Option Datum :=
  tableOfStatements? (assignments.map fun (k, v) => .assign k v)

end ScrapeConfig.Toml
