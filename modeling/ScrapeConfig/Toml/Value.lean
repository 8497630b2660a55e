import ScrapeConfig.Options.Store
import ScrapeConfig.Toml.Reader

/-!
# TOML values

A TOML table keeps its entries in ascending order of their keys, each key once. A table is a store
of options: scalars and tables are option values, while an array or a date and time anywhere inside
a value makes it unreadable as one.

`toDatum` presents a date or time as an object with a single field, and `ofDatum?` takes any object
that begins with this field for a date or time.
-/

namespace ScrapeConfig.Toml

mutual

inductive Value where
  | string (s : String)
  | integer (i : Int64)
  | float (x : Binary64)
  | boolean (b : Bool)
  /-- A date, a time or both, as canonical text. -/
  | datetime (text : String)
  | array (items : Items)
  | table (t : Table)

inductive Items where
  | nil
  | cons (first : Value) (rest : Items)

inductive Table where
  | empty
  | entry (key : String) (value : Value) (rest : Table)

end

deriving instance DecidableEq for Value, Items, Table

instance : Inhabited Value := ⟨.boolean false⟩

instance : Inhabited Table := ⟨.empty⟩

namespace Items

def toList : Items → List Value
  | .nil => []
  | .cons v vs => v :: vs.toList

end Items

namespace Table

def get? : Table → String → Option Value
  | .empty, _ => none
  | .entry k v rest, key => if key = k then some v else rest.get? key

def insert : Table → String → Value → Table
  | .empty, key, value => .entry key value .empty
  | .entry k v rest, key, value =>
    if key = k then .entry key value rest
    else if key < k then .entry key value (.entry k v rest)
    else .entry k v (rest.insert key value)

def toList : Table → List (String × Value)
  | .empty => []
  | .entry k v rest => (k, v) :: rest.toList

def keys (t : Table) : List String := t.toList.map (·.1)

def contains (t : Table) (key : String) : Bool := (t.get? key).isSome

end Table

mutual

/-- The option value of a TOML value; otherwise the kind of the first value inside it that is
none. -/
def Value.toOption : Value → Except String OptionValue
  | .string s => .ok (.string s)
  | .integer i => .ok (.integer i)
  | .float x => .ok (.float x)
  | .boolean b => .ok (.boolean b)
  | .table t => t.toOptions.map .map
  | .array _ => .error "array"
  | .datetime _ => .error "datetime"

def Table.toOptions : Table → Except String Options
  | .empty => .ok .empty
  | .entry k v rest => do
    let value ← v.toOption
    let m ← rest.toOptions
    return m.insert k value

end

mutual

def Value.ofOption : OptionValue → Value
  | .boolean b => .boolean b
  | .integer i => .integer i
  | .float x => .float x
  | .string s => .string s
  | .map m => .table (Table.ofOptions m)

def Table.ofOptions : Options → Table
  | .empty => .empty
  | .entry k v rest => (Table.ofOptions rest).insert k (Value.ofOption v)

end

instance : OptionStore Table where
  getObject t key := match t.get? key with
    | none => .error (.notFound key)
    | some v => match v.toOption with
      | .ok value => .ok value
      | .error found => .error (.invalidType key "scalar or table" found)
  setObject t key value := (t.contains key, t.insert key (Value.ofOption value))
  keys := Table.keys

mutual

/-- A TOML value as data. A date or time becomes an object with a single field. -/
def Value.toDatum : Value → Datum
  | .string s => .str s
  | .integer i => .int i.toInt
  | .float x => .float x
  | .boolean b => .bool b
  | .datetime text => .obj [(datetimeField, .str text)]
  | .array items => .arr items.toData
  | .table t => .obj t.toFields

def Items.toData : Items → List Datum
  | .nil => []
  | .cons v vs => v.toDatum :: vs.toData

def Table.toFields : Table → List (String × Datum)
  | .empty => []
  | .entry k v rest => (k, v.toDatum) :: rest.toFields

end

def Table.toDatum (t : Table) : Datum := .obj t.toFields

/-- Whether an object stands for a date or time. -/
def presentsDatetime (fields : List (String × Datum)) : Bool :=
  fields.head?.any (·.1 == datetimeField)

/-- The date or time that an object stands for. -/
def datetimeOfFields? : List (String × Datum) → Option Value
  | (_, .str text) :: _ =>
    (presentedDatetime text.toList).map fun cs => .datetime (String.ofList cs)
  | _ => none

mutual

/-- A datum as a TOML value. -/
def Value.ofDatum? : Datum → Option Value
  | .null => none
  | .bool b => some (.boolean b)
  | .int i =>
    if Int64.minValue.toInt ≤ i ∧ i ≤ Int64.maxValue.toInt then some (.integer (Int64.ofInt i))
    else none
  | .float x => some (.float x)
  | .str s => some (.string s)
  | .arr items => (Items.ofData? items).map .array
  | .obj fields =>
    if presentsDatetime fields then datetimeOfFields? fields
    else (Table.ofFields? fields).map .table
  | .unreadable => none

def Items.ofData? : List Datum → Option Items
  | [] => some .nil
  | d :: ds => do
    let first ← Value.ofDatum? d
    let rest ← Items.ofData? ds
    return .cons first rest

def Table.ofFields? : List (String × Datum) → Option Table
  | [] => some .empty
  | (k, d) :: fields => do
    let value ← Value.ofDatum? d
    let rest ← Table.ofFields? fields
    return rest.insert k value

end

/-- An object as a table; it is one even if it begins like a date or time. -/
def Table.ofDatum? : Datum → Option Table
  | .obj fields => Table.ofFields? fields
  | _ => none

/-- The table that a text stands for; none if it is no TOML. -/
def Table.ofToml? (text : String) : Option Table := do
  Table.ofDatum? (← Datum.ofToml? text)

end ScrapeConfig.Toml
