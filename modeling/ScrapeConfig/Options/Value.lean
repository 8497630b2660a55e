import ScrapeConfig.Decimal.Shortest

/-!
# Option values

An option is a scalar or a map of further options. The entries of a map are kept in ascending order
of their keys, each key once, so that a map has one form only; `insert` and `erase` keep this order.
-/

namespace ScrapeConfig

mutual

inductive OptionValue where
  | boolean (b : Bool)
  | integer (i : Int64)
  | float (x : Binary64)
  | string (s : String)
  | map (m : Options)

inductive Options where
  | empty
  | entry (key : String) (value : OptionValue) (rest : Options)

end

deriving instance DecidableEq for OptionValue, Options

instance : Inhabited OptionValue := ⟨.boolean false⟩

instance : Inhabited Options := ⟨.empty⟩

namespace OptionValue

/-- The kind of value, as error messages name it. -/
def kind : OptionValue → String
  | .boolean _ => "boolean"
  | .integer _ => "integer"
  | .float _ => "float"
  | .string _ => "string"
  | .map _ => "map"

def string? : OptionValue → Option String
  | .string s => some s
  | _ => none

end OptionValue

namespace Options

def get? : Options → String → Option OptionValue
  | .empty, _ => none
  | .entry k v rest, key => if key = k then some v else rest.get? key

/-- Sets `key` to `value`, in place of an older value if there is one. -/
def insert : Options → String → OptionValue → Options
  | .empty, key, value => .entry key value .empty
  | .entry k v rest, key, value =>
    if key = k then .entry key value rest
    else if key < k then .entry key value (.entry k v rest)
    else .entry k v (rest.insert key value)

def erase : Options → String → Options
  | .empty, _ => .empty
  | .entry k v rest, key => if key = k then rest else .entry k v (rest.erase key)

def toList : Options → List (String × OptionValue)
  | .empty => []
  | .entry k v rest => (k, v) :: rest.toList

/-- The map with the given entries; of two with the same key the later one counts. -/
def ofList (entries : List (String × OptionValue)) : Options :=
  entries.foldl (fun m (k, v) => m.insert k v) .empty

def keys (m : Options) : List String := m.toList.map (·.1)

def size (m : Options) : Nat := m.toList.length

def isEmpty : Options → Bool
  | .empty => true
  | .entry .. => false

def contains (m : Options) (key : String) : Bool := (m.get? key).isSome

theorem get?_insert (m : Options) (key : String) (value : OptionValue) (k : String) :
    (m.insert key value).get? k = if k = key then some value else m.get? k := by
  match m with
  | .empty => simp [insert, get?]
  | .entry k' v' rest =>
    have ih := get?_insert rest key value k
    simp only [insert]
    split
    · subst_vars; by_cases h : k = k' <;> simp [get?, h]
    · next differ =>
      split
      · simp [get?]
      · simp only [get?, ih]
        by_cases h : k = k'
        · subst h
          rw [if_pos rfl, if_neg (Ne.symm differ), if_pos rfl]
        · simp [h]

end Options

mutual

/-- Equality of values in which NaN differs from itself and the two zeros are equal. -/
def OptionValue.agrees : OptionValue → OptionValue → Bool
  | .boolean a, .boolean b => a == b
  | .integer a, .integer b => a == b
  | .float a, .float b => a.numEq b
  | .string a, .string b => a == b
  | .map a, .map b => a.agrees b
  | _, _ => false

/-- The same keys, and values that agree. -/
def Options.agrees : Options → Options → Bool
  | .empty, .empty => true
  | .entry k v rest, .entry k' v' rest' => k == k' && v.agrees v' && rest.agrees rest'
  | _, _ => false

end

end ScrapeConfig
