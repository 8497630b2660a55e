import ScrapeConfig.Options.Value

/-!
# Stores of options

A store is anything that option values can be read from and written to by key. Reading strings,
copying and merging are expressed by these primitives, so they behave alike for every store.
-/

namespace ScrapeConfig

/-- Why a value can not be read from a store. -/
inductive StoreError where
  | notFound (key : String)
  | invalidType (key expected found : String)
  deriving DecidableEq, Repr

def StoreError.message : StoreError → String
  | .notFound key => s!"Key not found: {key}"
  | .invalidType key expected found =>
    s!"Invalid type for key {key}: expected {expected}, found {found}"

class OptionStore (σ : Type) where
  /-- The value of a key. -/
  getObject : σ → String → Except StoreError OptionValue
  /-- Sets the value of a key and tells whether it had one before. -/
  setObject : σ → String → OptionValue → Bool × σ
  /-- All keys in ascending order. -/
  keys : σ → List String

namespace OptionStore

variable {σ δ : Type} [OptionStore σ] [OptionStore δ]

def getString (s : σ) (key : String) : Except StoreError String :=
  match getObject s key with
  | .error e => .error e
  | .ok (.string text) => .ok text
  | .ok v => .error (.invalidType key "string" v.kind)

def setString (s : σ) (key text : String) : Bool × σ :=
  setObject s key (.string text)

/-- Copies the values of the given keys from `src` to `dst`, up to the first that can not be read.
The store returned holds what was copied until then. -/
def copyKeys (src : σ) : List String → δ → Option StoreError × δ
  | [], dst => (none, dst)
  | key :: rest, dst => match getObject src key with
    | .error e => (some e, dst)
    | .ok value => copyKeys src rest (setObject dst key value).2

/-- Overrides values of `dst` by those of `src`. -/
def mergeInto (dst : δ) (src : σ) : Option StoreError × δ :=
  copyKeys src (keys src) dst

end OptionStore

instance : OptionStore Options where
  getObject m key := match m.get? key with
    | some v => .ok v
    | none => .error (.notFound key)
  setObject m key value := (m.contains key, m.insert key value)
  keys := Options.keys

namespace OptionStore

variable {α β : Type} [OptionStore α] [OptionStore β]

/-- All values of a store as a map of options. -/
def clone (s : α) : Except StoreError Options :=
  match mergeInto Options.empty s with
  | (none, m) => .ok m
  | (some e, _) => .error e

/-- The values of both stores; those of `b` override those of `a`. -/
def merge (a : α) (b : β) : Except StoreError Options :=
  match mergeInto Options.empty a with
  | (some e, _) => .error e
  | (none, m) => match mergeInto m b with
    | (some e, _) => .error e
    | (none, m) => .ok m

end OptionStore

end ScrapeConfig
