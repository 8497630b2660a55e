import ScrapeConfig.Decimal.Shortest

/-!
# Structured data

The value model of JSON text, which the configuration tree is written to and read from. Whole
numbers and floating point numbers are kept apart; the fields of an object keep their order, and a
name may occur twice.
-/

namespace ScrapeConfig

inductive Datum where
  | null
  | bool (b : Bool)
  | int (i : Int)
  | float (x : Binary64)
  | str (s : String)
  | arr (items : List Datum)
  | obj (fields : List (String × Datum))
  /-- Well-formed text that stands for no value, such as a number out of range. Whoever reads it
  refuses it, but it may be passed over. -/
  | unreadable
  deriving Inhabited

end ScrapeConfig
