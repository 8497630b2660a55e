import ScrapeConfig.Datum.Basic
import ScrapeConfig.Options.Value
import ScrapeConfig.Text.Quoted

/-!
# Writing option values

`text` is a value in messages: strings are quoted, the entries of a map stand between
braces in the order of their keys. `toDatum` is the value as data.
-/

namespace ScrapeConfig

mutual

def OptionValue.text : OptionValue → String
  | .boolean b => if b then "true" else "false"
  | .integer i => toString i.toInt
  | .float x => x.render .shown
  | .string s => Quoted.encode s
  | .map m => "\x7b" ++ m.entriesText ++ "\x7d"

def Options.entriesText : Options → String
  | .empty => ""
  | .entry k v .empty => k ++ ": " ++ v.text
  | .entry k v rest => k ++ ": " ++ v.text ++ ", " ++ rest.entriesText

end

mutual

def OptionValue.toDatum : OptionValue → Datum
  | .boolean b => .bool b
  | .integer i => .int i.toInt
  | .float x => .float x
  | .string s => .str s
  | .map m => .obj m.toFields

def Options.toFields : Options → List (String × Datum)
  | .empty => []
  | .entry k v rest => (k, v.toDatum) :: rest.toFields

end

def Options.toDatum (m : Options) : Datum := .obj m.toFields

end ScrapeConfig
