import ScrapeConfig.Config.Data
import ScrapeConfig.Config.Validation
import ScrapeConfig.Datum.Reader
import ScrapeConfig.Files.Folder
import ScrapeConfig.Toml.Reader

/-!
# Configurations and options in JSON and TOML text

The text is read as data first, and the data as a tree.
-/

namespace ScrapeConfig

namespace Options

def ofJson? (text : String) : Option Options := do
  ofDatum? (← Datum.ofJson? text)

def ofToml? (text : String) : Option Options := do
  ofDatum? (← Datum.ofToml? text)

end Options

namespace Configuration

/-- The tree that JSON text stands for, not validated. -/
def ofJson? (text : String) : Option Configuration := do
  ofDatum? .json (← Datum.ofJson? text)

/-- The tree that TOML text stands for, not validated. -/
def ofToml? (text : String) : Option Configuration := do
  ofDatum? .toml (← Datum.ofToml? text)

/-- The valid tree that TOML text stands for. -/
def load (text : String) : Except ConfigError Configuration := do
  match ofToml? text with
  | none => .error (.parse "not the text of a configuration")
  | some c =>
    c.validate Location.reason?
    return c

/-- The valid tree in a TOML file. -/
def loadFile (path : String) (contents : Contents) : Except ConfigError Configuration := do
  load (← contents.text.mapError fun fault => .read path fault.message)

end Configuration

end ScrapeConfig
