import ScrapeConfig.Config.Service
import ScrapeConfig.Options.Printer
import ScrapeConfig.Text.Quoted

/-!
# Dumps of the configuration tree

A dump shows every field with its name, one item per line, four blanks deeper per level, and a
comma behind each. Empty lists and maps stay on one line.
-/

namespace ScrapeConfig

/-- What a dump is made of. -/
inductive Shown where
  | word (text : String)
  | record (name : String) (fields : List (String × Shown))
  | wrapped (name : String) (content : Shown)
  | items (content : List Shown)
  | entries (content : List (String × Shown))

namespace Shown

def margin (depth : Nat) : String := String.ofList (List.replicate (4 * depth) ' ')

mutual

/-- The lines of a part that begins at some place of a line at nesting depth `depth`. -/
def lines (depth : Nat) : Shown → String
  | .word text => text
  | .record name fields =>
    name ++ " \x7b\n" ++ namedLines (depth + 1) fields ++ margin depth ++ "\x7d"
  | .wrapped name content =>
    name ++ "(\n" ++ margin (depth + 1) ++ lines (depth + 1) content ++ ",\n" ++ margin depth ++ ")"
  | .items [] => "[]"
  | .items content => "[\n" ++ itemLines (depth + 1) content ++ margin depth ++ "]"
  | .entries [] => "\x7b\x7d"
  | .entries content => "\x7b\n" ++ namedLines (depth + 1) content ++ margin depth ++ "\x7d"

def itemLines (depth : Nat) : List Shown → String
  | [] => ""
  | d :: ds => margin depth ++ lines depth d ++ ",\n" ++ itemLines depth ds

def namedLines (depth : Nat) : List (String × Shown) → String
  | [] => ""
  | (k, d) :: ds => margin depth ++ k ++ ": " ++ lines depth d ++ ",\n" ++ namedLines depth ds

end

def text (s : String) : Shown := .word (Quoted.encode s)

def optional {α : Type} (write : α → Shown) : Option α → Shown
  | none => .word "None"
  | some a => .wrapped "Some" (write a)

end Shown

mutual

def OptionValue.shown : OptionValue → Shown
  | .boolean b => .wrapped "Boolean" (.word (if b then "true" else "false"))
  | .integer i => .wrapped "Integer" (.word (toString i.toInt))
  | .float x => .wrapped "Float" (.word (x.render .dumped))
  | .string s => .wrapped "String" (.text s)
  | .map m => .wrapped "Map" (.record "OptionsMap" [("entries", .entries m.shownEntries)])

def Options.shownEntries : Options → List (String × Shown)
  | .empty => []
  | .entry k v rest => (Quoted.encode k, v.shown) :: rest.shownEntries

end

def Options.shown (m : Options) : Shown :=
  .record "OptionsMap" [("entries", .entries m.shownEntries)]

def Auth.shown (a : Auth) : Shown :=
  .record "AuthDef" [("auth_type", .text a.scheme), ("options", a.options.shown)]

def Decoder.shown (d : Decoder) : Shown :=
  .record "DecoderDef" [("mode", .text d.mode), ("options", d.options.shown)]

def MetricType.shown : MetricType → Shown
  | .counter => .word "Counter"
  | .gauge => .word "Gauge"
  | .histogram => .word "Histogram"
  | .summary => .word "Summary"

def HttpMethod.shown : HttpMethod → Shown
  | .get => .word "Get"
  | .post => .word "Post"

def ServiceMode.shown : ServiceMode → Shown
  | .restApi => .word "RestApi"
  | .forwardMetrics => .word "ForwardMetrics"

def Metric.shown (m : Metric) : Shown :=
  .record "MetricDef" [("name", .text m.name), ("metric_type", m.type.shown),
    ("description", .text m.description), ("labels", .items (m.labels.map .text)),
    ("path", .optional .text m.path), ("options", m.options.shown)]

def Resource.shown (r : Resource) : Shown :=
  .record "ResourceDef" [("resource_type", r.method.shown), ("resource_uri", .text r.uri),
    ("auth", .optional Auth.shown r.auth), ("decoder", .optional Decoder.shown r.decoder),
    ("metrics", .items (r.metrics.map Metric.shown)), ("options", r.options.shown)]

def Service.shown (s : Service) : Shown :=
  .record "Service" [("name", .text s.name), ("mode", s.mode.shown),
    ("stack", .optional .text s.stack), ("location", .text s.location),
    ("auth", .optional Auth.shown s.auth), ("decoder", .optional Decoder.shown s.decoder),
    ("resources", .items (s.resources.map Resource.shown)),
    ("metrics", .items (s.metrics.map Metric.shown)), ("options", s.options.shown)]

def Configuration.dump (c : Configuration) : String :=
  (Shown.record "RootConfig" [("dataset", .word (if c.dataset then "true" else "false")),
    ("services", .items (c.services.map Service.shown))]).lines 0

end ScrapeConfig
