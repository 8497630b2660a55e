import ScrapeConfig.Proofs.Document.Evaluation

/-!
# Configurations that documents can express

A document has texts between double quotes, and every option that it sets is a text. The options
`mode` and `location` of a service become its fields, so none are left under these keys.

Results:
1. `Configuration.Expressible` and its parts.
2. `Auth.Expressible.copied_eq`, `Service.Expressible.copied_eq`: copies of what can be expressed are
   equal to it.
-/

namespace ScrapeConfig

/-- The text can stand between double quotes. -/
def Quotable (text : String) : Prop := '"' ∉ text.toList

instance : DecidablePred Quotable := fun text => inferInstanceAs (Decidable ('"' ∉ text.toList))

/-- A map of options as maps are built: the keys are in order. All values are texts. -/
structure Options.Expressible (m : Options) : Prop where
  ordered : m.Ordered
  entries : ∀ e ∈ m.toList, Quotable e.1 ∧ ∃ text, e.2 = .string text ∧ Quotable text

structure Auth.Expressible (a : Auth) : Prop where
  scheme : Quotable a.scheme
  options : a.options.Expressible

structure Decoder.Expressible (d : Decoder) : Prop where
  mode : Quotable d.mode
  options : d.options.Expressible

structure Metric.Expressible (m : Metric) : Prop where
  name : Quotable m.name
  description : Quotable m.description
  labels : ∀ l ∈ m.labels, Quotable l
  path : ∀ p ∈ m.path, Quotable p
  options : m.options.Expressible

structure Resource.Expressible (r : Resource) : Prop where
  uri : Quotable r.uri
  auth : ∀ a ∈ r.auth, a.Expressible
  decoder : ∀ d ∈ r.decoder, d.Expressible
  metrics : ∀ m ∈ r.metrics, m.Expressible
  options : r.options.Expressible

structure Service.Expressible (s : Service) : Prop where
  name : Quotable s.name
  stack : ∀ t ∈ s.stack, Quotable t
  location : Quotable s.location
  auth : ∀ a ∈ s.auth, a.Expressible
  decoder : ∀ d ∈ s.decoder, d.Expressible
  resources : ∀ r ∈ s.resources, r.Expressible
  metrics : ∀ m ∈ s.metrics, m.Expressible
  options : s.options.Expressible
  noMode : s.options.get? "mode" = none
  noLocation : s.options.get? "location" = none

def Configuration.Expressible (c : Configuration) : Prop := ∀ s ∈ c.services, s.Expressible

/-! ## Copies -/

theorem Resource.Expressible.allOrdered {r : Resource} (h : r.Expressible) :
    r.AllOptions Options.Ordered :=
  ⟨fun a ha => (h.auth a ha).options.ordered, fun d hd => (h.decoder d hd).options.ordered,
    fun m hm => (h.metrics m hm).options.ordered, h.options.ordered⟩

theorem Service.Expressible.allOrdered {s : Service} (h : s.Expressible) :
    s.AllOptions Options.Ordered :=
  ⟨fun a ha => (h.auth a ha).options.ordered, fun d hd => (h.decoder d hd).options.ordered,
    fun r hr => (h.resources r hr).allOrdered, fun m hm => (h.metrics m hm).options.ordered,
    h.options.ordered⟩

theorem Auth.Expressible.copied_eq {a : Auth} (h : a.Expressible) : a.copied = a :=
  Auth.copied_eq h.options.ordered

theorem Service.Expressible.copied_eq {s : Service} (h : s.Expressible) : s.copied = s :=
  Service.copied_eq h.allOrdered

end ScrapeConfig
