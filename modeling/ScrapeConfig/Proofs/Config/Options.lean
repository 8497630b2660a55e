import ScrapeConfig.Config.Service

/-!
# The options of a tree

Services, resources, metrics, auths and decoders have options each. `Configuration.AllOptions` says
something of all of them.
-/

namespace ScrapeConfig

variable (P : Options → Prop)

/-- The options of a resource and of its parts. -/
structure Resource.AllOptions (r : Resource) : Prop where
  auth : ∀ a ∈ r.auth, P a.options
  decoder : ∀ d ∈ r.decoder, P d.options
  metrics : ∀ m ∈ r.metrics, P m.options
  options : P r.options

/-- The options of a service and of its parts. -/
structure Service.AllOptions (s : Service) : Prop where
  auth : ∀ a ∈ s.auth, P a.options
  decoder : ∀ d ∈ s.decoder, P d.options
  resources : ∀ r ∈ s.resources, r.AllOptions P
  metrics : ∀ m ∈ s.metrics, P m.options
  options : P s.options

/-- All options of a configuration. -/
def Configuration.AllOptions (c : Configuration) : Prop := ∀ s ∈ c.services, s.AllOptions P

end ScrapeConfig
