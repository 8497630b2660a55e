import ScrapeConfig.Proofs.Config.Options
import ScrapeConfig.Proofs.Options.WellFormed

/-!
# Copies of the parts of a tree

Services, resources, metrics, auths and decoders are copied field by field, and their options go
through the interface of stores: each value is read under its key and set in an empty map. What can be
listed can be read, so that copying never fails; and a map whose keys are in order, as maps are built,
is put together again as it was.

Results:
1. `Service.copy_eq_ok` and its like, one for each part: copying never fails.
2. `Service.copied_eq` and its like: what is copied is equal to the part.
3. `Service.copies_identical`: both of them, for all parts.
-/

namespace ScrapeConfig

open OptionStore (clone_eq_ok)

/-! ## What is copied -/

def Options.cloned (m : Options) : Options := .overlay .empty m

def Auth.copied (a : Auth) : Auth := { a with options := a.options.cloned }

def Decoder.copied (d : Decoder) : Decoder := { d with options := d.options.cloned }

def Metric.copied (m : Metric) : Metric := { m with options := m.options.cloned }

def Resource.copied (r : Resource) : Resource :=
  { r with
    auth := r.auth.map Auth.copied
    decoder := r.decoder.map Decoder.copied
    metrics := r.metrics.map Metric.copied
    options := r.options.cloned }

def Service.copied (s : Service) : Service :=
  { s with
    auth := s.auth.map Auth.copied
    decoder := s.decoder.map Decoder.copied
    resources := s.resources.map Resource.copied
    metrics := s.metrics.map Metric.copied
    options := s.options.cloned }

section

variable {α : Type} {copy : α → Except StoreError α} {copied : α → α}

theorem mapM_option_eq_ok (h : ∀ a, copy a = .ok (copied a)) (o : Option α) :
    o.mapM copy = .ok (o.map copied) := by
  cases o with
  | none => rfl
  | some a =>
    show (do return some (← copy a)) = _
    rw [h]
    rfl

theorem mapM_list_eq_ok (h : ∀ a, copy a = .ok (copied a)) (as : List α) :
    as.mapM copy = .ok (as.map copied) := by
  induction as with
  | nil => rfl
  | cons a as ih =>
    rw [List.mapM_cons, h, ih]
    rfl

theorem map_option_eq {o : Option α} (h : ∀ a ∈ o, copied a = a) : o.map copied = o := by
  cases o with
  | none => rfl
  | some a => rw [Option.map_some, h a rfl]

theorem map_list_eq {xs : List α} (h : ∀ a ∈ xs, copied a = a) : xs.map copied = xs := by
  rw [List.map_congr_left h, List.map_id']

end

/-! ## Copying succeeds -/

theorem Auth.copy_eq_ok (a : Auth) : a.copy = .ok a.copied := by
  rw [copy, clone_eq_ok]
  rfl

theorem Decoder.copy_eq_ok (d : Decoder) : d.copy = .ok d.copied := by
  rw [copy, clone_eq_ok]
  rfl

theorem Metric.copy_eq_ok (m : Metric) : m.copy = .ok m.copied := by
  rw [copy, clone_eq_ok]
  rfl

theorem Resource.copy_eq_ok (r : Resource) : r.copy = .ok r.copied := by
  rw [copy, mapM_option_eq_ok Auth.copy_eq_ok, mapM_option_eq_ok Decoder.copy_eq_ok,
    mapM_list_eq_ok Metric.copy_eq_ok, clone_eq_ok]
  rfl

theorem Service.copy_eq_ok (s : Service) : s.copy = .ok s.copied := by
  rw [copy, mapM_option_eq_ok Auth.copy_eq_ok, mapM_option_eq_ok Decoder.copy_eq_ok,
    mapM_list_eq_ok Resource.copy_eq_ok, mapM_list_eq_ok Metric.copy_eq_ok, clone_eq_ok]
  rfl

/-! ## Nothing is lost -/

open Options (Ordered clone_of_ordered)

theorem Options.Ordered.cloned_eq {m : Options} (h : m.Ordered) : m.cloned = m := clone_of_ordered h

/-- A copy is built by insertion, whatever it is a copy of. -/
theorem Options.ordered_cloned (m : Options) : m.cloned.Ordered := by
  have empty : Ordered .empty := trivial
  exact empty.overlay m

theorem Auth.copied_eq {a : Auth} (h : a.options.Ordered) : a.copied = a := by
  rw [copied, h.cloned_eq]

theorem Decoder.copied_eq {d : Decoder} (h : d.options.Ordered) : d.copied = d := by
  rw [copied, h.cloned_eq]

theorem Metric.copied_eq {m : Metric} (h : m.options.Ordered) : m.copied = m := by
  rw [copied, h.cloned_eq]

theorem Resource.copied_eq {r : Resource} (h : r.AllOptions Ordered) : r.copied = r := by
  rw [copied, h.options.cloned_eq, map_option_eq fun a ha => Auth.copied_eq (h.auth a ha),
    map_option_eq fun d hd => Decoder.copied_eq (h.decoder d hd),
    map_list_eq fun m hm => Metric.copied_eq (h.metrics m hm)]

theorem Service.copied_eq {s : Service} (h : s.AllOptions Ordered) : s.copied = s := by
  rw [copied, h.options.cloned_eq, map_option_eq fun a ha => Auth.copied_eq (h.auth a ha),
    map_option_eq fun d hd => Decoder.copied_eq (h.decoder d hd),
    map_list_eq fun r hr => Resource.copied_eq (h.resources r hr),
    map_list_eq fun m hm => Metric.copied_eq (h.metrics m hm)]

namespace Service

/-- Services, resources, metrics, auths and decoders can always be copied, and the copy is equal to the
part itself: all fields are the same, all lists are in the same order, and all options have the same
values under the same keys, whatever values those are. -/
theorem copies_identical :
    (∀ s : Service, ∃ t, s.copy = .ok t ∧ (s.AllOptions Ordered → t = s)) ∧
    (∀ r : Resource, ∃ t, r.copy = .ok t ∧ (r.AllOptions Ordered → t = r)) ∧
    (∀ m : Metric, ∃ t, m.copy = .ok t ∧ (m.options.Ordered → t = m)) ∧
    (∀ a : Auth, ∃ t, a.copy = .ok t ∧ (a.options.Ordered → t = a)) ∧
    ∀ d : Decoder, ∃ t, d.copy = .ok t ∧ (d.options.Ordered → t = d) := by
  refine ⟨fun s => ?_, fun r => ?_, fun m => ?_, fun a => ?_, fun d => ?_⟩
  · exact ⟨s.copied, s.copy_eq_ok, copied_eq⟩
  · exact ⟨r.copied, r.copy_eq_ok, Resource.copied_eq⟩
  · exact ⟨m.copied, m.copy_eq_ok, Metric.copied_eq⟩
  · exact ⟨a.copied, a.copy_eq_ok, Auth.copied_eq⟩
  · exact ⟨d.copied, d.copy_eq_ok, Decoder.copied_eq⟩

/-- NaN in a map inside a map, and a whole number beside it. -/
def unequalOptions : Options :=
  .entry "limits" (.map (.entry "ratio" (.float ⟨0x7FF8000000000000⟩) .empty))
    (.entry "retries" (.integer (-3)) .empty)

def upMetric : Metric := ⟨"up", .gauge, "", ["port", "host"], some "$.up", unequalOptions⟩

def healthResource : Resource where
  method := .post
  uri := "/health"
  auth := some ⟨"basic", unequalOptions⟩
  decoder := some ⟨"jsonpath", unequalOptions⟩
  metrics := [upMetric, upMetric]
  options := unequalOptions

/-- There are options at every depth. -/
def template : Service where
  name := "node"
  mode := .forwardMetrics
  stack := some "main"
  location := "http://node"
  auth := some ⟨"basic", unequalOptions⟩
  decoder := some ⟨"jsonpath", unequalOptions⟩
  resources := [healthResource]
  metrics := [upMetric]
  options := unequalOptions

/-- NaN is not equal to itself where numbers are compared, but it is copied as it is. -/
theorem copies_identical_template :
    template.AllOptions Ordered ∧ template.copy = .ok template ∧
      template.agrees template = false ∧ healthResource.copy = .ok healthResource ∧
      upMetric.copy = .ok upMetric ∧
      Auth.copy ⟨"basic", unequalOptions⟩ = .ok ⟨"basic", unequalOptions⟩ ∧
      Decoder.copy ⟨"jsonpath", unequalOptions⟩ = .ok ⟨"jsonpath", unequalOptions⟩ := by
  have wellFormed : unequalOptions.WellFormed := by decide
  have ordered := wellFormed.ordered
  have resource : healthResource.AllOptions Ordered :=
    ⟨fun a ha => Option.some.inj ha ▸ ordered, fun d hd => Option.some.inj hd ▸ ordered,
      List.forall_mem_cons.mpr ⟨ordered, List.forall_mem_singleton.mpr ordered⟩, ordered⟩
  have service : template.AllOptions Ordered :=
    ⟨fun a ha => Option.some.inj ha ▸ ordered, fun d hd => Option.some.inj hd ▸ ordered,
      List.forall_mem_singleton.mpr resource, List.forall_mem_singleton.mpr ordered, ordered⟩
  obtain ⟨services, resources, metrics, auths, decoders⟩ := copies_identical
  obtain ⟨s, copied, same⟩ := services template
  obtain ⟨r, copiedResource, sameResource⟩ := resources healthResource
  obtain ⟨m, copiedMetric, sameMetric⟩ := metrics upMetric
  obtain ⟨a, copiedAuth, sameAuth⟩ := auths ⟨"basic", unequalOptions⟩
  obtain ⟨d, copiedDecoder, sameDecoder⟩ := decoders ⟨"jsonpath", unequalOptions⟩
  have differs : template.agrees template = false := by decide +kernel
  exact ⟨service, same service ▸ copied, differs, sameResource resource ▸ copiedResource,
    sameMetric ordered ▸ copiedMetric, sameAuth ordered ▸ copiedAuth,
    sameDecoder ordered ▸ copiedDecoder⟩

end Service

end ScrapeConfig
