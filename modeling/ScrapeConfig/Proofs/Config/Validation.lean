import ScrapeConfig.Config.Validation
import ScrapeConfig.Proofs.Config.Listing

/-!
# What validation reports

A configuration is valid if its names are there and tell its services and metrics apart, its locations
are URLs, its URIs begin with a slash, and services that forward metrics have a location. Each breach of
this has a place in the tree, and validation lists the breaches: one issue for each of them, in the
order of their places, and no others.

Results:
1. `Resource.Violation`, `Service.Violation`, `Configuration.Violation`: the breaches and their places.
   The parts of a service are numbered as validation goes over them.
2. `Resource.lists_issues`, `Service.lists_issues`, `Configuration.lists_issues`
3. `Configuration.Valid`, `Configuration.valid_iff`: a configuration is valid if nothing is breached.
4. `Configuration.validate_reports`
-/

namespace ScrapeConfig

/-- Nothing but white space. -/
def Blank (name : String) : Prop := ∀ c ∈ name.toList, Text.isBlank c

theorem isNamed_iff {name : String} : isNamed name ↔ ¬ Blank name := by
  rw [isNamed, Text.onlyBlanks, Bool.not_eq_true', ← Bool.not_eq_true, List.all_eq_true, Blank]

theorem not_isNamed_iff {name : String} : isNamed name = false ↔ Blank name := by
  rw [← Bool.not_eq_true, isNamed_iff, not_not]

/-! ## Repeated names -/

/-- Of the names that count, `seen` holds those that are in `before`. -/
def Tracks (counts : String → Bool) (seen before : List String) : Prop :=
  ∀ name, counts name → (name ∈ seen ↔ name ∈ before)

namespace Tracks

variable {counts : String → Bool} {seen before : List String} {name : String}

theorem cons (h : Tracks counts seen before) (name : String) :
    Tracks counts (name :: seen) (before ++ [name]) := by
  intro other ho
  rw [List.mem_cons, List.mem_append, h other ho, List.mem_singleton, or_comm]

theorem skip (h : Tracks counts seen before) (known : counts name → name ∈ before) :
    Tracks counts seen (before ++ [name]) := by
  intro other ho
  rw [List.mem_append, h other ho, List.mem_singleton, iff_self_or]
  rintro rfl
  exact known ho

theorem contains_iff (h : Tracks counts seen before) (counted : counts name) :
    seen.contains name ↔ name ∈ before :=
  List.contains_iff_mem.trans (h name counted)

end Tracks

theorem repeated_eq_sweep {counts : String → Bool} {seen before : List String}
    (tracks : Tracks counts seen before) (names : List String) :
    repeated counts seen names =
      sweep (fun before name => if counts name ∧ name ∈ before then [name] else []) before names := by
  induction names generalizing seen before with
  | nil => rfl
  | cons name names ih =>
    rw [repeated, sweep]
    by_cases counted : counts name
    · have contained := tracks.contains_iff counted
      rw [if_pos counted]
      by_cases again : name ∈ before
      · rw [if_pos (contained.mpr again), if_pos ⟨counted, again⟩, ih (tracks.skip fun _ => again)]
        rfl
      · rw [if_neg (mt contained.mp again), if_neg (fun h => again h.2), ih (tracks.cons name)]
        rfl
    · rw [if_neg counted, if_neg (fun h => counted h.1), ih (tracks.skip fun h => absurd h counted)]
      rfl

/-- A name is repeated where it counts and occurs further in front. -/
theorem lists_repeated (counts : String → Bool) (names : List String) :
    Lists (repeated counts [] names) fun p name =>
      ∃ i, p = [i] ∧ names[i]? = some name ∧ counts name ∧ name ∈ names.take i := by
  have none : Tracks counts [] [] := fun _ _ => Iff.rfl
  rw [repeated_eq_sweep none]
  refine (Lists.sweep_nil (fun before name => Lists.ite fun _ _ => Iff.rfl) names).congr fun p a => ?_
  constructor
  · rintro ⟨i, name, q, rfl, hi, ⟨counted, again⟩, rfl, rfl⟩
    exact ⟨i, rfl, hi, counted, again⟩
  · rintro ⟨i, rfl, hi, counted, again⟩
    exact ⟨i, a, [], rfl, hi, ⟨counted, again⟩, rfl, rfl⟩

/-- Names that nowhere occur again are distinct. -/
theorem nodup_iff_take {names : List String} :
    names.Nodup ↔ ∀ i name, names[i]? = some name → name ∉ names.take i := by
  constructor
  · intro nodup i name hi again
    obtain ⟨bound, rfl⟩ := List.getElem?_eq_some_iff.mp hi
    obtain ⟨j, lt, same⟩ := List.mem_take_iff_getElem.mp again
    have := (List.getElem_inj nodup).mp same
    omega
  · intro fresh
    refine List.pairwise_iff_getElem.mpr fun i j hi hj lt same => ?_
    refine fresh j names[j] (List.getElem?_eq_getElem hj) ?_
    exact List.mem_take_iff_getElem.mpr ⟨i, Nat.lt_min.mpr ⟨lt, hi⟩, same⟩

/-! ## Breaches -/

/-- A breach at a resource: of its URI, or of the name of one of its metrics. -/
inductive Resource.Violation (r : Resource) : List Nat → ResourceIssue → Prop
  | relativeUri (relative : r.uri.toList.head? ≠ some '/') : r.Violation [0] (.relativeUri r.uri)
  | namelessMetric {i : Nat} {m : Metric} (hm : r.metrics[i]? = some m) (blank : Blank m.name) :
    r.Violation [1, i] (.namelessMetric r.uri)

/-- A breach at a service: of its name, its location, one of its resources, or the name of one of its
metrics, which may be missing or occur further in front among the metrics of the service and all its
resources. -/
inductive Service.Violation (fault? : String → Option String) (s : Service) : List Nat → Issue → Prop
  | nameless (blank : Blank s.name) : s.Violation fault? [0] .namelessService
  | invalidLocation {reason : String} (present : s.location ≠ "")
    (fault : fault? s.location = some reason) :
    s.Violation fault? [1] (.invalidLocation s.name s.location reason)
  | missingLocation (forwards : s.mode = .forwardMetrics) (missing : s.location = "") :
    s.Violation fault? [1] (.missingLocation s.name)
  | inResource {i : Nat} {r : Resource} {p : List Nat} {issue : ResourceIssue}
    (hr : s.resources[i]? = some r) (breach : r.Violation p issue) :
    s.Violation fault? (2 :: i :: p) (.inResource s.name issue)
  | namelessMetric {i : Nat} {m : Metric} (hm : s.metrics[i]? = some m) (blank : Blank m.name) :
    s.Violation fault? [3, i] (.namelessMetric s.name)
  | duplicateMetric {i : Nat} {name : String} (hi : (s.allMetrics.map (·.name))[i]? = some name)
    (named : ¬ Blank name) (again : name ∈ (s.allMetrics.map (·.name)).take i) :
    s.Violation fault? [4, i] (.duplicateMetric s.name name)

/-- A breach of a configuration: a service has the name of a service in front of it, or there is a
breach at the service. -/
inductive Configuration.Violation (fault? : String → Option String) (c : Configuration) :
    List Nat → Issue → Prop
  | duplicateService {i : Nat} {s : Service} (hs : c.services[i]? = some s) (named : ¬ Blank s.name)
    (again : s.name ∈ (c.services.take i).map (·.name)) :
    c.Violation fault? [i, 0] (.duplicateService s.name)
  | inService {i : Nat} {s : Service} {p : List Nat} {issue : Issue} (hs : c.services[i]? = some s)
    (breach : s.Violation fault? p issue) : c.Violation fault? (i :: 1 :: p) issue

/-! ## Listings -/

theorem Resource.lists_issues (r : Resource) : Lists r.issues r.Violation := by
  have uri : Lists (if r.uri.toList.head? = some '/' then [] else [ResourceIssue.relativeUri r.uri])
      fun p issue => r.uri.toList.head? ≠ some '/' ∧ p = [] ∧ issue = .relativeUri r.uri :=
    .ite_else fun _ _ => Iff.rfl
  have metrics := Lists.filter_map (!isNamed ·.name)
    (fun _ => ResourceIssue.namelessMetric r.uri) r.metrics
  have parts := Lists.parts [⟨_, _, uri⟩, ⟨_, _, metrics⟩]
  simp only [List.flatMap_cons, List.flatMap_nil, List.append_nil] at parts
  refine parts.congr fun p issue => ⟨?_, ?_⟩
  · rintro ⟨i, part, q, rfl, hi, found⟩
    match i, hi with
    | 0, rfl =>
      obtain ⟨relative, rfl, rfl⟩ := found
      exact .relativeUri relative
    | 1, rfl =>
      obtain ⟨i, m, rfl, hm, blank, rfl⟩ := found
      exact .namelessMetric hm (not_isNamed_iff.mp (by simpa using blank))
  · intro breach
    cases breach with
    | relativeUri relative => exact ⟨0, _, _, rfl, rfl, relative, rfl, rfl⟩
    | namelessMetric hm blank =>
      exact ⟨1, _, _, rfl, rfl, _, _, rfl, hm, by simpa using not_isNamed_iff.mpr blank, rfl⟩

theorem Service.lists_locationIssues (fault? : String → Option String) (s : Service) :
    Lists (s.locationIssues fault?) fun p issue => p = [] ∧
      ((∃ reason, s.location ≠ "" ∧ fault? s.location = some reason ∧
        issue = .invalidLocation s.name s.location reason) ∨
      (s.mode = .forwardMetrics ∧ s.location = "" ∧ issue = .missingLocation s.name)) := by
  rw [locationIssues]
  split
  · next present =>
    cases fault : fault? s.location with
    | none => exact .nil fun p issue => by simp [present]
    | some reason => exact .singleton fun p issue => by simp [present]
  · next missing =>
    rw [ne_eq, not_not] at missing
    exact .ite fun p issue => by simp [missing, and_left_comm]

theorem Service.lists_issues (fault? : String → Option String) (s : Service) :
    Lists (s.issues fault?) (s.Violation fault?) := by
  have name : Lists (if isNamed s.name then [] else [Issue.namelessService])
      fun p issue => ¬ isNamed s.name ∧ p = [] ∧ issue = .namelessService :=
    .ite_else fun _ _ => Iff.rfl
  have resources := Lists.flatMap (fun r => (Resource.lists_issues r).map (Issue.inResource s.name))
    s.resources
  have metrics := Lists.filter_map (!isNamed ·.name) (fun _ => Issue.namelessMetric s.name) s.metrics
  have duplicates := (lists_repeated isNamed (s.allMetrics.map (·.name))).map
    (Issue.duplicateMetric s.name)
  have parts := Lists.parts [⟨_, _, name⟩, ⟨_, _, s.lists_locationIssues fault?⟩, ⟨_, _, resources⟩,
    ⟨_, _, metrics⟩, ⟨_, _, duplicates⟩]
  simp only [List.flatMap_cons, List.flatMap_nil, List.append_nil, ← List.append_assoc] at parts
  refine parts.congr fun p issue => ⟨?_, ?_⟩
  · rintro ⟨i, part, q, rfl, hi, found⟩
    match i, hi with
    | 0, rfl =>
      obtain ⟨blank, rfl, rfl⟩ := found
      exact .nameless (not_isNamed_iff.mp (by simpa using blank))
    | 1, rfl =>
      obtain ⟨rfl, ⟨reason, present, fault, rfl⟩ | ⟨forwards, missing, rfl⟩⟩ := found
      · exact .invalidLocation present fault
      · exact .missingLocation forwards missing
    | 2, rfl =>
      obtain ⟨i, r, q, rfl, hr, issue, breach, rfl⟩ := found
      exact .inResource hr breach
    | 3, rfl =>
      obtain ⟨i, m, rfl, hm, blank, rfl⟩ := found
      exact .namelessMetric hm (not_isNamed_iff.mp (by simpa using blank))
    | 4, rfl =>
      obtain ⟨name, ⟨i, rfl, hi, named, again⟩, rfl⟩ := found
      exact .duplicateMetric hi (isNamed_iff.mp named) again
  · intro breach
    cases breach with
    | nameless blank =>
      exact ⟨0, _, _, rfl, rfl, by simpa using not_isNamed_iff.mpr blank, rfl, rfl⟩
    | invalidLocation present fault =>
      exact ⟨1, _, _, rfl, rfl, rfl, .inl ⟨_, present, fault, rfl⟩⟩
    | missingLocation forwards missing =>
      exact ⟨1, _, _, rfl, rfl, rfl, .inr ⟨forwards, missing, rfl⟩⟩
    | inResource hr breach => exact ⟨2, _, _, rfl, rfl, _, _, _, rfl, hr, _, breach, rfl⟩
    | namelessMetric hm blank =>
      exact ⟨3, _, _, rfl, rfl, _, _, rfl, hm, by simpa using not_isNamed_iff.mpr blank, rfl⟩
    | duplicateMetric hi named again =>
      exact ⟨4, _, _, rfl, rfl, _, ⟨_, rfl, hi, isNamed_iff.mpr named, again⟩, rfl⟩

/-- What is listed at a service that stands behind the services `before`. -/
def Service.issuesBehind (fault? : String → Option String) (before : List Service) (s : Service) :
    List Issue :=
  (if isNamed s.name ∧ s.name ∈ before.map (·.name) then [.duplicateService s.name] else []) ++
    s.issues fault?

theorem Configuration.issuesOf_eq_sweep {fault? : String → Option String} {seen : List String}
    {before : List Service} (tracks : Tracks isNamed seen (before.map (·.name)))
    (services : List Service) :
    issuesOf fault? seen services = sweep (Service.issuesBehind fault?) before services := by
  induction services generalizing seen before with
  | nil => rfl
  | cons s services ih =>
    have names : (before ++ [s]).map (·.name) = before.map (·.name) ++ [s.name] := List.map_append
    rw [issuesOf, sweep, Service.issuesBehind]
    by_cases named : isNamed s.name
    · rw [if_pos named, ih (names ▸ tracks.cons s.name)]
      simp only [named, Bool.true_and, tracks.contains_iff named, true_and]
    · rw [if_neg named, ih (names ▸ tracks.skip fun h => absurd h named)]
      simp only [named, Bool.false_and, false_and, Bool.false_eq_true]

theorem Service.lists_issuesBehind (fault? : String → Option String) (before : List Service)
    (s : Service) : Lists (s.issuesBehind fault? before) fun p issue =>
      (p = [0] ∧ ¬ Blank s.name ∧ s.name ∈ before.map (·.name) ∧ issue = .duplicateService s.name) ∨
        ∃ q, p = 1 :: q ∧ s.Violation fault? q issue := by
  have name : Lists (if isNamed s.name ∧ s.name ∈ before.map (·.name) then
      [Issue.duplicateService s.name] else []) fun p issue =>
        (isNamed s.name ∧ s.name ∈ before.map (·.name)) ∧ p = [] ∧ issue = .duplicateService s.name :=
    .ite fun _ _ => Iff.rfl
  have parts := Lists.parts [⟨_, _, name⟩, ⟨_, _, s.lists_issues fault?⟩]
  simp only [List.flatMap_cons, List.flatMap_nil, List.append_nil] at parts
  refine parts.congr fun p issue => ⟨?_, ?_⟩
  · rintro ⟨i, part, q, rfl, hi, found⟩
    match i, hi with
    | 0, rfl =>
      obtain ⟨⟨named, again⟩, rfl, rfl⟩ := found
      exact .inl ⟨rfl, isNamed_iff.mp named, again, rfl⟩
    | 1, rfl => exact .inr ⟨q, rfl, found⟩
  · rintro (⟨rfl, named, again, rfl⟩ | ⟨q, rfl, breach⟩)
    · exact ⟨0, _, _, rfl, rfl, ⟨isNamed_iff.mpr named, again⟩, rfl, rfl⟩
    · exact ⟨1, _, _, rfl, rfl, breach⟩

theorem Configuration.lists_issues (fault? : String → Option String) (c : Configuration) :
    Lists (c.issues fault?) (c.Violation fault?) := by
  have none : Tracks isNamed [] (List.map (·.name) ([] : List Service)) := fun _ _ => Iff.rfl
  rw [issues, issuesOf_eq_sweep none]
  refine (Lists.sweep_nil (Service.lists_issuesBehind fault?) c.services).congr fun p issue => ⟨?_, ?_⟩
  · rintro ⟨i, s, q, rfl, hs, ⟨rfl, named, again, rfl⟩ | ⟨q, rfl, breach⟩⟩
    · exact .duplicateService hs named again
    · exact .inService hs breach
  · intro breach
    cases breach with
    | duplicateService hs named again => exact ⟨_, _, _, rfl, hs, .inl ⟨rfl, named, again, rfl⟩⟩
    | inService hs breach => exact ⟨_, _, _, rfl, hs, .inr ⟨_, rfl, breach⟩⟩

/-! ## Valid configurations -/

structure Service.Valid (fault? : String → Option String) (s : Service) : Prop where
  named : ¬ Blank s.name
  located : s.location ≠ "" → fault? s.location = none
  forwarding : s.mode = .forwardMetrics → s.location ≠ ""
  rooted : ∀ r ∈ s.resources, r.uri.toList.head? = some '/'
  metricsNamed : ∀ m ∈ s.allMetrics, ¬ Blank m.name
  metricsDistinct : (s.allMetrics.map (·.name)).Nodup

structure Configuration.Valid (fault? : String → Option String) (c : Configuration) : Prop where
  services : ∀ s ∈ c.services, s.Valid fault?
  distinct : (c.services.map (·.name)).Nodup

theorem Service.mem_allMetrics {s : Service} {m : Metric} :
    m ∈ s.allMetrics ↔ m ∈ s.metrics ∨ ∃ r ∈ s.resources, m ∈ r.metrics := by
  rw [allMetrics, List.mem_append, List.mem_flatMap]

theorem Service.valid_iff {fault? : String → Option String} {s : Service} :
    s.Valid fault? ↔ ∀ p issue, ¬ s.Violation fault? p issue := by
  constructor
  · intro valid p issue breach
    cases breach with
    | nameless blank => exact valid.named blank
    | invalidLocation present fault => exact nomatch (valid.located present).symm.trans fault
    | missingLocation forwards missing => exact valid.forwarding forwards missing
    | inResource hr breach =>
      have hr := List.mem_of_getElem? hr
      cases breach with
      | relativeUri relative => exact relative (valid.rooted _ hr)
      | namelessMetric hm blank =>
        exact valid.metricsNamed _ (mem_allMetrics.mpr (.inr ⟨_, hr, List.mem_of_getElem? hm⟩)) blank
    | namelessMetric hm blank =>
      exact valid.metricsNamed _ (mem_allMetrics.mpr (.inl (List.mem_of_getElem? hm))) blank
    | duplicateMetric hi named again => exact nodup_iff_take.mp valid.metricsDistinct _ _ hi again
  · intro none
    have metricsNamed : ∀ m ∈ s.allMetrics, ¬ Blank m.name := by
      intro m hm blank
      rcases mem_allMetrics.mp hm with hm | ⟨r, hr, hm⟩
      · obtain ⟨i, hm⟩ := List.mem_iff_getElem?.mp hm
        exact none _ _ (.namelessMetric hm blank)
      · obtain ⟨i, hr⟩ := List.mem_iff_getElem?.mp hr
        obtain ⟨j, hm⟩ := List.mem_iff_getElem?.mp hm
        exact none _ _ (.inResource hr (.namelessMetric hm blank))
    refine
      { named := fun blank => none _ _ (.nameless blank)
        located := fun present => ?_
        forwarding := fun forwards missing => none _ _ (.missingLocation forwards missing)
        rooted := fun r hr => ?_
        metricsNamed
        metricsDistinct := nodup_iff_take.mpr fun i name hi again => ?_ }
    · exact Option.eq_none_iff_forall_not_mem.mpr fun reason fault =>
        none _ _ (.invalidLocation present fault)
    · obtain ⟨i, hr⟩ := List.mem_iff_getElem?.mp hr
      by_contra relative
      exact none _ _ (.inResource hr (.relativeUri relative))
    · obtain ⟨m, hm, rfl⟩ := List.mem_map.mp (List.mem_of_getElem? hi)
      exact none _ _ (.duplicateMetric hi (metricsNamed m hm) again)

/-- Nothing but breaches keeps a configuration from being valid. -/
theorem Configuration.valid_iff {fault? : String → Option String} {c : Configuration} :
    c.Valid fault? ↔ ∀ p issue, ¬ c.Violation fault? p issue := by
  constructor
  · intro valid p issue breach
    cases breach with
    | @duplicateService i s hs named again =>
      have hi : (c.services.map (·.name))[i]? = some s.name := by rw [List.getElem?_map, hs]; rfl
      exact nodup_iff_take.mp valid.distinct i s.name hi (List.map_take ▸ again)
    | inService hs breach =>
      exact Service.valid_iff.mp (valid.services _ (List.mem_of_getElem? hs)) _ _ breach
  · intro none
    have services : ∀ s ∈ c.services, s.Valid fault? := by
      intro s hs
      obtain ⟨i, hs⟩ := List.mem_iff_getElem?.mp hs
      exact Service.valid_iff.mpr fun p issue breach => none _ _ (.inService hs breach)
    refine ⟨services, nodup_iff_take.mpr fun i name hi again => ?_⟩
    rw [List.getElem?_map] at hi
    obtain ⟨s, hs, rfl⟩ := Option.map_eq_some_iff.mp hi
    have named := (services s (List.mem_of_getElem? hs)).named
    exact none _ _ (.duplicateService hs named (List.map_take ▸ again))

/-! ## Validation -/

namespace Configuration

theorem issues_eq_nil_iff (fault? : String → Option String) (c : Configuration) :
    c.issues fault? = [] ↔ c.Valid fault? :=
  (c.lists_issues fault?).eq_nil_iff.trans valid_iff.symm

/-- Whatever makes a location faulty, the issues list the breaches, and there are none if and only if
the configuration is valid. Validation succeeds with valid configurations, and fails with the messages
of the issues of all others. -/
theorem validate_reports (fault? : String → Option String) (c : Configuration) :
    (c.issues fault? = [] ↔ c.Valid fault?) ∧ Lists (c.issues fault?) (c.Violation fault?) ∧
    (c.validate fault? = .ok () ↔ c.Valid fault?) ∧
    ∀ e, c.validate fault? = .error e ↔ ¬ c.Valid fault? ∧
      e = .validation ((c.issues fault?).map Issue.message) := by
  refine ⟨c.issues_eq_nil_iff fault?, c.lists_issues fault?, ?_⟩
  rw [← issues_eq_nil_iff, validate]
  cases issues : c.issues fault? with
  | nil => simp
  | cons issue rest => simp [eq_comm]

end Configuration

end ScrapeConfig
