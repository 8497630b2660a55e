import ScrapeConfig.Proofs.Document.Places

/-!
# Drafts at a place

What has been read of a document in front of a place does not depend on what stands there, and the
services that are read at the place stay what they are, whatever stands behind it.

Results:
1. `Syntax.Place.draft`: what has been read in front of a place.
2. `Syntax.Place.configuration_document`: a document is read in front of a place, at the place and
   behind it.
3. `Syntax.Document.exists_origin`: every service that is read comes from a section at a place.
4. `Document.exists_section`: what is read where the keyword of services comes in a document.
-/

namespace ScrapeConfig

namespace Syntax

open ScrapeConfig.Document (Draft SectionValid ServiceValid)

variable {context : Context} {α : Type}

namespace Place

/-- The sections at a place, or the stack in which they are. -/
def inside (p : Place) (s : Series ServiceSection) : List Section :=
  p.around.elim (s.toList.map .service) fun e => [.stack e.name (e.items s)]

theorem sections_document (p : Place) (before : Nat) (s : Series ServiceSection) :
    (p.document before s).sections =
      p.above.map (·.1) ++ (p.inside s ++ p.below.map (·.2)) := by
  refine ((p.filling s).sections_under p.above).trans (congrArg (_ ++ ·) ?_)
  obtain ⟨above, _ | e, below, behind⟩ := p
  · simp [filling, inside, Lines.sections, Series.toList]
  · simp [filling, inside, Lines.sections]

def stack (p : Place) : Option String := p.around.map Enclosure.name

/-- What has been read in front of a place. -/
def draft (context : Context) (p : Place) : Draft :=
  let d := (p.above.map (·.1)).foldl (Section.apply context) {}
  p.around.elim d fun e => e.above.foldl (StackItem.apply context e.name) d

/-- What is read behind a place, once the sections that are there have been read. -/
def resume (context : Context) (p : Place) (d : Draft) : Draft :=
  (p.below.map (·.2)).foldl (Section.apply context)
    (p.around.elim d fun e => e.below.foldl (StackItem.apply context e.name) d)

/-- What is read at a place. -/
def read (context : Context) (p : Place) (d : Draft) (xs : List ServiceSection) : Draft :=
  d.add (xs.flatMap (ServiceSection.services context d.auths p.stack))

theorem foldl_services {step : Draft → α → Draft} {item : ServiceSection → α}
    {o : Option String} (h : ∀ d x, step d (item x) = d.add (x.services context d.auths o))
    (d : Draft) (xs : List ServiceSection) :
    (xs.map item).foldl step d = d.add (xs.flatMap (ServiceSection.services context d.auths o)) := by
  induction xs generalizing d with
  | nil => simp [Draft.add]
  | cons x xs ih =>
    rw [List.map_cons, List.foldl_cons, h, ih]
    simp [Draft.add]

theorem configuration_document (context : Context) (p : Place) (before : Nat)
    (s : Series ServiceSection) :
    (p.document before s).configuration context =
      (p.resume context (p.read context (p.draft context) s.toList)).configuration := by
  rw [Document.configuration, sections_document, List.foldl_append, List.foldl_append]
  refine congrArg Draft.configuration (congrArg (List.foldl (Section.apply context) · _) ?_)
  obtain ⟨above, _ | e, below, behind⟩ := p
  · exact foldl_services (o := none) (fun _ _ => rfl) _ s.toList
  · rw [inside, Option.elim_some, List.foldl_cons, List.foldl_nil, Section.apply,
      Enclosure.toList_items, List.foldl_append, List.foldl_append,
      foldl_services (o := some e.name) (fun _ _ => rfl)]
    rfl

/-- Services are added behind those that are there. -/
def Grows (step : Draft → α → Draft) : Prop :=
  ∀ d x, ∃ later, (step d x).configuration.services = d.configuration.services ++ later

theorem Grows.foldl {step : Draft → α → Draft} (h : Grows step) : Grows (List.foldl step) := by
  intro d xs
  induction xs generalizing d with
  | nil => exact ⟨[], (List.append_nil _).symm⟩
  | cons x xs ih =>
    obtain ⟨next, hx⟩ := h d x
    obtain ⟨later, hxs⟩ := ih (step d x)
    exact ⟨next ++ later, by rw [List.foldl_cons, hxs, hx, List.append_assoc]⟩

theorem grows_stackItem (context : Context) (stack : String) :
    Grows (StackItem.apply context stack) := by
  rintro d (x | x)
  · exact ⟨_, rfl⟩
  · exact ⟨[], (List.append_nil _).symm⟩

theorem grows_section (context : Context) : Grows (Section.apply context) := by
  rintro d (_ | x | ⟨stack, items⟩ | x)
  · exact ⟨[], (List.append_nil _).symm⟩
  · exact ⟨[], (List.append_nil _).symm⟩
  · exact (grows_stackItem context stack).foldl d items.toList
  · exact ⟨_, rfl⟩

theorem exists_later (context : Context) (p : Place) (d : Draft) : ∃ later,
    (p.resume context d).configuration.services = d.configuration.services ++ later := by
  obtain ⟨later, below⟩ := (grows_section context).foldl
    (p.around.elim d fun e => e.below.foldl (StackItem.apply context e.name) d)
    (p.below.map (·.2))
  obtain ⟨above, _ | e, lines, behind⟩ := p
  · exact ⟨later, below⟩
  · obtain ⟨next, items⟩ := (grows_stackItem context e.name).foldl d e.below
    exact ⟨next ++ later, below.trans (by rw [Option.elim_some, items, List.append_assoc])⟩

/-- The services of a document that has a section at a place. -/
theorem services_document (context : Context) (p : Place) (before : Nat) (x : ServiceSection) :
    ∃ later, ((p.document before ⟨x, []⟩).configuration context).services =
      (p.draft context).configuration.services ++
        (x.services context (p.draft context).auths p.stack ++ later) := by
  obtain ⟨later, services⟩ := p.exists_later context (p.read context (p.draft context) [x])
  refine ⟨later, ?_⟩
  rw [configuration_document, Series.toList, services, read, List.flatMap_singleton, Draft.add,
    List.append_assoc]

/-- A section at a place is read behind the draft of the place. -/
theorem serviceValid (p : Place) {before : Nat} {x : ServiceSection}
    (h : OkLines (SectionValid context) (Section.apply context) {}
      (p.document before ⟨x, []⟩).sections) :
    ServiceValid context (p.draft context).auths x := by
  rw [sections_document, okLines_append] at h
  obtain ⟨above, _ | e, below, behind⟩ := p
  · exact h.2.1
  · have items := h.2.1
    rw [SectionValid, Enclosure.toList_items, okLines_append] at items
    exact items.2.1

end Place

/-! ## Where services come from -/

/-- A service that is new behind all items is new behind one of them. -/
theorem exists_new {step : Draft → α → Draft} {v : Service} {d : Draft} {xs : List α}
    (absent : v ∉ d.configuration.services)
    (h : v ∈ (xs.foldl step d).configuration.services) :
    ∃ above x below, xs = above ++ x :: below ∧
      v ∉ (above.foldl step d).configuration.services ∧
      v ∈ (step (above.foldl step d) x).configuration.services := by
  induction xs generalizing d with
  | nil => exact absurd h absent
  | cons x xs ih =>
    by_cases here : v ∈ (step d x).configuration.services
    · exact ⟨[], x, xs, rfl, absent, here⟩
    · obtain ⟨above, y, below, rfl, found⟩ := ih here h
      exact ⟨x :: above, y, below, rfl, found⟩

theorem mem_services_of_add {v : Service} {d : Draft} {given : List Service}
    (absent : v ∉ d.configuration.services) (h : v ∈ (d.add given).configuration.services) :
    v ∈ given :=
  (List.mem_append.mp h).resolve_left absent

/-- A service of a document is one of a section at a place. -/
theorem Document.exists_origin {v : Service} {d : Document}
    (h : v ∈ (d.configuration context).services) :
    ∃ before p x, d = Place.document p before ⟨x, []⟩ ∧
      v ∈ x.services context (p.draft context).auths p.stack := by
  obtain ⟨before, _ | lines, behind⟩ := d
  · cases h
  obtain ⟨above, x, below, split, absent, here⟩ := exists_new List.not_mem_nil h
  obtain ⟨above, below, rfl, rfl, rfl⟩ := Lines.exists_under split
  cases x with
  | dataset | auth _ => exact absurd here absent
  | service x =>
    exact ⟨before, ⟨above, none, below, behind⟩, x, rfl, mem_services_of_add absent here⟩
  | stack name items =>
    -- The items of the stack start from the draft behind the sections above it.
    obtain ⟨itemsAbove, item, itemsBelow, split, missing, inside⟩ := exists_new absent here
    cases item with
    | auth _ => exact absurd inside missing
    | service x =>
      obtain rfl : Enclosure.items ⟨name, itemsAbove, itemsBelow⟩ ⟨x, []⟩ = items :=
        Series.toList_injective ((Enclosure.toList_items _ _).trans split.symm)
      exact ⟨before, ⟨above, some ⟨name, itemsAbove, itemsBelow⟩, below, behind⟩, x, rfl,
        mem_services_of_add missing inside⟩

end Syntax

namespace Document

open Syntax (Place sameLevels)

variable {threaded : Bool} {context : Context} {source : String} {tokens : List Token}
  {front rest : List Word}

/-- Where the keyword of services comes in tokens that are read, there is a service section at a
place, and its services come behind those that were read in front of it. -/
theorem exists_section (h : tokenize threaded context source = .ok tokens) {c : Configuration}
    (hc : ofTokens tokens = .ok c)
    (words : tokens.map Token.word = front ++ .mark .forService :: rest) :
    ∃ before p x later, front = .mark .ctx :: (sameLevels before ++ Place.opening p) ∧
      .mark .forService :: rest = x.words ++ p.closing ∧
      ServiceValid context (p.draft context).auths x ∧
      c.services = (p.draft context).configuration.services ++
        (x.services context (p.draft context).auths p.stack ++ later) := by
  obtain ⟨_, d, hd, conditions, rfl⟩ := (parsed_iff h).mp hc
  obtain ⟨before, p, x, rfl, rfl, here⟩ := Syntax.Document.exists_place (words ▸ hd.symm)
  obtain ⟨later, services⟩ := p.services_document context before x
  exact ⟨before, p, x, later, rfl, here, p.serviceValid (valid_iff.mpr conditions), services⟩

end Document

end ScrapeConfig
