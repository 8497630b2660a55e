import ScrapeConfig.Proofs.Document.Undefined
import ScrapeConfig.Proofs.Document.Uses

/-!
# Auths by their place in the document

Which auth a name stands for is decided by the place where it is used: it is the auth that is
defined last in front of it under this name. A service without a name has the auth of the context,
and a resource without a name has none of its own.

Results:
1. `ServiceSection.Binds`: the auths of a service and of its resources.
2. `ServiceSection.binds_services`: the services of a section have them.
3. `Document.exists_definition`, `Document.exists_origin`: uses have definitions in front of them, and
services have sections from which they come.
4. `Document.auths_by_place`: so it is in every document that is read, a document with a use of what
   is not defined is not read, and that is reported where the name is used.
-/

namespace ScrapeConfig

open Document (Auths)

namespace Syntax

variable {context : Context} {auths : Auths} {front : List Word}

/-! ## Copies of definitions -/

theorem ordered_optionsOf (items : List OptionItem) : (optionsOf items).Ordered := by
  rw [optionsOf, foldl_items]
  generalize items.flatMap OptionItem.settings = settings
  suffices ∀ m : Options, m.Ordered → (settings.foldl Setting.apply m).Ordered from this _ trivial
  induction settings with
  | nil => exact fun _ => id
  | cons s settings ih => exact fun m ordered => ih _ (ordered.insert s.key (.string s.value))

theorem AuthSection.copied_auth (a : AuthSection) : a.auth.copied = a.auth :=
  Auth.copied_eq (ordered_optionsOf (itemsOf a.options))

theorem copied_copied (a : Auth) : a.copied.copied = a.copied :=
  Auth.copied_eq a.options.ordered_cloned

/-! ## The auths of a section -/

def ServiceItem.resources : ServiceItem → List ResourceSection
  | .resource r => [r]
  | _ => []

theorem foldl_resourceItem (r : Resource) (items : List ResourceItem) :
    (items.foldl ResourceItem.apply r).auth = r.auth ∧
      (items.foldl ResourceItem.apply r).method = r.method ∧
      (items.foldl ResourceItem.apply r).uri = r.uri := by
  induction items generalizing r with
  | nil => exact ⟨rfl, rfl, rfl⟩
  | cons x items ih =>
    rw [List.foldl_cons]
    cases x <;> exact ih _

theorem foldl_serviceItem (auths : Auths) (s : Service) (items : List ServiceItem) :
    (items.foldl (ServiceItem.apply auths) s).auth = s.auth ∧
      (items.foldl (ServiceItem.apply auths) s).resources =
        s.resources ++ (items.flatMap ServiceItem.resources).map (·.resource auths) := by
  induction items generalizing s with
  | nil => exact ⟨rfl, (List.append_nil _).symm⟩
  | cons x items ih =>
    rw [List.foldl_cons]
    obtain ⟨auth, resources⟩ := ih (x.apply auths s)
    rw [auth, resources]
    cases x <;> simp [ServiceItem.apply, ServiceItem.resources]

namespace ServiceSection

/-- The resources of the section, in the order of the text. -/
def resources (x : ServiceSection) : List ResourceSection :=
  (itemsOf x.items).flatMap ServiceItem.resources

/-- The auth is the one that is defined last under the name in front of every place in the
section. -/
def Named (front : List Word) (x : ServiceSection) (name : String) (auth : Option Auth) : Prop :=
  ∃ a : AuthSection, a.name = name ∧ auth = some a.auth ∧
    ∀ part, part <+: x.words → a.DefinedLast (front ++ part)

/-- A resource has the auth that it names, or else none of its own. -/
structure BindsResource (front : List Word) (x : ServiceSection) (v : Service)
    (r : ResourceSection) (w : Resource) : Prop where
  method : w.method = r.method
  uri : w.uri = r.uri
  named : ∀ n, r.auth = some n → x.Named front n w.auth
  unnamed : r.auth = none → w.auth = none ∧ v.authFor w = v.auth

/-- The service has the auth that the section names, or else a copy of the one of the context. -/
structure Binds (context : Context) (front : List Word) (x : ServiceSection) (v : Service) :
    Prop where
  named : ∀ n, x.auth = some n → x.Named front n v.auth
  unnamed : x.auth = none → context.auth.mapM Auth.copy = .ok v.auth
  resources : List.Forall₂ (x.BindsResource front v) x.resources v.resources

theorem named_resolve {x : ServiceSection} (tells : Tells auths front) {name : String}
    (known : (auths.lookup name).isSome) : x.Named front name (resolve auths (some name)) := by
  obtain ⟨v, found⟩ := Option.isSome_iff_exists.mp known
  obtain ⟨a, rfl, rfl, last⟩ := tells.known name v found
  refine ⟨a, rfl, ?_, fun part hpart => ?_⟩
  · rw [resolve, Option.bind_some, found, Option.map_some, a.copied_auth]
  · -- Nothing is defined inside a service section.
    refine last.append tells.whole (not_begins_of_notMem ?_)
    exact mt (hpart.subset ·) x.defineAuth_notMem

theorem map_copied_resolve (name : Option String) :
    (resolve auths name).map Auth.copied = resolve auths name := by
  cases name with
  | none => rfl
  | some name =>
    rw [resolve, Option.bind_some, Option.map_map]
    exact congrArg (Option.map · _) (funext copied_copied)

theorem auth_resource (auths : Auths) (r : ResourceSection) :
    (r.resource auths).copied.auth = resolve auths r.auth := by
  have auth := (foldl_resourceItem
    { method := r.method, uri := r.uri, auth := resolve auths r.auth } (itemsOf r.items)).1
  show (r.resource auths).auth.map Auth.copied = _
  rw [ResourceSection.resource, auth, map_copied_resolve]

theorem bindsResource_resource {x : ServiceSection} (tells : Tells auths front)
    (known : Document.Known auths x.uses) (v : Service) {r : ResourceSection}
    (hr : r ∈ x.resources) : x.BindsResource front v r (r.resource auths).copied := by
  obtain ⟨_, method, uri⟩ := foldl_resourceItem
    { method := r.method, uri := r.uri, auth := resolve auths r.auth } (itemsOf r.items)
  refine ⟨method, uri, fun n hn => ?_, fun none => ?_⟩
  · rw [auth_resource, hn]
    refine named_resolve tells (known n ?_)
    obtain ⟨i, hi, hr⟩ := List.mem_flatMap.mp hr
    refine List.mem_append_right _ (List.mem_flatMap.mpr ⟨i, hi, ?_⟩)
    cases i with
    | resource r' =>
      obtain rfl := List.mem_singleton.mp hr
      show n ∈ r.auth.toList
      rw [hn]
      exact List.mem_singleton_self n
    | option _ | metric _ | extract _ => cases hr
  · have own : (r.resource auths).copied.auth = .none := by rw [auth_resource, none]; rfl
    refine ⟨own, ?_⟩
    rw [Service.authFor, Resource.authOr, own]
    rfl

/-- The services of a section behind the words in which the known auths are defined. -/
theorem binds_services {x : ServiceSection} (tells : Tells auths front)
    (known : Document.Known auths x.uses) (stack : Option String) :
    ∀ v ∈ x.services context auths stack, x.Binds context front v := by
  intro v hv
  obtain ⟨name, _, rfl⟩ := List.mem_map.mp hv
  obtain ⟨auth, resources⟩ := foldl_serviceItem auths
    { name := "", stack, auth := x.authOf context auths } (itemsOf x.items)
  have auth : (x.template context auths stack).copied.auth =
      (x.authOf context auths).map Auth.copied := congrArg (Option.map Auth.copied) auth
  have resources : (x.template context auths stack).copied.resources =
      x.resources.map fun r => (r.resource auths).copied := by
    refine (congrArg (List.map Resource.copied) resources).trans ?_
    rw [List.nil_append, List.map_map]
    rfl
  -- A service is a copy of its template, and the auths in it have been copied before.
  refine ⟨fun n hn => ?_, fun none => ?_, ?_⟩
  · show x.Named front n (x.template context auths stack).copied.auth
    rw [auth, authOf, hn, map_copied_resolve]
    exact named_resolve tells (known n (List.mem_append_left _ (hn ▸ List.mem_singleton_self n)))
  · show _ = Except.ok (x.template context auths stack).copied.auth
    rw [auth, authOf, none, mapM_option_eq_ok Auth.copy_eq_ok, Option.map_map]
    exact congrArg (fun copy => Except.ok (context.auth.map copy)) (funext copied_copied).symm
  · show List.Forall₂ _ x.resources (x.template context auths stack).copied.resources
    rw [resources, List.forall₂_map_right_iff, List.forall₂_same]
    exact fun r hr => bindsResource_resource tells known _ hr

end ServiceSection

end Syntax

namespace Document

open Syntax

variable {context : Context} {tokens : List Token} {front rest : List Word}

/-- In tokens that are read every use of an auth has a definition in front of it. -/
theorem exists_definition {threaded : Bool} {source : String}
    (h : tokenize threaded context source = .ok tokens) {c : Configuration}
    (hc : ofTokens tokens = .ok c) {n : String}
    (words : tokens.map Token.word = front ++ .mark .as :: .name n :: rest) (uses : Uses front) :
    ∃ a : AuthSection, a.name = n ∧ a.DefinedLast front := by
  obtain ⟨_, d, hd, conditions, _⟩ := (parsed_iff h).mp hc
  obtain ⟨before, p, x, part, n', rest', rfl, rfl, here, used⟩ :=
    Syntax.Document.exists_use (words ▸ hd.symm) uses
  -- Both names stand behind the same words.
  have same : n' = n := by
    have split := words.symm.trans hd
    rw [p.words_document, x.serviceLines_single, here, List.append_assoc] at split
    have split : part ++ .mark .as :: .name n :: rest =
        part ++ .mark .as :: .name n' :: (rest' ++ p.closing) := by simpa using split
    have names := (List.cons.inj (List.append_cancel_left split)).2
    exact (Word.name.inj (List.cons.inj names).1).symm
  obtain ⟨a, name, _, last⟩ := ServiceSection.named_resolve (p.tells context before)
    ((p.serviceValid (valid_iff.mpr conditions)).known n' used)
  exact ⟨a, name.trans same, last part ⟨_, here.symm⟩⟩

/-- The services that are read come from sections in the text. -/
theorem exists_origin {threaded : Bool} {source : String}
    (h : tokenize threaded context source = .ok tokens) {c : Configuration}
    (hc : ofTokens tokens = .ok c) {v : Service} (hv : v ∈ c.services) :
    ∃ front, ∃ x : ServiceSection, ∃ back, tokens.map Token.word = front ++ (x.words ++ back) ∧
      LineEnd back ∧ v.name ∈ x.names.toList ∧ x.Binds context front v := by
  obtain ⟨_, d, hd, conditions, rfl⟩ := (parsed_iff h).mp hc
  obtain ⟨before, p, x, rfl, given⟩ := Syntax.Document.exists_origin hv
  refine ⟨.mark .ctx :: (sameLevels before ++ p.opening), x, p.closing, ?_, p.lineEnd_closing,
    ?_, ?_⟩
  · rw [hd, p.words_document, x.serviceLines_single, List.cons_append, List.append_assoc]
  · exact x.names_services context _ _ ▸ List.mem_map_of_mem given
  · exact x.binds_services (p.tells context before)
      (p.serviceValid (valid_iff.mpr conditions)).known _ v given

/-- The auths of services and resources in a document that is read, wherever a section stands in it,
and the uses of auths that are not defined. -/
theorem auths_by_place {threaded : Bool} {source : String}
    (h : tokenize threaded context source = .ok tokens) :
    (∀ c, ofTokens tokens = .ok c →
      (∀ front rest, tokens.map Token.word = front ++ .mark .forService :: rest →
        ∃ before p, ∃ x : ServiceSection, ∃ given later,
          front = .mark .ctx :: (sameLevels before ++ Place.opening p) ∧
            .mark .forService :: rest = x.words ++ p.closing ∧
            c.services = (p.draft context).configuration.services ++ (given ++ later) ∧
            given.map (·.name) = x.names.toList ∧ ∀ v ∈ given, x.Binds context front v) ∧
      (∀ v ∈ c.services, ∃ front, ∃ x : ServiceSection, ∃ back,
        tokens.map Token.word = front ++ (x.words ++ back) ∧ LineEnd back ∧
          v.name ∈ x.names.toList ∧ x.Binds context front v) ∧
      ∀ front n rest, tokens.map Token.word = front ++ .mark .as :: .name n :: rest → Uses front →
        ∃ a : AuthSection, a.name = n ∧ a.DefinedLast front) ∧
    ∀ e, ofTokens tokens = .error (.error e) → e.problem.kind = .undefinedReference →
      ∃ before as t behind n, tokens = before ++ as :: t :: behind ∧ as.word = .mark .as ∧
        t.word = .name n ∧ Uses (before.map Token.word) ∧ ¬ Begins n (before.map Token.word) ∧
          e = .atSpan (.undefinedAuth n) t.span := by
  refine ⟨fun c hc => ⟨fun front rest words => ?_, fun v => exists_origin h hc,
    fun front n rest => exists_definition h hc⟩, fun e => ofTokens_undefined h⟩
  obtain ⟨before, p, x, later, rfl, here, valid, services⟩ := exists_section h hc words
  exact ⟨before, p, x, _, later, rfl, here, services, x.names_services context _ _,
    x.binds_services (p.tells context before) valid.known _⟩

/-- An auth that is defined again in a stack, in front of a service that uses it. -/
def redefined : List Syntax.Section :=
  [.auth ⟨"basic", "main", none⟩,
    .stack "web" ⟨.auth ⟨"token", "main", none⟩,
      [.service ⟨⟨"a", []⟩, some "main", some ⟨.resource ⟨.get, "u", none, none⟩, []⟩⟩]⟩]

theorem auths_by_place_redefined :
    let front : List Word := [.mark .ctx, .mark .defineAuth, .name "basic", .mark .as, .name "main",
      .mark .sameLevel, .mark .forStack, .name "web", .mark .blockOpen, .mark .defineAuth,
      .name "token", .mark .as, .name "main", .mark .sameLevel]
    ∃ tokens c, tokenize false {} (Outline.text 2 (redefined.map Syntax.Section.outline)) = .ok tokens ∧
      ofTokens tokens = .ok c ∧
      (∃ before p, ∃ x : ServiceSection, ∃ given later,
        front = .mark .ctx :: (sameLevels before ++ Place.opening p) ∧
          c.services = (p.draft {}).configuration.services ++ (given ++ later) ∧
          given.map (·.name) = x.names.toList ∧ ∀ v ∈ given, x.Binds {} front v) ∧
      ∃ a : AuthSection, a.name = "main" ∧
        a.DefinedLast (front ++ [.mark .forService, .name "a"]) := by
  intro front
  have printable : Outline.AllPrintable (redefined.map Syntax.Section.outline) := by decide
  obtain ⟨tokens, h, words⟩ := exists_tokens (k := 2) (by decide) printable false {}
  have valid : OkLines (SectionValid {}) (Syntax.Section.apply {}) {} redefined :=
    ⟨trivial, ⟨trivial, ⟨List.forall_mem_singleton.mpr rfl, nofun, nofun, nofun⟩, trivial⟩, trivial⟩
  have read := parsed_of_words h words (valid_iff.mp valid)
  obtain ⟨sections, _, definitions⟩ := (auths_by_place h).1 _ read
  obtain ⟨before, p, x, given, later, opened, _, rest⟩ := sections front _ words
  have uses : Uses (front ++ [.mark .forService, .name "a"]) := by
    intro before scheme heq
    have last := (List.append_inj' heq rfl).2
    simp at last
  exact ⟨tokens, _, h, read, ⟨before, p, x, given, later, opened, rest⟩,
    definitions _ "main" _ words uses⟩

end Document

end ScrapeConfig
