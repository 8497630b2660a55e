import ScrapeConfig.Proofs.Document.Drafts
import ScrapeConfig.Proofs.Document.Printing

/-!
# Services with several names

A service section with several names says what a section for every single name would say, one behind
the other, wherever it stands: either both documents can be read or none, and the same is read. The
services that it stands for come behind those that are there, and have all in common but the name.

Results:
1. `Syntax.ServiceSection.copies`: the sections of the single names.
2. `Syntax.Place.conditions_of_alike`: what a document has to keep to does not depend on the names.
3. `Syntax.Place.configuration_copies`: neither does the configuration.
4. `Document.ofTokens_apart`: the two documents.
-/

namespace ScrapeConfig

namespace Syntax

open ScrapeConfig.Document (Auths Draft Resolved ServiceGood learn names valid_iff okLines_mentions
  section_mentions resolved_uses foldl_learn_uses)

variable {context : Context} {α β : Type}

/-! ## Sections for single names -/

namespace ServiceSection

def withNames (x : ServiceSection) (names : Series String) : ServiceSection := { x with names }

/-- A section for every name. -/
def copies (x : ServiceSection) : Series ServiceSection :=
  ⟨x.withNames ⟨x.names.first, []⟩, x.names.rest.map fun n => x.withNames ⟨n, []⟩⟩

theorem toList_copies (x : ServiceSection) :
    x.copies.toList = x.names.toList.map fun n => x.withNames ⟨n, []⟩ := rfl

/-- Sections that differ in their names at most. -/
structure Alike (x y : ServiceSection) : Prop where
  auth : x.auth = y.auth
  items : x.items = y.items

theorem serviceLines_copies (x : ServiceSection) :
    serviceLines x.copies = apart x.names x.clause := by
  rw [serviceLines, apart, apartBehind, copies, List.flatMap_map]
  rfl

theorem alike_withNames (x : ServiceSection) (names : Series String) : x.Alike (x.withNames names) :=
  ⟨rfl, rfl⟩

theorem alike_of_mem_copies {x y : ServiceSection} (h : y ∈ x.copies.toList) : x.Alike y := by
  rw [toList_copies] at h
  obtain ⟨name, _, rfl⟩ := List.mem_map.mp h
  exact x.alike_withNames _

theorem Alike.uses {x y : ServiceSection} (h : x.Alike y) : x.uses = y.uses := by
  rw [ServiceSection.uses, ServiceSection.uses, h.auth, h.items]

theorem Alike.good {x y : ServiceSection} (h : x.Alike y) (good : ServiceGood context x) :
    ServiceGood context y := by
  obtain ⟨complete, fits⟩ := good
  rw [metrics, h.items] at complete
  rw [Fits, options, h.items] at fits
  exact ⟨complete, fits⟩

/-- The services of the copies. -/
theorem services_copies (context : Context) (auths : Auths) (stack : Option String)
    (x : ServiceSection) :
    x.copies.toList.flatMap (services context auths stack) = x.services context auths stack := by
  rw [toList_copies, List.flatMap_map, services, List.map_eq_flatMap]
  rfl

end ServiceSection

/-! ## What a document has to keep to -/

/-- The conditions on a document, as conditions on what is collected from its sections. -/
theorem Document.conditions_iff {d : Document} :
    (d.AuthsDefined ∧ d.MetricsComplete ∧ d.OptionsFit context) ↔
      Resolved [] d.mentions ∧ ∀ x ∈ d.services, ServiceGood context x := by
  rw [← valid_iff]
  exact (okLines_mentions (fun d x => (section_mentions context d x).1)
    (fun d x => (section_mentions context d x).2) {} d.sections).1

/-- Uses among other mentions. -/
theorem resolved_among {above below : List Mention} {used : List String} :
    Resolved [] (above ++ (used.map .uses ++ below)) ↔ Resolved [] above ∧
      (∀ n ∈ used, n ∈ above.foldl learn []) ∧ Resolved (above.foldl learn []) below := by
  rw [Resolved, okLines_append, okLines_append, foldl_learn_uses]
  exact and_congr Iff.rfl (and_congr resolved_uses Iff.rfl)

namespace Place

variable {p : Place}

/-- What is collected from the sections of a document, of which a part comes from a place. -/
theorem exists_collected {f : Section → List β} {g : StackItem → List β}
    {k : ServiceSection → List β} (ofSection : ∀ x, f (.service x) = k x)
    (ofItem : ∀ x, g (.service x) = k x)
    (ofStack : ∀ name items, f (.stack name items) = items.toList.flatMap g) (p : Place) :
    ∃ above below, ∀ before s, (p.document before s).sections.flatMap f =
      above ++ (s.toList.flatMap k ++ below) := by
  obtain ⟨above, _ | e, below, behind⟩ := p
  · refine ⟨(above.map (·.1)).flatMap f, (below.map (·.2)).flatMap f, fun before s => ?_⟩
    rw [sections_document]
    simp [inside, ofSection, List.flatMap_map]
  · refine ⟨(above.map (·.1)).flatMap f ++ e.above.flatMap g,
      e.below.flatMap g ++ (below.map (·.2)).flatMap f, fun before s => ?_⟩
    rw [sections_document]
    simp [inside, ofStack, Enclosure.toList_items, ofItem, List.flatMap_map]

theorem exists_services (p : Place) : ∃ above below, ∀ before s,
    (p.document before s).services = above ++ (s.toList ++ below) := by
  obtain ⟨above, below, collected⟩ := exists_collected (f := Section.services)
    (g := StackItem.services) (k := fun x => [x]) (fun _ => rfl) (fun _ => rfl) (fun _ _ => rfl) p
  refine ⟨above, below, fun before s => (collected before s).trans ?_⟩
  rw [List.flatMap_singleton']

theorem exists_mentions (p : Place) : ∃ above below, ∀ before s,
    (p.document before s).mentions =
      above ++ ((s.toList.flatMap ServiceSection.uses).map .uses ++ below) := by
  obtain ⟨above, below, collected⟩ := exists_collected (f := Section.mentions)
    (g := StackItem.mentions) (k := fun x => x.uses.map .uses) (fun _ => rfl) (fun _ => rfl)
    (fun _ _ => rfl) p
  refine ⟨above, below, fun before s => (collected before s).trans ?_⟩
  rw [List.map_flatMap]

/-- Sections in the place of others that differ from them in their names at most. -/
theorem conditions_of_alike {before before' : Nat} {s s' : Series ServiceSection}
    (alike : ∀ y ∈ s'.toList, ∃ x ∈ s.toList, x.Alike y)
    (h : (p.document before s).AuthsDefined ∧ (p.document before s).MetricsComplete ∧
      (p.document before s).OptionsFit context) :
    (p.document before' s').AuthsDefined ∧ (p.document before' s').MetricsComplete ∧
      (p.document before' s').OptionsFit context := by
  rw [Document.conditions_iff] at h ⊢
  obtain ⟨above, below, mentions⟩ := p.exists_mentions
  obtain ⟨servicesAbove, servicesBelow, services⟩ := p.exists_services
  rw [mentions, services, resolved_among] at h ⊢
  obtain ⟨⟨known, here, behind⟩, good⟩ := h
  obtain ⟨goodAbove, good⟩ := List.forall_mem_append.mp good
  obtain ⟨good, goodBelow⟩ := List.forall_mem_append.mp good
  refine ⟨⟨known, fun n hn => ?_, behind⟩,
    List.forall_mem_append.mpr ⟨goodAbove, List.forall_mem_append.mpr ⟨fun y hy => ?_, goodBelow⟩⟩⟩
  · obtain ⟨y, hy, used⟩ := List.mem_flatMap.mp hn
    obtain ⟨x, hx, same⟩ := alike y hy
    exact here n (List.mem_flatMap.mpr ⟨x, hx, same.uses ▸ used⟩)
  · obtain ⟨x, hx, same⟩ := alike y hy
    exact same.good (good x hx)

/-! ## What is read -/

/-- Behind the sections of single names the draft is as it is behind the section of all names. -/
theorem read_copies (context : Context) (p : Place) (d : Draft) (x : ServiceSection) :
    p.read context d x.copies.toList = d.add (x.services context d.auths p.stack) := by
  rw [read, x.services_copies]

theorem configuration_copies (context : Context) (p : Place) (before : Nat) (x : ServiceSection) :
    (p.document before x.copies).configuration context =
      (p.document before ⟨x, []⟩).configuration context := by
  rw [configuration_document, configuration_document, read_copies, read]
  simp [Series.toList]

end Place

end Syntax

/-! ## Two documents -/

namespace Document

open Syntax (Series Place ServiceSection sameLevels listed apart apartBehind)

variable {threaded threaded' : Bool} {context : Context} {source source' : String}
  {tokens tokens' : List Token} {front tail back : List Word} {names : Series String}

/-- In tokens that are read no line goes back to a level that is not there. -/
theorem enclosed_of_read (h : tokenize threaded context source = .ok tokens) {c : Configuration}
    (hc : ofTokens tokens = .ok c) (htail : Enclosed Word.IsWithin 0 tail)
    (mem : ∀ w ∈ tail, w ∈ tokens.map Token.word) : Enclosed Word.IsContent 0 tail := by
  obtain ⟨_, d, hd, _⟩ := (parsed_iff h).mp hc
  refine htail.mono fun w hw within => within.resolve_right ?_
  rintro rfl
  exact d.regular_words.badIndent_notMem (hd ▸ mem _ hw)

section

variable (htail : Enclosed Word.IsWithin 0 tail) (comma : tail.head? ≠ some (.mark .comma))
  (ends : BehindLine back)

include htail comma ends

/-- What is read at tokens among which a service section of some names is. -/
theorem exists_listed (h : tokenize threaded context source = .ok tokens)
    (words : tokens.map Token.word = front ++ (listed names tail ++ back)) {c : Configuration}
    (hc : ofTokens tokens = .ok c) :
    ∃ before p x, front = .mark .ctx :: (sameLevels before ++ Place.opening p) ∧
      x.names = names ∧ x.clause = tail ∧ p.closing = back ∧
      ((p.document before ⟨x, []⟩).AuthsDefined ∧ (p.document before ⟨x, []⟩).MetricsComplete ∧
        (p.document before ⟨x, []⟩).OptionsFit context) ∧
      c = (p.document before ⟨x, []⟩).configuration context := by
  have clean := enclosed_of_read h hc htail fun w hw => by simp [words, listed, hw]
  obtain ⟨_, d, hd, conditions, rfl⟩ := (parsed_iff h).mp hc
  obtain ⟨before, p, x, rfl, rfl, here⟩ := Syntax.Document.exists_place (words ▸ hd.symm)
  obtain ⟨rfl, rfl, rfl⟩ := x.words_cancel clean comma ends p.lineEnd_closing here.symm
  exact ⟨before, p, x, rfl, rfl, rfl, rfl, conditions, rfl⟩

/-- The same for tokens among which there are sections of the single names. -/
theorem exists_apart (h : tokenize threaded context source = .ok tokens)
    (words : tokens.map Token.word = front ++ (apart names tail ++ back)) {c : Configuration}
    (hc : ofTokens tokens = .ok c) :
    ∃ before p x xs, front = .mark .ctx :: (sameLevels before ++ Place.opening p) ∧
      x.clause = tail ∧ p.closing = back ∧
      (p.document before ⟨x, xs⟩).AuthsDefined ∧ (p.document before ⟨x, xs⟩).MetricsComplete ∧
        (p.document before ⟨x, xs⟩).OptionsFit context := by
  have clean := enclosed_of_read h hc htail fun w hw => by simp [words, apart, listed, hw]
  -- The section of the first name is there, and the other ones are gathered from below it.
  rw [apart, List.append_assoc] at words
  obtain ⟨before, p, x, rfl, _, clause, closing, conditions, _⟩ := exists_listed htail comma
    (Syntax.behindLine_apartBehind ends names.rest tail) h words hc
  obtain ⟨q, xs, opened, closed, same⟩ := Place.exists_gathered clean comma ends closing
  rw [same] at conditions
  exact ⟨before, q, x, xs, by rw [opened], clause, closed, conditions⟩

theorem ofTokens_apart_of_listed (h : tokenize threaded context source = .ok tokens)
    (h' : tokenize threaded' context source' = .ok tokens')
    (words : tokens.map Token.word = front ++ (listed names tail ++ back))
    (words' : tokens'.map Token.word = front ++ (apart names tail ++ back)) {c : Configuration}
    (hc : ofTokens tokens = .ok c) : ofTokens tokens' = .ok c := by
  obtain ⟨before, p, x, rfl, rfl, rfl, rfl, conditions, rfl⟩ :=
    exists_listed htail comma ends h words hc
  have sentence : tokens'.map Token.word = (p.document before x.copies).words := by
    rw [words', p.words_document, x.serviceLines_copies, List.cons_append, List.append_assoc]
  have alike : ∀ y ∈ x.copies.toList, ∃ z ∈ Series.toList ⟨x, []⟩, z.Alike y := fun y hy =>
    ⟨x, List.mem_cons_self, ServiceSection.alike_of_mem_copies hy⟩
  rw [← p.configuration_copies]
  exact parsed_of_words h' sentence (Place.conditions_of_alike alike conditions)

/-- The section of all names is made from the first one of the single names. -/
theorem ofTokens_listed_of_apart (h : tokenize threaded context source = .ok tokens)
    (h' : tokenize threaded' context source' = .ok tokens')
    (words : tokens.map Token.word = front ++ (listed names tail ++ back))
    (words' : tokens'.map Token.word = front ++ (apart names tail ++ back)) {c : Configuration}
    (hc : ofTokens tokens' = .ok c) : ofTokens tokens = .ok c := by
  obtain ⟨before, p, x, xs, rfl, rfl, rfl, conditions⟩ :=
    exists_apart htail comma ends h' words' hc
  have sentence : tokens.map Token.word =
      (p.document before ⟨x.withNames names, []⟩).words := by
    rw [words, p.words_document, ServiceSection.serviceLines_single, List.cons_append,
      List.append_assoc]
    rfl
  have alike : ∀ y ∈ Series.toList ⟨x.withNames names, []⟩,
      ∃ z ∈ Series.toList ⟨x, xs⟩, z.Alike y := by
    intro y hy
    obtain rfl := List.mem_singleton.mp hy
    exact ⟨x, List.mem_cons_self, x.alike_withNames names⟩
  have read := parsed_of_words h sentence (Place.conditions_of_alike alike conditions)
  have same := ofTokens_apart_of_listed htail comma ends h h' words words' read
  rw [read, ← same, hc]

end

/-- A service section of some names in a document, and a section for every single name in its place,
with the same auth and the same block, whatever they are and wherever the section stands. The two
documents are read alike, if they are read. The services are copies of one service, which have their
own names and come behind the services that are there. -/
theorem ofTokens_apart (h : tokenize threaded context source = .ok tokens)
    (h' : tokenize threaded' context source' = .ok tokens')
    (htail : Enclosed Word.IsWithin 0 tail) (comma : tail.head? ≠ some (.mark .comma))
    (ends : BehindLine back) (words : tokens.map Token.word = front ++ (listed names tail ++ back))
    (words' : tokens'.map Token.word = front ++ (apart names tail ++ back)) :
    (∀ c, ofTokens tokens = .ok c ↔ ofTokens tokens' = .ok c) ∧
      ∀ c, ofTokens tokens = .ok c → ∃ before p, ∃ (service : Service) (later : List Service),
        front = .mark .ctx :: (sameLevels before ++ Place.opening p) ∧
          c.services = (p.draft context).configuration.services ++
            (names.toList.map (fun name => { service with name }) ++ later) := by
  refine ⟨fun c => ⟨ofTokens_apart_of_listed htail comma ends h h' words words',
    ofTokens_listed_of_apart htail comma ends h h' words words'⟩, fun c hc => ?_⟩
  obtain ⟨before, p, x, rfl, rfl, _, _, _, rfl⟩ := exists_listed htail comma ends h words hc
  obtain ⟨later, services⟩ := p.services_document context before x
  exact ⟨before, p, (x.template context (p.draft context).auths p.stack).copied, later, rfl, services⟩

/-- A stack with service sections, below the definition of an auth. -/
def stackedSections (services : Series ServiceSection) : List Syntax.Section :=
  [.auth ⟨"basic", "main", none⟩,
    .stack "web" ⟨.service services.first, services.rest.map .service⟩]

theorem ofTokens_apart_stacked :
    let joint := stackedSections ⟨⟨⟨"a", ["b"]⟩, some "main", none⟩, []⟩
    let single := stackedSections
      ⟨⟨⟨"a", []⟩, some "main", none⟩, [⟨⟨"b", []⟩, some "main", none⟩]⟩
    ∃ tokens tokens' c,
      tokenize false {} (Outline.text 2 (joint.map Syntax.Section.outline)) = .ok tokens ∧
      tokenize true {} (Outline.text 2 (single.map Syntax.Section.outline)) = .ok tokens' ∧
      ofTokens tokens = .ok c ∧ ofTokens tokens' = .ok c := by
  intro joint single
  have printable : Outline.AllPrintable (joint.map Syntax.Section.outline) := by decide
  have printable' : Outline.AllPrintable (single.map Syntax.Section.outline) := by decide
  obtain ⟨tokens, h, words⟩ := exists_tokens (k := 2) (by decide) printable false {}
  obtain ⟨tokens', h', words'⟩ := exists_tokens (k := 2) (by decide) printable' true {}
  have valid : OkLines (SectionValid {}) (Syntax.Section.apply {}) {} joint :=
    ⟨trivial, ⟨⟨List.forall_mem_singleton.mpr rfl, nofun, nofun, nofun⟩, trivial⟩, trivial⟩
  have read := parsed_of_words h words (valid_iff.mp valid)
  have tail : Enclosed Word.IsWithin 0 [.mark .as, .name "main"] :=
    .word (.inl (by decide)) (.word (.inl trivial) .nil)
  let front : List Word := [.mark .ctx, .mark .defineAuth, .name "basic", .mark .as, .name "main",
    .mark .sameLevel, .mark .forStack, .name "web", .mark .blockOpen]
  let back : List Word := [.mark .blockClose, .mark .eof]
  have words : tokens.map Token.word =
      front ++ (listed ⟨"a", ["b"]⟩ [.mark .as, .name "main"] ++ back) := words
  have ends : BehindLine back := ⟨.mark .blockClose, _, rfl, by decide⟩
  have same := ofTokens_apart h h' tail (by decide) ends words words'
  exact ⟨tokens, tokens', _, h, h', read, (same.1 _).mp read⟩

end Document

end ScrapeConfig
