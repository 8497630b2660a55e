import ScrapeConfig.Proofs.Document.Grammar
import ScrapeConfig.Proofs.Document.Joint

/-!
# Documents behind each other

A document with a line break and another document behind it describes what the two documents
describe, if the other document begins with a line. Nothing of the first document gets into the
second: its blocks are closed at the line break, and its auths come behind those of the second
document, where all names that the second document uses are found already.

Results:
1. `Syntax.Document.followedBy`: the syntax tree of both documents.
2. `Framed`: lines that are read alike behind whatever was read before.
3. `Document.parse_joined`: the two documents as one.
-/

namespace ScrapeConfig

open Syntax (StackItem Section Lines sameLevels itemsOf resolve)

/-! ## Syntax -/

namespace Syntax.Document

open ScrapeConfig.Document (behindWords words_of_lines words_of_none section_content)

/-- A section and more lines behind a document. -/
def followedBy (d : Document) (x : Section) (lines : List (Nat × Section)) (behind : Nat) :
    Document :=
  match d.lines with
  | none => ⟨d.before + d.behind + 1, some ⟨x, lines⟩, behind⟩
  | some l => ⟨d.before, some ⟨l.first, l.rest ++ (d.behind, x) :: lines⟩, behind⟩

theorem words_followedBy {d : Document} {front : List Word} (h : d.words = front ++ [.mark .eof])
    (x : Section) (lines : List (Nat × Section)) (behind : Nat) :
    (d.followedBy x lines behind).words =
      front ++ .mark .sameLevel :: (x.words ++ behindWords lines behind) := by
  obtain ⟨before, above, between⟩ := d
  cases above with
  | none =>
    rw [words_of_none, ← List.cons_append] at h
    rw [followedBy, words_of_lines, ← List.append_cancel_right h]
    simp [sameLevels, List.replicate_succ']
  | some l =>
    rw [words_of_lines, behindWords] at h
    have hfront : front = .mark .ctx :: (sameLevels before ++ (l.words ++ sameLevels between)) := by
      refine List.append_cancel_right (h.symm.trans ?_)
      simp [Lines.words]
    rw [followedBy, words_of_lines, hfront]
    simp [Lines.words, behindWords, sameLevels, List.replicate_succ']

theorem sections_followedBy (d : Document) (x : Section) (lines : List (Nat × Section))
    (behind : Nat) :
    (d.followedBy x lines behind).sections = d.sections ++ x :: lines.map (·.2) := by
  obtain ⟨before, above, between⟩ := d
  cases above with
  | none => rfl
  | some l => simp [followedBy, sections]

theorem sameLevels_append_inj {m n : Nat} {v w : Word} {vs ws : List Word}
    (hv : v ≠ .mark .sameLevel) (hw : w ≠ .mark .sameLevel)
    (h : sameLevels m ++ v :: vs = sameLevels n ++ w :: ws) : v :: vs = w :: ws := by
  induction m generalizing n with
  | zero => cases n with
    | zero => exact h
    | succ n => exact absurd (List.cons.inj h).1 hv
  | succ m ih => cases n with
    | zero => exact absurd (List.cons.inj h).1.symm hw
    | succ n => exact ih (List.cons.inj h).2

/-- What follows the same-level tokens at the beginning of a document. -/
theorem of_sameLevels {d : Document} {n : Nat} {w : Word} {ws : List Word}
    (hw : w ≠ .mark .sameLevel) (h : .mark .ctx :: (sameLevels n ++ w :: ws) = d.words) :
    (w :: ws = [.mark .eof] ∧ d.sections = []) ∨
      ∃ x lines behind, w :: ws = x.words ++ behindWords lines behind ∧
        d.sections = x :: lines.map (·.2) := by
  obtain ⟨before, above, behind⟩ := d
  cases above with
  | none =>
    rw [words_of_none] at h
    exact .inl ⟨sameLevels_append_inj hw (by decide) (List.cons.inj h).2, rfl⟩
  | some l =>
    obtain ⟨v, vs, hx, content⟩ := section_content l.first
    have hv : v ≠ .mark .sameLevel := fun heq => content.not_beginsLine (.inr heq)
    rw [words_of_lines, hx] at h
    refine .inr ⟨l.first, l.rest, behind, ?_, rfl⟩
    rw [hx]
    exact sameLevels_append_inj hw hv (List.cons.inj h).2

/-- The sentence of two documents. The words of the other one are its own, but for the same-level
tokens in front of them. -/
theorem exists_joined {x y : Document} {front vs ws : List Word}
    (hx : x.words = .mark .ctx :: (front ++ [.mark .eof])) (hy : .mark .ctx :: vs = y.words)
    (h : (vs = [.mark .eof] ∧ ws = [.mark .eof]) ∨
      ∃ n w ws', vs = sameLevels n ++ w :: ws' ∧ w.IsContent ∧ ws = .mark .sameLevel :: w :: ws') :
    ∃ z : Document, .mark .ctx :: (front ++ ws) = z.words ∧ z.sections = x.sections ++ y.sections := by
  rcases h with ⟨rfl, rfl⟩ | ⟨n, w, ws', rfl, content, rfl⟩
  · rcases of_sameLevels (n := 0) (by decide) hy with ⟨_, none⟩ | ⟨z, lines, behind, hz, _⟩
    · exact ⟨x, hx.symm, by rw [none, List.append_nil]⟩
    · obtain ⟨v, vs, hv, content⟩ := section_content z
      rw [hv] at hz
      exact absurd (List.cons.inj hz).1.symm content.ne_eof
  · have hw : w ≠ .mark .sameLevel := fun heq => content.not_beginsLine (.inr heq)
    rcases of_sameLevels hw hy with ⟨heof, _⟩ | ⟨z, lines, behind, hz, sections⟩
    · exact absurd (List.cons.inj heof).1 content.ne_eof
    · refine ⟨x.followedBy z lines behind, ?_, by rw [sections_followedBy, sections]⟩
      rw [← List.cons_append] at hx
      rw [words_followedBy hx, hz, List.cons_append]

end Syntax.Document

/-! ## Auths that come behind -/

namespace Document

variable {auths more : Auths} {context : Context}

theorem lookup_append {name : String} (h : (auths.lookup name).isSome) :
    (auths ++ more).lookup name = auths.lookup name := by
  rw [List.lookup_append, Option.or_of_isSome h]

theorem Known.append {names : List String} (h : Known auths names) : Known (auths ++ more) names := by
  intro n hn
  rw [lookup_append (h n hn)]
  exact h n hn

theorem resolve_append {name : Option String} (h : Known auths name.toList) :
    resolve (auths ++ more) name = resolve auths name := by
  cases name with
  | none => rfl
  | some name => rw [resolve, resolve, Option.bind_some, Option.bind_some,
      lookup_append (h name (List.mem_singleton_self name))]

theorem serviceItem_append {x : Syntax.ServiceItem} (h : Known auths x.uses) (s : Service) :
    x.apply (auths ++ more) s = x.apply auths s := by
  cases x with
  | resource r =>
    rw [Syntax.ServiceItem.apply, Syntax.ServiceItem.apply, Syntax.ResourceSection.resource,
      resolve_append h]
    rfl
  | _ => rfl

theorem services_append {x : Syntax.ServiceSection} (h : Known auths x.uses)
    (stack : Option String) :
    x.services context (auths ++ more) stack = x.services context auths stack := by
  obtain ⟨ofAuth, ofItems⟩ := List.forall_mem_append.mp h
  have auth : x.authOf context (auths ++ more) = x.authOf context auths := by
    rw [Syntax.ServiceSection.authOf, Syntax.ServiceSection.authOf]
    cases hx : x.auth with
    | none => rfl
    | some name =>
      rw [hx] at ofAuth
      exact resolve_append ofAuth
  have items : ∀ s, (itemsOf x.items).foldl (Syntax.ServiceItem.apply (auths ++ more)) s =
      (itemsOf x.items).foldl (Syntax.ServiceItem.apply auths) s := fun s =>
    List.foldl_ext _ _ s fun s i hi =>
      serviceItem_append (fun n hn => ofItems n (List.mem_flatMap.mpr ⟨i, hi, hn⟩)) s
  rw [Syntax.ServiceSection.services, Syntax.ServiceSection.template, auth, items]
  rfl

theorem ServiceValid.append {x : Syntax.ServiceSection} (h : ServiceValid context auths x) :
    ServiceValid context (auths ++ more) x := ⟨Known.append h.known, h.complete, h.fits⟩

/-! ## What was read before -/

/-- What has been read behind another draft, with the other draft in front of it. -/
def Draft.behind (d front : Draft) : Draft :=
  ⟨d.auths ++ front.auths, front.configuration.extend d.configuration⟩

theorem Draft.behind_add (d front : Draft) (services : List Service) :
    (d.behind front).add services = (d.add services).behind front := by
  simp [Draft.behind, Draft.add, Configuration.extend]

theorem Draft.empty_behind (front : Draft) : ({} : Draft).behind front = front := by
  simp [Draft.behind, Configuration.extend]

/-- Lines that are read alike whatever was read in front of everything that they need. -/
def Framed {τ : Type} (ok : Draft → τ → Prop) (step : Draft → τ → Draft) : Prop :=
  ∀ front d x, ok d x → ok (d.behind front) x ∧ step (d.behind front) x = (step d x).behind front

theorem Framed.lines {τ : Type} {ok : Draft → τ → Prop} {step : Draft → τ → Draft}
    (h : Framed ok step) : Framed (OkLines ok step) (List.foldl step) := by
  intro front d xs
  induction xs generalizing d with
  | nil => exact fun _ => ⟨trivial, rfl⟩
  | cons x xs ih =>
    rintro ⟨hx, hxs⟩
    obtain ⟨valid, step_eq⟩ := h front d x hx
    obtain ⟨valids, steps_eq⟩ := ih (step d x) hxs
    rw [List.foldl_cons, List.foldl_cons, OkLines, step_eq]
    exact ⟨⟨valid, valids⟩, steps_eq⟩

theorem framed_stackItem (context : Context) (stack : String) :
    Framed (StackItemValid context) (StackItem.apply context stack) := by
  rintro front d (x | x) h
  · refine ⟨ServiceValid.append h, ?_⟩
    show (d.behind front).add (x.services context (d.auths ++ front.auths) (some stack)) = _
    rw [services_append h.known, Draft.behind_add]
    rfl
  · exact ⟨trivial, rfl⟩

theorem framed_section (context : Context) :
    Framed (SectionValid context) (Section.apply context) := by
  rintro front d (_ | x | ⟨stack, items⟩ | x) h
  · refine ⟨trivial, ?_⟩
    simp [Section.apply, Draft.markDataset, Draft.behind, Configuration.extend]
  · exact ⟨trivial, rfl⟩
  · exact (framed_stackItem context stack).lines front d items.toList h
  · refine ⟨ServiceValid.append h, ?_⟩
    show (d.behind front).add (x.services context (d.auths ++ front.auths) none) = _
    rw [services_append h.known, Draft.behind_add]
    rfl

/-- What two lists of sections describe that can be read each by itself. -/
theorem sections_joined {xs ys : List Section}
    (hx : OkLines (SectionValid context) (Section.apply context) {} xs)
    (hy : OkLines (SectionValid context) (Section.apply context) {} ys) :
    OkLines (SectionValid context) (Section.apply context) {} (xs ++ ys) ∧
      ((xs ++ ys).foldl (Section.apply context) {}).configuration =
        (xs.foldl (Section.apply context) {}).configuration.extend
          (ys.foldl (Section.apply context) {}).configuration := by
  obtain ⟨valid, value⟩ :=
    (framed_section context).lines (xs.foldl (Section.apply context) {}) {} ys hy
  rw [Draft.empty_behind] at valid value
  refine ⟨okLines_append.mpr ⟨hx, valid⟩, ?_⟩
  rw [List.foldl_append, value]
  rfl

/-! ## Two documents -/

theorem parse_eq_ok {threaded : Bool} {source : String} {c : Configuration} :
    parse threaded context source = .ok c ↔
      ∃ tokens, tokenize threaded context source = .ok tokens ∧ ofTokens tokens = .ok c := by
  rw [parse]
  cases tokenize threaded context source with
  | error e => exact ⟨nofun, nofun⟩
  | ok tokens =>
    show (ofTokens tokens).mapError LoadError.ofFault = .ok c ↔ _
    cases hread : ofTokens tokens with
    | error e => simp [Except.mapError, hread]
    | ok d => simp [Except.mapError, hread]

/-- A document with a line break and another document behind it, whose first token stands at the
beginning of a line: both are read, and the services of the other one come behind those of the
first. -/
theorem parse_joined {threaded : Bool} {first second : String} {c d : Configuration}
    (hc : parse threaded context first = .ok c) (hd : parse threaded context second = .ok d)
    (start : ∀ tokens, tokenize threaded context second = .ok tokens → AtLineStart tokens) :
    parse threaded context (first ++ "\n" ++ second) = .ok (c.extend d) ∧
      (c.extend d).dataset = (c.dataset || d.dataset) ∧
      (c.extend d).services = c.services ++ d.services := by
  refine ⟨?_, rfl, rfl⟩
  obtain ⟨_, hfirst, hc⟩ := parse_eq_ok.mp hc
  obtain ⟨_, hsecond, hd⟩ := parse_eq_ok.mp hd
  obtain ⟨_, x, hx, xConditions, rfl⟩ := (parsed_iff hfirst).mp hc
  obtain ⟨_, y, hy, yConditions, rfl⟩ := (parsed_iff hsecond).mp hd
  obtain ⟨ts, rfl, cut⟩ := tokenize_eq_ok.mp hfirst
  have start := start _ hsecond
  obtain ⟨ts', rfl, cut'⟩ := tokenize_eq_ok.mp hsecond
  -- The sentence of the first text is what rules out a comma at its end.
  have commas : CommasFollowed (ts.map Token.word) := fun before behind heq => by
    rw [List.map_cons, heq, ← List.cons_append] at hx
    exact x.regular_words.comma_follow hx.symm
  obtain ⟨space, rest, ws, hspace, layout, stops, next, hws⟩ := exists_beginning cut' start
  obtain ⟨front, hfront, said⟩ := says_joined cut Tracker.grounded_empty commas layout stops next
  obtain ⟨us, joined, hus⟩ := said {}
  rw [List.map_cons, hfront] at hx
  obtain ⟨z, hz, sections⟩ := Syntax.Document.exists_joined hx.symm hy hws
  have tokens : tokenize threaded context (first ++ "\n" ++ second) = .ok (.opening context :: us) := by
    refine tokenize_eq_ok.mpr ⟨us, rfl, ?_⟩
    rw [String.toList_append, String.toList_append, hspace, List.append_assoc]
    exact joined
  obtain ⟨valid, value⟩ := sections_joined (valid_iff.mpr xConditions) (valid_iff.mpr yConditions)
  rw [← sections] at valid value
  refine parse_eq_ok.mpr ⟨_, tokens, ?_⟩
  rw [parsed_of_words tokens (by rw [List.map_cons, hus]; exact hz) (valid_iff.mp valid)]
  exact congrArg Except.ok value

/-- What the document says with the two services. -/
theorem parse_api :
    parse false {} apiText = .ok ((Syntax.Document.ofSections apiSections).configuration {}) :=
  parse_eq_ok.mpr ⟨_, tokenize_api false,
    parsed_of_words (tokenize_api false) words_api (valid_iff.mp valid_api)⟩

/-- A document with an auth of the same name, and a service of a stack. -/
def databaseText : String := "DEFINE_AUTH \"token\" AS \"main\"
FOR_STACK \"storage\"
  FOR_SERVICE \"database\" AS \"main\"
    METRIC
      TYPE GAUGE
      NAME \"up\"
"

def databaseSections : List Section :=
  [.auth ⟨"token", "main", none⟩,
    .stack "storage" ⟨.service ⟨⟨"database", []⟩, some "main",
      some ⟨.metric ⟨.type .gauge, [.name "up"]⟩, []⟩⟩, []⟩]

def databaseTokens : List Token :=
  .opening {} :: Outline.tokens 2 (databaseSections.map Section.outline)

set_option maxRecDepth 2000 in
theorem databaseText_eq : databaseText = Outline.text 2 (databaseSections.map Section.outline) := by
  rfl

theorem tokenize_database : tokenize false {} databaseText = .ok databaseTokens := by
  rw [databaseText_eq]
  exact tokenize_text 2 (by decide) false {}

theorem parse_database : parse false {} databaseText =
    .ok ((Syntax.Document.ofSections databaseSections).configuration {}) := by
  have complete : Syntax.MetricBlock.Complete ⟨.type .gauge, [.name "up"]⟩ :=
    ⟨⟨"up", .tail _ (.head _)⟩, .gauge, .head _⟩
  have valid : OkLines (SectionValid {}) (Section.apply {}) {} databaseSections :=
    ⟨trivial, ⟨⟨by decide, List.forall_mem_singleton.mpr complete, nofun, nofun⟩, trivial⟩, trivial⟩
  exact parse_eq_ok.mpr ⟨_, tokenize_database,
    parsed_of_words tokenize_database rfl (valid_iff.mp valid)⟩

/-- The blocks that are open at the end of the first document are closed in front of the second
one, which defines its auth again. -/
theorem parse_joined_api :
    let c := (Syntax.Document.ofSections apiSections).configuration {}
    let d := (Syntax.Document.ofSections databaseSections).configuration {}
    parse false {} (apiText ++ "\n" ++ databaseText) = .ok (c.extend d) ∧
      (c.extend d).services.map (·.name) = ["api", "web", "database"] := by
  refine ⟨(parse_joined parse_api parse_database fun tokens h => ?_).1, rfl⟩
  obtain rfl := Except.ok.inj (tokenize_database.symm.trans h)
  rintro t ⟨⟩
  rfl

end Document

end ScrapeConfig
