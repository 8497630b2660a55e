import ScrapeConfig.Proofs.Document.Outline
import ScrapeConfig.Proofs.Document.Syntax

/-!
# Syntax trees as outlines

Every production as an outline: its header is a line, and the lines of its block are below it. The
words of the outline are those of the tree, so the text of a document says the sentence that the
document is.

Results:
1. `Section.outline`, `Section.words_outline`, and their like for the other productions.
2. `Document.ofSections`, `Document.words_ofSections`: documents with one section after the other.
3. `Document.tokenize_text`, `Document.exists_tokens`: their texts are cut into tokens, which say the
   sections.
-/

namespace ScrapeConfig.Syntax

open Outline (innerWords behindWords AllPrintable)

/-! ## Lines and blocks -/

/-- A line with spaces between its words. -/
def spaced (w : Word) (ws : List Word) : Phrase := ⟨w, ws.map (.space, ·)⟩

/-- Names behind a first one, with commas in front of them. -/
def commas (names : List String) : List (Gap × Word) := names.map fun n => (.comma, .name n)

theorem words_spaced (w : Word) (ws : List Word) : (spaced w ws).words = w :: ws := by
  simp [spaced, Phrase.words, Phrase.restWords, Gap.words, List.flatMap_map]

theorem words_commas (n : String) (names : List String) (ws : List Word) :
    Phrase.restWords ((.space, .name n) :: (commas names ++ ws.map (.space, ·))) =
      (Series.mk n names).names ++ ws := by
  simp [Phrase.restWords, commas, Series.names, Gap.words, List.flatMap_map]

theorem printable_spaced {w : Word} {ws : List Word} (hw : w.Printable)
    (hws : ∀ w ∈ ws, w.Printable) : (spaced w ws).Printable :=
  ⟨hw, List.forall_mem_map.mpr hws⟩

section

variable {α : Type} {f : α → Outline} {words : α → List Word}

theorem behindWords_map (h : ∀ x, (f x).words = words x) (xs : List α) :
    behindWords (xs.map f) =
      xs.flatMap (fun x => .mark .sameLevel :: words x) ++ [.mark .blockClose] := by
  induction xs with
  | nil => rfl
  | cons x xs ih =>
    rw [List.map_cons, behindWords, h, ih, List.flatMap_cons, List.append_assoc, List.cons_append]

theorem innerWords_series (h : ∀ x, (f x).words = words x) (s : Series α) :
    innerWords (s.toList.map f) = s.block words := by
  rw [Series.toList, List.map_cons, innerWords, h, behindWords_map h]
  rfl

theorem innerWords_itemsOf (h : ∀ x, (f x).words = words x) (o : Option (Series α)) :
    innerWords ((itemsOf o).map f) = optionalBlock words o := by
  cases o with
  | none => rfl
  | some s => exact innerWords_series h s

theorem allPrintable_map {xs : List α} : AllPrintable (xs.map f) ↔ ∀ x ∈ xs, (f x).Printable := by
  induction xs with
  | nil => exact ⟨fun _ => List.forall_mem_nil _, fun _ => trivial⟩
  | cons x xs ih => rw [List.map_cons, AllPrintable, ih, List.forall_mem_cons]

end

/-! ## Options, decoders and metrics -/

def Setting.outline (s : Setting) : Outline :=
  .node (spaced (.mark .set) [.name s.key, .mark .to, .name s.value]) []

def OptionItem.outline : OptionItem → Outline
  | .set s => s.outline
  | .group settings => .node (spaced (.mark .withOptions) []) (settings.toList.map Setting.outline)

def Extract.outline (e : Extract) : Outline :=
  .node (spaced (.mark .extractUsing) [.name e.mode]) ((itemsOf e.options).map OptionItem.outline)

def MetricItem.outline : MetricItem → Outline
  | .name text => .node (spaced (.mark .name) [.name text]) []
  | .type t => .node (spaced (.mark .type) [.mark (typeKeyword t)]) []
  | .description text => .node (spaced (.mark .description) [.name text]) []
  | .help text => .node (spaced (.mark .help) [.name text]) []
  | .labels names => .node ⟨.mark .labels, (.space, .name names.first) :: commas names.rest⟩ []
  | .path text => .node (spaced (.mark .fromPath) [.name text]) []
  | .option o => o.outline

def MetricBlock.outline (m : MetricBlock) : Outline :=
  .node (spaced (.mark .metric) []) (m.toList.map MetricItem.outline)

theorem Setting.words_outline (s : Setting) : s.outline.words = s.words := by
  rw [outline, Outline.words, words_spaced]
  rfl

theorem OptionItem.words_outline (o : OptionItem) : o.outline.words = o.words := by
  cases o with
  | set s => exact s.words_outline
  | group settings =>
    rw [outline, Outline.words, words_spaced, innerWords_series Setting.words_outline]
    rfl

theorem Extract.words_outline (e : Extract) : e.outline.words = e.words := by
  rw [outline, Outline.words, words_spaced, innerWords_itemsOf OptionItem.words_outline]
  rfl

theorem MetricItem.words_outline (x : MetricItem) : x.outline.words = x.words := by
  cases x with
  | labels names =>
    have h := words_commas names.first names.rest []
    rw [List.map_nil, List.append_nil, List.append_nil] at h
    rw [outline, Outline.words, Phrase.words, h, innerWords, List.append_nil]
    rfl
  | option o => exact o.words_outline
  | _ =>
    rw [outline, Outline.words, words_spaced]
    rfl

theorem MetricBlock.words_outline (m : MetricBlock) : m.outline.words = m.words := by
  rw [outline, Outline.words, words_spaced, innerWords_series MetricItem.words_outline]
  rfl

/-! ## Resources and services -/

def ResourceItem.outline : ResourceItem → Outline
  | .option o => o.outline
  | .metric m => m.outline
  | .extract e => e.outline

def ResourceSection.outline (r : ResourceSection) : Outline :=
  .node (spaced (.mark (methodKeyword r.method)) (.name r.uri :: asWords r.auth))
    ((itemsOf r.items).map ResourceItem.outline)

def ServiceItem.outline : ServiceItem → Outline
  | .option o => o.outline
  | .metric m => m.outline
  | .resource r => r.outline
  | .extract e => e.outline

def ServiceSection.outline (s : ServiceSection) : Outline :=
  .node ⟨.mark .forService, (.space, .name s.names.first) ::
      (commas s.names.rest ++ (asWords s.auth).map (.space, ·))⟩
    ((itemsOf s.items).map ServiceItem.outline)

theorem ResourceItem.words_outline (x : ResourceItem) : x.outline.words = x.words := by
  cases x with
  | option o => exact o.words_outline
  | metric m => exact m.words_outline
  | extract e => exact e.words_outline

theorem ResourceSection.words_outline (r : ResourceSection) : r.outline.words = r.words := by
  rw [outline, Outline.words, words_spaced, innerWords_itemsOf ResourceItem.words_outline]
  rfl

theorem ServiceItem.words_outline (x : ServiceItem) : x.outline.words = x.words := by
  cases x with
  | option o => exact o.words_outline
  | metric m => exact m.words_outline
  | resource r => exact r.words_outline
  | extract e => exact e.words_outline

theorem ServiceSection.words_outline (s : ServiceSection) : s.outline.words = s.words := by
  rw [outline, Outline.words, Phrase.words, words_commas,
    innerWords_itemsOf ServiceItem.words_outline, List.cons_append, List.append_assoc]
  rfl

/-! ## Sections and documents -/

def AuthSection.outline (a : AuthSection) : Outline :=
  .node (spaced (.mark .defineAuth) [.name a.scheme, .mark .as, .name a.name])
    ((itemsOf a.options).map OptionItem.outline)

def StackItem.outline : StackItem → Outline
  | .service s => s.outline
  | .auth a => a.outline

def Section.outline : Section → Outline
  | .dataset => .node (spaced (.mark .dataset) []) []
  | .auth a => a.outline
  | .stack name items =>
    .node (spaced (.mark .forStack) [.name name]) (items.toList.map StackItem.outline)
  | .service s => s.outline

theorem AuthSection.words_outline (a : AuthSection) : a.outline.words = a.words := by
  rw [outline, Outline.words, words_spaced, innerWords_itemsOf OptionItem.words_outline]
  rfl

theorem StackItem.words_outline (x : StackItem) : x.outline.words = x.words := by
  cases x with
  | service s => exact s.words_outline
  | auth a => exact a.words_outline

theorem Section.words_outline (x : Section) : x.outline.words = x.words := by
  cases x with
  | dataset => rfl
  | auth a => exact a.words_outline
  | stack name items =>
    rw [outline, Outline.words, words_spaced, innerWords_series StackItem.words_outline]
    rfl
  | service s => exact s.words_outline

namespace Document

/-- One section after the other. -/
def ofSections : List Section → Document
  | [] => ⟨0, none, 0⟩
  | x :: xs => ⟨0, some ⟨x, xs.map (0, ·)⟩, 0⟩

theorem sections_ofSections (xs : List Section) : (ofSections xs).sections = xs := by
  cases xs with
  | nil => rfl
  | cons x xs => simp [ofSections, sections]

theorem words_ofSections (xs : List Section) :
    (ofSections xs).words = .mark .ctx :: Outline.topWords (xs.map Section.outline) := by
  cases xs with
  | nil => rfl
  | cons x xs =>
    simp [ofSections, words, Lines.words, Outline.topWords, Section.words_outline, sameLevels,
      List.flatMap_map]

end Document

end ScrapeConfig.Syntax

namespace ScrapeConfig.Document

open Syntax (Section)

/-- The text of outlines is cut into their tokens. -/
theorem tokenize_text (k : Nat) {os : List Outline} (printable : Outline.AllPrintable os)
    (threaded : Bool) (context : Context) :
    tokenize threaded context (Outline.text k os) = .ok (.opening context :: Outline.tokens k os) :=
  tokenize_eq_ok.mpr ⟨_, rfl, Outline.tokenizes_text k printable⟩

/-- The text of sections is cut into tokens, which say the sections one after the other. -/
theorem exists_tokens {k : Nat} (hk : 1 ≤ k) {xs : List Section}
    (printable : Outline.AllPrintable (xs.map Section.outline)) (threaded : Bool)
    (context : Context) :
    ∃ tokens, tokenize threaded context (Outline.text k (xs.map Section.outline)) = .ok tokens ∧
      tokens.map Token.word = (Syntax.Document.ofSections xs).words := by
  refine ⟨_, tokenize_text k printable threaded context, ?_⟩
  rw [List.map_cons, Outline.map_word_tokens hk printable, Syntax.Document.words_ofSections]
  rfl

end ScrapeConfig.Document
