import Mathlib.Computability.Language
import ScrapeConfig.Proofs.Document.Reading

/-!
# The languages of the grammar

The words of all trees of a production make a language, and the productions are equations between
such languages.

Results:
1. `Syntax.language`: the words of a family of trees.
2. `Syntax.language_setting`, `Syntax.language_option` and their like: the productions.
3. `Viable`: words that can be gone on with to a word of a language.
-/

namespace ScrapeConfig

open scoped Computability

/-- Can be gone on with to a word of the language. -/
def Viable (L : Language Word) (ws : List Word) : Prop := ∃ v ∈ L, ws <+: v

namespace Syntax

variable {σ τ : Type} {L M : Language Word} {v : List Word} {k : TokenKind}

/-- The words of all trees of a family. -/
def language (words : τ → List Word) : Language Word := Set.range words

theorem mem_language {words : τ → List Word} : v ∈ language words ↔ ∃ x, words x = v := Iff.rfl

/-- A single token that is no name. -/
def word (k : TokenKind) : Language Word := {[.mark k]}

/-- A single name. -/
def text : Language Word := language fun n => [.name n]

@[simp] theorem mem_word : v ∈ word k ↔ v = [.mark k] := Iff.rfl

@[simp] theorem mem_text : v ∈ text ↔ ∃ n, [.name n] = v := Iff.rfl

@[simp] theorem mem_language_mul {words : τ → List Word} :
    v ∈ language words * L ↔ ∃ x, ∃ v' ∈ L, words x ++ v' = v := by
  simp [Language.mem_mul, mem_language]

@[simp] theorem mem_word_mul : v ∈ word k * L ↔ ∃ v' ∈ L, .mark k :: v' = v := by
  simp [Language.mem_mul]

@[simp] theorem mem_text_mul : v ∈ text * L ↔ ∃ n, ∃ v' ∈ L, .name n :: v' = v :=
  mem_language_mul

@[simp] theorem mem_sum_cons {Ls : List (Language Word)} :
    v ∈ (L :: Ls).sum ↔ v ∈ L ∨ v ∈ Ls.sum := by
  rw [List.sum_cons, Language.mem_add]

@[simp] theorem mem_sum_nil : v ∉ ([] : List (Language Word)).sum := Language.notMem_zero v

theorem mem_sum {Ls : List (Language Word)} : v ∈ Ls.sum ↔ ∃ L ∈ Ls, v ∈ L := by
  induction Ls with
  | nil => simp
  | cons L Ls ih => rw [mem_sum_cons, ih, List.exists_mem_cons_iff]

/-! ## Lists and blocks -/

/-- `NAME (COMMA NAME)*`. -/
theorem language_names : language Series.names = text * language Stream.more := by
  ext v
  simp only [mem_text_mul, mem_language]
  constructor
  · rintro ⟨⟨first, rest⟩, rfl⟩
    exact ⟨first, _, ⟨rest, rfl⟩, rfl⟩
  · rintro ⟨first, _, ⟨rest, rfl⟩, rfl⟩
    exact ⟨⟨first, rest⟩, rfl⟩

theorem language_more :
    language Stream.more = 1 + word .comma * text * language Stream.more := by
  rw [mul_assoc]
  ext v
  simp only [Language.mem_add, Language.mem_one, mem_word_mul, mem_text_mul, mem_language]
  constructor
  · rintro ⟨names, rfl⟩
    cases names with
    | nil => exact .inl rfl
    | cons n names => exact .inr ⟨_, ⟨n, _, ⟨names, rfl⟩, rfl⟩, rfl⟩
  · rintro (rfl | ⟨_, ⟨n, _, ⟨names, rfl⟩, rfl⟩, rfl⟩)
    · exact ⟨[], rfl⟩
    · exact ⟨n :: names, rfl⟩

/-- `[AS NAME]`. -/
theorem language_asWords : language asWords = 1 + word .as * text := by
  ext v
  simp only [Language.mem_add, Language.mem_one, mem_word_mul, mem_text, mem_language]
  constructor
  · rintro ⟨_ | name, rfl⟩
    · exact .inl rfl
    · exact .inr ⟨_, ⟨name, rfl⟩, rfl⟩
  · rintro (rfl | ⟨_, ⟨name, rfl⟩, rfl⟩)
    · exact ⟨none, rfl⟩
    · exact ⟨some name, rfl⟩

/-- The words of the lines of a block behind the token that opens it. -/
def linesOf (words : τ → List Word) (s : Series τ) : List Word :=
  words s.first ++ linesWords words s.rest

theorem language_block (words : τ → List Word) :
    language (Series.block words) = word .blockOpen * language (linesOf words) := by
  ext v
  simp only [mem_word_mul, mem_language]
  constructor
  · rintro ⟨s, rfl⟩
    exact ⟨_, ⟨s, rfl⟩, rfl⟩
  · rintro ⟨_, ⟨s, rfl⟩, rfl⟩
    exact ⟨s, rfl⟩

theorem language_optionalBlock (words : τ → List Word) :
    language (optionalBlock words) = 1 + word .blockOpen * language (linesOf words) := by
  rw [← language_block]
  ext v
  simp only [Language.mem_add, Language.mem_one, mem_language]
  constructor
  · rintro ⟨_ | s, rfl⟩
    · exact .inl rfl
    · exact .inr ⟨s, rfl⟩
  · rintro (rfl | ⟨s, rfl⟩)
    · exact ⟨none, rfl⟩
    · exact ⟨some s, rfl⟩

/-! ## Productions -/

instance : Inhabited Setting := ⟨⟨"", ""⟩⟩

instance : Inhabited OptionItem := ⟨.set default⟩

instance : Inhabited MetricItem := ⟨.option default⟩

instance : Inhabited ResourceItem := ⟨.option default⟩

instance : Inhabited ServiceItem := ⟨.option default⟩

instance : Inhabited StackItem := ⟨.auth ⟨"", "", none⟩⟩

theorem language_setting :
    language Setting.words = word .set * (text * (word .to * text)) := by
  ext v
  simp only [mem_word_mul, mem_text_mul, mem_text, mem_language]
  constructor
  · rintro ⟨⟨key, value⟩, rfl⟩
    exact ⟨_, ⟨key, _, ⟨_, ⟨value, rfl⟩, rfl⟩, rfl⟩, rfl⟩
  · rintro ⟨_, ⟨key, _, ⟨_, ⟨value, rfl⟩, rfl⟩, rfl⟩, rfl⟩
    exact ⟨⟨key, value⟩, rfl⟩

theorem language_option : language OptionItem.words =
    [language Setting.words, word .withOptions * language (Series.block Setting.words)].sum := by
  ext v
  simp only [mem_sum_cons, mem_sum_nil, or_false, mem_word_mul, mem_language]
  constructor
  · rintro ⟨x, rfl⟩
    cases x <;> simp [OptionItem.words]
  · rintro (⟨x, rfl⟩ | ⟨_, ⟨x, rfl⟩, rfl⟩)
    · exact ⟨.set x, rfl⟩
    · exact ⟨.group x, rfl⟩

theorem language_extract : language Extract.words =
    word .extractUsing * (text * language (optionalBlock OptionItem.words)) := by
  ext v
  simp only [mem_word_mul, mem_text_mul, mem_language]
  constructor
  · rintro ⟨⟨mode, options⟩, rfl⟩
    exact ⟨_, ⟨mode, _, ⟨options, rfl⟩, rfl⟩, rfl⟩
  · rintro ⟨_, ⟨mode, _, ⟨options, rfl⟩, rfl⟩, rfl⟩
    exact ⟨⟨mode, options⟩, rfl⟩

/-- The words of a metric type. -/
def typeWords (type : MetricType) : List Word := [.mark (typeKeyword type)]

theorem language_metricItem : language MetricItem.words =
    [word .name * text, word .type * language typeWords, word .description * text,
      word .help * text, word .labels * language Series.names, word .fromPath * text,
      language OptionItem.words].sum := by
  ext v
  simp only [mem_sum_cons, mem_sum_nil, or_false, mem_word_mul, mem_text, mem_language]
  constructor
  · rintro ⟨x, rfl⟩
    cases x <;> simp [MetricItem.words, typeWords]
  · rintro (⟨_, ⟨n, rfl⟩, rfl⟩ | ⟨_, ⟨t, rfl⟩, rfl⟩ | ⟨_, ⟨n, rfl⟩, rfl⟩ | ⟨_, ⟨n, rfl⟩, rfl⟩ |
      ⟨_, ⟨ns, rfl⟩, rfl⟩ | ⟨_, ⟨n, rfl⟩, rfl⟩ | ⟨o, rfl⟩)
    · exact ⟨.name n, rfl⟩
    · exact ⟨.type t, rfl⟩
    · exact ⟨.description n, rfl⟩
    · exact ⟨.help n, rfl⟩
    · exact ⟨.labels ns, rfl⟩
    · exact ⟨.path n, rfl⟩
    · exact ⟨.option o, rfl⟩

theorem language_metric :
    language MetricBlock.words = word .metric * language (Series.block MetricItem.words) := by
  ext v
  simp only [mem_word_mul, mem_language]
  constructor
  · rintro ⟨m, rfl⟩
    exact ⟨_, ⟨m, rfl⟩, rfl⟩
  · rintro ⟨_, ⟨m, rfl⟩, rfl⟩
    exact ⟨m, rfl⟩

theorem language_resourceItem : language ResourceItem.words =
    [language OptionItem.words, language MetricBlock.words, language Extract.words].sum := by
  ext v
  simp only [mem_sum_cons, mem_sum_nil, or_false, mem_language]
  constructor
  · rintro ⟨x, rfl⟩
    cases x <;> simp [ResourceItem.words]
  · rintro (⟨o, rfl⟩ | ⟨m, rfl⟩ | ⟨e, rfl⟩)
    · exact ⟨.option o, rfl⟩
    · exact ⟨.metric m, rfl⟩
    · exact ⟨.extract e, rfl⟩

/-- The words of a method. -/
def methodWords (method : HttpMethod) : List Word := [.mark (methodKeyword method)]

theorem language_resource : language ResourceSection.words =
    language methodWords * (text * (language asWords *
      language (optionalBlock ResourceItem.words))) := by
  ext v
  simp only [mem_language_mul, mem_text_mul, mem_language]
  constructor
  · rintro ⟨⟨method, uri, auth, items⟩, rfl⟩
    exact ⟨method, _, ⟨uri, _, ⟨auth, _, ⟨items, rfl⟩, rfl⟩, rfl⟩, rfl⟩
  · rintro ⟨method, _, ⟨uri, _, ⟨auth, _, ⟨items, rfl⟩, rfl⟩, rfl⟩, rfl⟩
    exact ⟨⟨method, uri, auth, items⟩, rfl⟩

theorem language_serviceItem : language ServiceItem.words =
    [language OptionItem.words, language MetricBlock.words, language ResourceSection.words,
      language Extract.words].sum := by
  ext v
  simp only [mem_sum_cons, mem_sum_nil, or_false, mem_language]
  constructor
  · rintro ⟨x, rfl⟩
    cases x <;> simp [ServiceItem.words]
  · rintro (⟨o, rfl⟩ | ⟨m, rfl⟩ | ⟨r, rfl⟩ | ⟨e, rfl⟩)
    · exact ⟨.option o, rfl⟩
    · exact ⟨.metric m, rfl⟩
    · exact ⟨.resource r, rfl⟩
    · exact ⟨.extract e, rfl⟩

theorem language_service : language ServiceSection.words =
    word .forService * (language Series.names * (language asWords *
      language (optionalBlock ServiceItem.words))) := by
  ext v
  simp only [mem_language_mul, mem_word_mul, mem_language]
  constructor
  · rintro ⟨⟨names, auth, items⟩, rfl⟩
    exact ⟨_, ⟨names, _, ⟨auth, _, ⟨items, rfl⟩, rfl⟩, rfl⟩, rfl⟩
  · rintro ⟨_, ⟨names, _, ⟨auth, _, ⟨items, rfl⟩, rfl⟩, rfl⟩, rfl⟩
    exact ⟨⟨names, auth, items⟩, rfl⟩

theorem language_auth : language AuthSection.words =
    word .defineAuth * (text * (word .as * (text *
      language (optionalBlock OptionItem.words)))) := by
  ext v
  simp only [mem_word_mul, mem_text_mul, mem_language]
  constructor
  · rintro ⟨⟨scheme, name, options⟩, rfl⟩
    exact ⟨_, ⟨scheme, _, ⟨_, ⟨name, _, ⟨options, rfl⟩, rfl⟩, rfl⟩, rfl⟩, rfl⟩
  · rintro ⟨_, ⟨scheme, _, ⟨_, ⟨name, _, ⟨options, rfl⟩, rfl⟩, rfl⟩, rfl⟩, rfl⟩
    exact ⟨⟨scheme, name, options⟩, rfl⟩

theorem language_stackItem :
    language StackItem.words = [language ServiceSection.words, language AuthSection.words].sum := by
  ext v
  simp only [mem_sum_cons, mem_sum_nil, or_false, mem_language]
  constructor
  · rintro ⟨x, rfl⟩
    cases x <;> simp [StackItem.words]
  · rintro (⟨x, rfl⟩ | ⟨a, rfl⟩)
    · exact ⟨.service x, rfl⟩
    · exact ⟨.auth a, rfl⟩

theorem language_section : language Section.words =
    [word .dataset, language AuthSection.words,
      word .forStack * (text * language (Series.block StackItem.words)),
      language ServiceSection.words].sum := by
  ext v
  simp only [mem_sum_cons, mem_sum_nil, or_false, mem_word, mem_word_mul, mem_text_mul, mem_language]
  constructor
  · rintro ⟨x, rfl⟩
    cases x <;> simp [Section.words]
  · rintro (rfl | ⟨a, rfl⟩ | ⟨_, ⟨name, _, ⟨items, rfl⟩, rfl⟩, rfl⟩ | ⟨x, rfl⟩)
    · exact ⟨.dataset, rfl⟩
    · exact ⟨.auth a, rfl⟩
    · exact ⟨.stack name items, rfl⟩
    · exact ⟨.service x, rfl⟩

end Syntax

end ScrapeConfig
