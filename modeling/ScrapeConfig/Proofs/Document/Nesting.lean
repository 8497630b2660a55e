import ScrapeConfig.Proofs.Document.Reading

/-!
# Where lines end

A same-level token or a closing boundary ends a line only outside the blocks of the line, so a line
ends in one place: no other beginning of a text is a line too. The keywords of services and of
definitions stand at the beginning of their sections, and nowhere else within a line.

Results:
1. `Enclosed`: words that lead out of the blocks that they begin in, and out of no other.
2. `Enclosed.cancel`: a line ends in one place.
3. `Syntax.OptionItem.plain_words` and its like: the words of syntax trees.
-/

namespace ScrapeConfig

variable {p q : Word → Prop} {m n : Nat} {v v' ws : List Word}

/-- Words from within a number of blocks to the end of the line on which the outermost one opens. -/
inductive Enclosed (p : Word → Prop) : Nat → List Word → Prop
  | nil : Enclosed p 0 []
  | word {n : Nat} {w : Word} {ws : List Word} : p w → Enclosed p n ws → Enclosed p n (w :: ws)
  | opens {n : Nat} {ws : List Word} :
      Enclosed p (n + 1) ws → Enclosed p n (.mark .blockOpen :: ws)
  | next {n : Nat} {ws : List Word} :
      Enclosed p (n + 1) ws → Enclosed p (n + 1) (.mark .sameLevel :: ws)
  | closes {n : Nat} {ws : List Word} :
      Enclosed p n ws → Enclosed p (n + 1) (.mark .blockClose :: ws)

namespace Word

/-- A word behind which a line does not go on. -/
def IsOutside (w : Word) : Prop := ¬ w.IsContent ∧ w ≠ .mark .blockOpen

instance : DecidablePred IsOutside := fun w =>
  inferInstanceAs (Decidable (¬ w.IsContent ∧ w ≠ .mark .blockOpen))

/-- What can stand within a line: its words, and boundaries to levels that are not there. -/
def IsWithin (w : Word) : Prop := w.IsContent ∨ w = .mark .badIndent

/-- A word of a line that is the keyword neither of services nor of definitions. -/
def IsInner (w : Word) : Prop := w.IsContent ∧ w ≠ .mark .forService ∧ w ≠ .mark .defineAuth

instance : DecidablePred IsInner := fun w =>
  inferInstanceAs (Decidable (w.IsContent ∧ w ≠ .mark .forService ∧ w ≠ .mark .defineAuth))

/-- A word of a line in which no auth is named. -/
def IsPlain (w : Word) : Prop := w.IsInner ∧ w ≠ .mark .as

instance : DecidablePred IsPlain := fun w =>
  inferInstanceAs (Decidable (w.IsInner ∧ w ≠ .mark .as))

theorem isInner_name (text : String) : (name text).IsInner := ⟨trivial, by simp, by simp⟩

theorem isPlain_name (text : String) : (name text).IsPlain := ⟨isInner_name text, by simp⟩

end Word

/-- What stands behind a line. -/
def BehindLine (ws : List Word) : Prop := ∃ b rest, ws = b :: rest ∧ b.IsOutside

theorem LineEnd.behindLine (h : LineEnd ws) : BehindLine ws := by
  obtain ⟨k, rest, rfl, hk⟩ := h
  exact ⟨.mark k, rest, rfl, by rcases hk with rfl | rfl | rfl <;> decide⟩

namespace Enclosed

theorem mono (h : Enclosed p n ws) (hpq : ∀ w ∈ ws, p w → q w) : Enclosed q n ws := by
  induction h with
  | nil => exact .nil
  | word hw _ ih =>
    obtain ⟨head, rest⟩ := List.forall_mem_cons.mp hpq
    exact .word (head hw) (ih rest)
  | opens _ ih => exact .opens (ih (List.forall_mem_cons.mp hpq).2)
  | next _ ih => exact .next (ih (List.forall_mem_cons.mp hpq).2)
  | closes _ ih => exact .closes (ih (List.forall_mem_cons.mp hpq).2)

/-- A line in front of other words. -/
theorem append (h : Enclosed p m v) (h' : Enclosed p n ws) : Enclosed p (m + n) (v ++ ws) := by
  induction h with
  | nil => rwa [Nat.zero_add]
  | word hw _ ih => exact .word hw ih
  | opens _ ih =>
    rw [Nat.succ_add] at ih
    exact .opens ih
  | next _ ih =>
    rw [Nat.succ_add] at ih ⊢
    exact .next ih
  | closes _ ih =>
    rw [Nat.succ_add]
    exact .closes ih

theorem line (h : Enclosed p 0 v) (h' : Enclosed p n ws) : Enclosed p n (v ++ ws) :=
  Nat.zero_add n ▸ h.append h'

/-- By induction on one of the lines. The other one has the same words, as long as this one lasts,
and cannot go on behind its end. -/
theorem cancel {back back' : List Word} (h : Enclosed Word.IsContent n v)
    (h' : Enclosed Word.IsContent n v') (ends : BehindLine back) (ends' : BehindLine back')
    (heq : v ++ back = v' ++ back') : v = v' ∧ back = back' := by
  obtain ⟨b, back, rfl, hb⟩ := ends
  obtain ⟨b', back', rfl, hb'⟩ := ends'
  -- A mark at which lines end, or blocks begin and end, is no content.
  have outside {w : Word} {x y : List Word} {k : TokenKind} (hw : w.IsContent)
      (hk : ¬ (Word.mark k).IsContent) (heq : w :: x = .mark k :: y) : False :=
    hk ((List.cons.inj heq).1 ▸ hw)
  induction h generalizing v' with
  | nil =>
    cases h' with
    | nil => exact ⟨rfl, heq⟩
    | word hw _ => exact absurd ((List.cons.inj heq).1 ▸ hw) hb.1
    | opens _ => exact absurd (List.cons.inj heq).1 hb.2
  | word hw h ih =>
    cases h' with
    | nil => exact absurd ((List.cons.inj heq).1 ▸ hw) hb'.1
    | word _ h' =>
      obtain ⟨rfl, tail⟩ := List.cons.inj heq
      obtain ⟨rfl, rest⟩ := ih h' tail
      exact ⟨rfl, rest⟩
    | opens _ | next _ | closes _ => exact (outside hw (by decide) heq).elim
  | opens h ih =>
    cases h' with
    | nil => exact absurd (List.cons.inj heq).1.symm hb'.2
    | word hw _ => exact (outside hw (by decide) heq.symm).elim
    | opens h' =>
      obtain ⟨rfl, rest⟩ := ih h' (List.cons.inj heq).2
      exact ⟨rfl, rest⟩
    | next _ | closes _ => simp at heq
  | next h ih =>
    cases h' with
    | word hw _ => exact (outside hw (by decide) heq.symm).elim
    | next h' =>
      obtain ⟨rfl, rest⟩ := ih h' (List.cons.inj heq).2
      exact ⟨rfl, rest⟩
    | opens _ | closes _ => simp at heq
  | closes h ih =>
    cases h' with
    | word hw _ => exact (outside hw (by decide) heq.symm).elim
    | closes h' =>
      obtain ⟨rfl, rest⟩ := ih h' (List.cons.inj heq).2
      exact ⟨rfl, rest⟩
    | opens _ | next _ => simp at heq

theorem notMem {k : TokenKind} (h : Enclosed p n ws) (content : (Word.mark k).IsContent)
    (hk : ¬ p (.mark k)) : .mark k ∉ ws := by
  have boundary {b : TokenKind} (hb : ¬ (Word.mark b).IsContent) : Word.mark k ≠ .mark b :=
    fun heq => hb (heq ▸ content)
  induction h with
  | nil => exact List.not_mem_nil
  | word hw _ ih => exact List.not_mem_cons_of_ne_of_not_mem (fun heq => hk (heq ▸ hw)) ih
  | opens _ ih | next _ ih | closes _ ih =>
    exact List.not_mem_cons_of_ne_of_not_mem (boundary (by decide)) ih

theorem forService_notMem (h : Enclosed Word.IsInner n ws) : .mark .forService ∉ ws :=
  h.notMem (by decide) (by decide)

theorem defineAuth_notMem (h : Enclosed Word.IsInner n ws) : .mark .defineAuth ∉ ws :=
  h.notMem (by decide) (by decide)

theorem as_notMem (h : Enclosed Word.IsPlain n ws) : .mark .as ∉ ws :=
  h.notMem (by decide) (by decide)

theorem inner (h : Enclosed Word.IsPlain n ws) : Enclosed Word.IsInner n ws :=
  h.mono fun _ _ => And.left

end Enclosed

/-- A word that comes in two lists comes in the first one or in the second one. -/
theorem append_eq_cases {w : Word} {front rest : List Word} (h : v ++ ws = front ++ w :: rest) :
    (∃ rest', v = front ++ w :: rest' ∧ rest = rest' ++ ws) ∨
      ∃ front', front = v ++ front' ∧ ws = front' ++ w :: rest := by
  rcases List.append_eq_append_iff.mp h with ⟨front', rfl, behind⟩ | ⟨v', rfl, behind⟩
  · exact .inr ⟨front', rfl, behind⟩
  · cases v' with
    | nil => exact .inr ⟨[], by rw [List.append_nil, List.append_nil], behind.symm⟩
    | cons u v' =>
      obtain ⟨rfl, rfl⟩ := List.cons.inj behind
      exact .inl ⟨v', rfl, rfl⟩

/-- A word that comes behind words among which it is not. -/
theorem exists_behind_of_notMem {w : Word} {front rest : List Word} (hw : w ∉ v)
    (h : v ++ ws = front ++ w :: rest) : ∃ front', front = v ++ front' ∧ ws = front' ++ w :: rest := by
  rcases append_eq_cases h with ⟨_, rfl, _⟩ | behind
  · exact absurd (List.mem_append_right _ List.mem_cons_self) hw
  · exact behind

/-! ## Syntax trees -/

namespace Syntax

/-- Words of a line that is no section but of services, and no definition. -/
abbrev Inner (ws : List Word) : Prop := Enclosed Word.IsInner 0 ws

/-- Words of a line in which no auth is named. -/
abbrev Plain (ws : List Word) : Prop := Enclosed Word.IsPlain 0 ws

section

variable {α : Type} {words : α → List Word}

theorem enclosed_linesWords (h : ∀ x, Enclosed p 0 (words x)) (xs : List α) :
    Enclosed p 1 (linesWords words xs) := by
  induction xs with
  | nil => exact .closes .nil
  | cons x xs ih =>
    have split := Stream.linesWords_cons words x xs []
    rw [List.append_nil, List.append_nil] at split
    rw [split]
    exact .next ((h x).line ih)

theorem Series.enclosed_block (h : ∀ x, Enclosed p 0 (words x)) (s : Series α) :
    Enclosed p 0 (s.block words) :=
  .opens ((h s.first).line (enclosed_linesWords h s.rest))

theorem enclosed_optionalBlock (h : ∀ x, Enclosed p 0 (words x)) (o : Option (Series α)) :
    Enclosed p 0 (optionalBlock words o) := by
  cases o with
  | none => exact .nil
  | some s => exact s.enclosed_block h

end

theorem inner_asWords (o : Option String) : Inner (asWords o) := by
  cases o with
  | none => exact .nil
  | some name => exact .word (by decide) (.word (Word.isInner_name name) .nil)

theorem Series.plain_names (s : Series String) : Plain s.names := by
  obtain ⟨first, rest⟩ := s
  refine .word (Word.isPlain_name first) ?_
  induction rest with
  | nil => exact .nil
  | cons n rest ih => exact .word (by decide) (.word (Word.isPlain_name n) ih)

theorem Setting.plain_words (s : Setting) : Plain s.words :=
  .word (by decide) (.word (Word.isPlain_name _)
    (.word (by decide) (.word (Word.isPlain_name _) .nil)))

theorem OptionItem.plain_words (o : OptionItem) : Plain o.words := by
  cases o with
  | set s => exact s.plain_words
  | group settings => exact .word (by decide) (settings.enclosed_block Setting.plain_words)

theorem Extract.plain_words (e : Extract) : Plain e.words :=
  .word (by decide) (.word (Word.isPlain_name _)
    (enclosed_optionalBlock OptionItem.plain_words e.options))

theorem MetricItem.plain_words (x : MetricItem) : Plain x.words := by
  cases x with
  | type t => exact .word (by decide) (.word (by cases t <;> decide) .nil)
  | labels names => exact .word (by decide) names.plain_names
  | option o => exact o.plain_words
  | _ => exact .word (by decide) (.word (Word.isPlain_name _) .nil)

theorem MetricBlock.plain_words (m : MetricBlock) : Plain m.words :=
  .word (by decide) (m.enclosed_block MetricItem.plain_words)

theorem ResourceItem.plain_words (x : ResourceItem) : Plain x.words := by
  cases x with
  | option o => exact o.plain_words
  | metric m => exact m.plain_words
  | extract e => exact e.plain_words

theorem ResourceSection.inner_words (r : ResourceSection) : Inner r.words :=
  .word (by cases r.method <;> decide) (.word (Word.isInner_name _)
    ((inner_asWords r.auth).line (enclosed_optionalBlock ResourceItem.plain_words r.items).inner))

theorem ServiceItem.inner_words (x : ServiceItem) : Inner x.words := by
  cases x with
  | option o => exact o.plain_words.inner
  | metric m => exact m.plain_words.inner
  | resource r => exact r.inner_words
  | extract e => exact e.plain_words.inner

theorem AuthSection.plain_block (a : AuthSection) : Plain (optionalBlock OptionItem.words a.options) :=
  enclosed_optionalBlock OptionItem.plain_words a.options

theorem AuthSection.forService_notMem (a : AuthSection) : .mark .forService ∉ a.words := by
  have header : Word.mark .forService ∉
      [.mark .defineAuth, .name a.scheme, .mark .as, .name a.name] := by simp
  exact List.not_mem_append header a.plain_block.inner.forService_notMem

/-- The words of a service section behind its names. -/
def ServiceSection.clause (x : ServiceSection) : List Word :=
  asWords x.auth ++ optionalBlock ServiceItem.words x.items

theorem ServiceSection.inner_clause (x : ServiceSection) : Inner x.clause :=
  (inner_asWords x.auth).line (enclosed_optionalBlock ServiceItem.inner_words x.items)

/-- `FOR_SERVICE` with names and what stands behind them. -/
def listed (names : Series String) (tail : List Word) : List Word :=
  .mark .forService :: (names.names ++ tail)

theorem ServiceSection.words_eq (x : ServiceSection) : x.words = listed x.names x.clause := rfl

/-! ## The names of services -/

/-- Names go on as long as commas do. -/
theorem moreNames_cancel {names names' : List String} {ws ws' : List Word}
    (hws : ws.head? ≠ some (.mark .comma)) (hws' : ws'.head? ≠ some (.mark .comma))
    (h : names.flatMap (fun n => [.mark .comma, .name n]) ++ ws =
      names'.flatMap (fun n => [.mark .comma, .name n]) ++ ws') : names = names' ∧ ws = ws' := by
  induction names generalizing names' with
  | nil =>
    cases names' with
    | nil => exact ⟨rfl, h⟩
    | cons n' names' => exact absurd (congrArg List.head? h) hws
  | cons n names ih =>
    cases names' with
    | nil => exact absurd (congrArg List.head? h).symm hws'
    | cons n' names' =>
      obtain ⟨hn, h⟩ := List.cons.inj (List.cons.inj h).2
      obtain ⟨rfl, rfl⟩ := ih h
      exact ⟨congrArg (List.cons · names) (Word.name.inj hn), rfl⟩

theorem Series.names_cancel {s s' : Series String} {ws ws' : List Word}
    (hws : ws.head? ≠ some (.mark .comma)) (hws' : ws'.head? ≠ some (.mark .comma))
    (h : s.names ++ ws = s'.names ++ ws') : s = s' ∧ ws = ws' := by
  obtain ⟨first, rest⟩ := s
  obtain ⟨first', rest'⟩ := s'
  obtain ⟨hfirst, h⟩ := List.cons.inj h
  obtain rfl := Word.name.inj hfirst
  obtain ⟨rfl, rfl⟩ := moreNames_cancel hws hws' h
  exact ⟨rfl, rfl⟩

theorem head?_ne_comma {tail back : List Word} (htail : tail.head? ≠ some (.mark .comma))
    (ends : BehindLine back) : (tail ++ back).head? ≠ some (.mark .comma) := by
  cases tail with
  | nil =>
    obtain ⟨b, back, rfl, hb⟩ := ends
    intro comma
    exact absurd (Option.some.inj comma ▸ hb.1) (by decide)
  | cons w tail => exact htail

theorem ServiceSection.clause_ne_comma (x : ServiceSection) :
    x.clause.head? ≠ some (.mark .comma) := by
  obtain ⟨names, auth, items⟩ := x
  cases auth <;> cases items <;> simp [clause, asWords, optionalBlock, Series.block]

/-- Where a service section ends whose words are given. -/
theorem ServiceSection.words_cancel {x : ServiceSection} {names : Series String}
    {tail back closing : List Word} (htail : Enclosed Word.IsContent 0 tail)
    (comma : tail.head? ≠ some (.mark .comma)) (ends : BehindLine back) (ends' : LineEnd closing)
    (h : x.words ++ closing = listed names tail ++ back) :
    x.names = names ∧ x.clause = tail ∧ closing = back := by
  rw [words_eq, listed, listed, List.cons_append, List.cons_append, List.append_assoc,
    List.append_assoc] at h
  obtain ⟨hnames, h⟩ := Series.names_cancel (head?_ne_comma x.clause_ne_comma ends'.behindLine)
    (head?_ne_comma comma ends) (List.cons.inj h).2
  obtain ⟨hclause, behind⟩ :=
    (x.inner_clause.mono fun _ _ => And.left).cancel htail ends'.behindLine ends h
  exact ⟨hnames, hclause, behind⟩

end Syntax

end ScrapeConfig
