import ScrapeConfig.Proofs.Document.Syntax

/-!
# The words of sentences

What all sentences of the grammar have in common: a comma has a name behind it, and no line goes
back to a level that is not there.

Results:
1. `Regular`: sequences of words of this kind.
2. `Syntax.Document.regular_words`: all sentences are such sequences.
3. `Regular.badIndent_notMem`, `Regular.comma_follow`: what this means for single words.
-/

namespace ScrapeConfig

inductive Regular : List Word → Prop
  | nil : Regular []
  | name {ws : List Word} (text : String) : Regular ws → Regular (.name text :: ws)
  | mark {k : TokenKind} {ws : List Word} :
      k ≠ .comma → k ≠ .badIndent → Regular ws → Regular (.mark k :: ws)
  | comma {ws : List Word} (text : String) :
      Regular ws → Regular (.mark .comma :: .name text :: ws)

namespace Regular

variable {ws ws' : List Word}

theorem append (h : Regular ws) (h' : Regular ws') : Regular (ws ++ ws') := by
  induction h with
  | nil => exact h'
  | name text _ ih => exact .name text ih
  | mark hc hb _ ih => exact .mark hc hb ih
  | comma text _ ih => exact .comma text ih

theorem flatMap {α : Type} {f : α → List Word} {xs : List α} (h : ∀ x ∈ xs, Regular (f x)) :
    Regular (xs.flatMap f) := by
  induction xs with
  | nil => exact .nil
  | cons x xs ih =>
    obtain ⟨hx, hxs⟩ := List.forall_mem_cons.mp h
    exact hx.append (ih hxs)

theorem badIndent_notMem (h : Regular ws) : .mark .badIndent ∉ ws := by
  induction h with
  | nil => exact List.not_mem_nil
  | name text _ ih => simpa using ih
  | mark _ hb _ ih => simpa [hb.symm] using ih
  | comma text _ ih => simpa using ih

/-- Behind a comma stands a name. -/
theorem comma_follow (h : Regular ws) {before behind : List Word}
    (heq : ws = before ++ .mark .comma :: behind) : ∃ text rest, behind = .name text :: rest := by
  induction h generalizing before with
  | nil => simp at heq
  | name text _ ih =>
    cases before with
    | nil => simp at heq
    | cons w before => exact ih (List.cons.inj heq).2
  | mark hc _ _ ih =>
    cases before with
    | nil => exact absurd (Word.mark.inj (List.cons.inj heq).1) hc
    | cons w before => exact ih (List.cons.inj heq).2
  | comma text _ ih =>
    match before with
    | [] => exact ⟨text, _, (List.cons.inj heq).2.symm⟩
    | [w] => simp at heq
    | w :: w' :: before => exact ih (List.cons.inj (List.cons.inj heq).2).2

end Regular

namespace Syntax

/-! ## Blocks -/

section

variable {α : Type} {words : α → List Word}

theorem Series.regular_block (h : ∀ x, Regular (words x)) (s : Series α) :
    Regular (s.block words) := by
  refine .mark nofun nofun ((h s.first).append (.append ?_ (.mark nofun nofun .nil)))
  exact .flatMap fun x _ => .mark nofun nofun (h x)

theorem regular_optionalBlock (h : ∀ x, Regular (words x)) (o : Option (Series α)) :
    Regular (optionalBlock words o) := by
  cases o with
  | none => exact .nil
  | some s => exact s.regular_block h

theorem Series.regular_names (s : Series String) : Regular s.names :=
  .name _ (.flatMap fun n _ => .comma n .nil)

theorem regular_asWords (o : Option String) : Regular (asWords o) := by
  cases o with
  | none => exact .nil
  | some name => exact .mark nofun nofun (.name name .nil)

end

/-! ## Productions -/

theorem Setting.regular_words (s : Setting) : Regular s.words :=
  .mark nofun nofun (.name _ (.mark nofun nofun (.name _ .nil)))

theorem OptionItem.regular_words (o : OptionItem) : Regular o.words := by
  cases o with
  | set s => exact s.regular_words
  | group settings => exact .mark nofun nofun (settings.regular_block Setting.regular_words)

theorem Extract.regular_words (e : Extract) : Regular e.words :=
  .mark nofun nofun (.name _ (regular_optionalBlock OptionItem.regular_words e.options))

theorem MetricItem.regular_words (x : MetricItem) : Regular x.words := by
  cases x with
  | type t => exact .mark nofun nofun (.mark (by cases t <;> decide) (by cases t <;> decide) .nil)
  | labels names => exact .mark nofun nofun names.regular_names
  | option o => exact o.regular_words
  | _ => exact .mark nofun nofun (.name _ .nil)

theorem MetricBlock.regular_words (m : MetricBlock) : Regular m.words :=
  .mark nofun nofun (m.regular_block MetricItem.regular_words)

theorem ResourceItem.regular_words (x : ResourceItem) : Regular x.words := by
  cases x with
  | option o => exact o.regular_words
  | metric m => exact m.regular_words
  | extract e => exact e.regular_words

theorem ResourceSection.regular_words (r : ResourceSection) : Regular r.words :=
  .mark (by cases r.method <;> decide) (by cases r.method <;> decide)
    (.name _ ((regular_asWords r.auth).append
      (regular_optionalBlock ResourceItem.regular_words r.items)))

theorem ServiceItem.regular_words (x : ServiceItem) : Regular x.words := by
  cases x with
  | option o => exact o.regular_words
  | metric m => exact m.regular_words
  | resource r => exact r.regular_words
  | extract e => exact e.regular_words

theorem ServiceSection.regular_words (s : ServiceSection) : Regular s.words :=
  .mark nofun nofun (s.names.regular_names.append ((regular_asWords s.auth).append
    (regular_optionalBlock ServiceItem.regular_words s.items)))

theorem AuthSection.regular_words (a : AuthSection) : Regular a.words :=
  .mark nofun nofun (.name _ (.mark nofun nofun
    (.name _ (regular_optionalBlock OptionItem.regular_words a.options))))

theorem StackItem.regular_words (x : StackItem) : Regular x.words := by
  cases x with
  | service s => exact s.regular_words
  | auth a => exact a.regular_words

theorem Section.regular_words (x : Section) : Regular x.words := by
  cases x with
  | dataset => exact .mark nofun nofun .nil
  | auth a => exact a.regular_words
  | stack name items =>
    exact .mark nofun nofun (.name name (items.regular_block StackItem.regular_words))
  | service s => exact s.regular_words

theorem regular_sameLevels (n : Nat) : Regular (sameLevels n) := by
  induction n with
  | zero => exact .nil
  | succ n ih => exact .mark nofun nofun ih

theorem Lines.regular_words (l : Lines) : Regular l.words :=
  l.first.regular_words.append
    (.flatMap fun x _ => (regular_sameLevels _).append x.2.regular_words)

theorem Document.regular_words (d : Document) : Regular d.words := by
  refine .mark nofun nofun ((regular_sameLevels _).append (.append ?_
    ((regular_sameLevels _).append (.mark nofun nofun .nil))))
  cases d.lines with
  | none => exact .nil
  | some l => exact l.regular_words

end Syntax

end ScrapeConfig
