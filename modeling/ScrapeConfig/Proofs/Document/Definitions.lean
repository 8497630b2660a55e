import ScrapeConfig.Proofs.Document.Drafts

/-!
# Definitions of auths in the text

The auths that are known at a place are those that are defined in front of it, at the top level or
in a stack, and of auths of one name the one that was defined last.

Results:
1. `Around`: what stands in front of a keyword and behind it.
2. `Syntax.AuthSection.DefinedLast`: the last definition of a name among words.
3. `Tells`: the auths that are known behind words, with one lemma for each production.
4. `Syntax.Place.tells`: the auths that are known at a place.
-/

namespace ScrapeConfig

open Syntax
open Document (Auths Draft)

variable {k : TokenKind} {P : List Word → List Word → Prop} {front ws vs : List Word}

/-! ## Keywords -/

/-- Wherever the keyword stands, what is in front of it and behind it is as told. -/
def Around (k : TokenKind) (P : List Word → List Word → Prop) (ws : List Word) : Prop :=
  ∀ u v, ws = u ++ .mark k :: v → P u v

/-- What is told does not depend on words that are further off. -/
def Widens (P : List Word → List Word → Prop) : Prop :=
  ∀ u v, P u v → ∀ before behind, P (before ++ u) (v ++ behind)

theorem around_of_notMem (h : .mark k ∉ ws) : Around k P ws := by
  rintro u v rfl
  exact absurd (List.mem_append_right u List.mem_cons_self) h

namespace Around

theorem append (widens : Widens P) (hv : Around k P vs) (hw : Around k P ws) :
    Around k P (vs ++ ws) := by
  intro u v heq
  rcases append_eq_cases heq with ⟨v', rfl, rfl⟩ | ⟨u', rfl, rfl⟩
  · simpa using widens _ _ (hv u v' rfl) [] ws
  · simpa using widens _ _ (hw u' v rfl) vs []

theorem flatMap {α : Type} (widens : Widens P) {f : α → List Word} {xs : List α}
    (h : ∀ x ∈ xs, Around k P (f x)) : Around k P (xs.flatMap f) := by
  induction xs with
  | nil => exact around_of_notMem List.not_mem_nil
  | cons x xs ih =>
    obtain ⟨first, rest⟩ := List.forall_mem_cons.mp h
    exact first.append widens (ih rest)

theorem block {α : Type} (widens : Widens P) (content : (Word.mark k).IsContent)
    {words : α → List Word} {s : Series α} (h : ∀ x ∈ s.toList, Around k P (words x)) :
    Around k P (s.block words) := by
  have boundary {b : TokenKind} (hb : ¬ (Word.mark b).IsContent) : Around k P [.mark b] :=
    around_of_notMem fun mem => hb (List.mem_singleton.mp mem ▸ content)
  obtain ⟨first, rest⟩ := List.forall_mem_cons.mp h
  have lines : Around k P (s.rest.flatMap fun x => .mark .sameLevel :: words x) :=
    Around.flatMap widens fun x hx => (boundary (by decide)).append widens (rest x hx)
  exact (boundary (by decide)).append widens <| first.append widens <|
    lines.append widens (boundary (by decide))

end Around

/-! ## Definitions -/

/-- What a definition begins with. -/
def header (scheme name : String) : List Word :=
  [.mark .defineAuth, .name scheme, .mark .as, .name name]

/-- A definition of the name begins among the words. -/
def Begins (name : String) (ws : List Word) : Prop := ∃ scheme, header scheme name <:+: ws

/-- Every definition that begins among the words has its name there. -/
def Whole : List Word → Prop :=
  Around .defineAuth fun _ v => ∃ scheme name rest, v = .name scheme :: .mark .as :: .name name :: rest

theorem widens_whole :
    Widens fun _ v => ∃ scheme name rest, v = .name scheme :: .mark .as :: .name name :: rest := by
  rintro _ _ ⟨scheme, name, rest, rfl⟩ _ behind
  exact ⟨scheme, name, rest ++ behind, rfl⟩

theorem not_begins_of_notMem {name : String} (h : .mark .defineAuth ∉ ws) : ¬ Begins name ws :=
  fun ⟨_, begins⟩ => h (begins.subset List.mem_cons_self)

namespace Whole

theorem append (hv : Whole vs) (hw : Whole ws) : Whole (vs ++ ws) := Around.append widens_whole hv hw

theorem of_append (h : Whole (vs ++ ws)) : Whole ws := by
  rintro u v rfl
  exact h (vs ++ u) v (List.append_assoc ..).symm

/-- Two lists have the definitions that begin in one of them. -/
theorem begins_append (whole : Whole vs) {name : String} :
    Begins name (vs ++ ws) ↔ Begins name vs ∨ Begins name ws := by
  constructor
  · rintro ⟨scheme, u, v, heq⟩
    rw [List.append_assoc] at heq
    rcases append_eq_cases heq.symm with ⟨rest, rfl, behind⟩ | ⟨u', rfl, rfl⟩
    · -- The name of a definition that begins in `vs` stands in `vs`.
      obtain ⟨scheme', name', rest, rfl⟩ := whole u rest rfl
      obtain ⟨_, tail⟩ := List.cons.inj behind
      obtain ⟨same, _⟩ := List.cons.inj (List.cons.inj tail).2
      obtain rfl := Word.name.inj same
      exact .inl ⟨scheme', u, rest, by simp [header]⟩
    · exact .inr ⟨scheme, u', v, by simp [header]⟩
  · rintro (⟨scheme, begins⟩ | ⟨scheme, begins⟩)
    · exact ⟨scheme, begins.trans (List.prefix_append vs ws).isInfix⟩
    · exact ⟨scheme, begins.trans (List.suffix_append vs ws).isInfix⟩

end Whole

/-- An auth that is named behind the words is used, and not defined. -/
def Uses (front : List Word) : Prop :=
  ∀ before scheme, front ≠ before ++ [.mark .defineAuth, .name scheme]

theorem Uses.of_append (h : Uses (vs ++ ws)) : Uses ws := by
  rintro before scheme rfl
  exact h (vs ++ before) scheme (List.append_assoc ..).symm

theorem Whole.uses (whole : Whole vs) (h : .mark .defineAuth ∉ ws) : Uses (vs ++ ws) := by
  intro before scheme heq
  have split : vs ++ ws = before ++ .mark .defineAuth :: [.name scheme] := heq
  obtain ⟨_, _, _, short⟩ := whole.append (around_of_notMem h) before _ split
  simp at short

theorem Syntax.ServiceSection.defineAuth_notMem (x : ServiceSection) :
    .mark .defineAuth ∉ x.words :=
  List.not_mem_cons_of_ne_of_not_mem (by decide)
    (x.names.plain_names.inner.line x.inner_clause).defineAuth_notMem

namespace Syntax.AuthSection

/-- The auth that is defined. -/
def auth (a : AuthSection) : Auth := ⟨a.scheme, optionsOf (itemsOf a.options)⟩

theorem words_eq (a : AuthSection) :
    a.words = header a.scheme a.name ++ optionalBlock OptionItem.words a.options := rfl

theorem whole_header (scheme name : String) : Whole (header scheme name) := by
  intro u v heq
  cases u with
  | nil => exact ⟨scheme, name, [], (List.cons.inj heq).2.symm⟩
  | cons w u =>
    have mem : Word.mark .defineAuth ∈ [.name scheme, .mark .as, .name name] :=
      (List.cons.inj heq).2 ▸ List.mem_append_right _ List.mem_cons_self
    simp at mem

theorem begins_header {scheme name name' : String} :
    Begins name' (header scheme name) ↔ name' = name := by
  constructor
  · rintro ⟨scheme', infixed⟩
    have same : header scheme' name' = header scheme name := infixed.eq_of_length rfl
    simp only [header, List.cons.injEq, Word.name.injEq] at same
    exact same.2.2.2.1
  · rintro rfl
    exact ⟨scheme, List.infix_rfl⟩

theorem whole_words (a : AuthSection) : Whole a.words :=
  (whole_header a.scheme a.name).append (around_of_notMem a.plain_block.inner.defineAuth_notMem)

theorem begins_words (a : AuthSection) {name : String} : Begins name a.words ↔ name = a.name := by
  rw [words_eq, (whole_header a.scheme a.name).begins_append, begins_header]
  exact or_iff_left (not_begins_of_notMem a.plain_block.inner.defineAuth_notMem)

theorem begins_words_append (a : AuthSection) {name : String} (clean : .mark .defineAuth ∉ ws) :
    Begins name (a.words ++ ws) ↔ name = a.name := by
  rw [a.whole_words.begins_append, a.begins_words]
  exact or_iff_left (not_begins_of_notMem clean)

theorem lookup_define (a : AuthSection) (auths : Auths) (name : String) :
    (a.define auths).lookup name = if name = a.name then some a.auth else auths.lookup name := by
  rw [define, List.lookup_cons]
  by_cases same : name = a.name
  · simp [same, auth]
  · simp [same, beq_eq_false_iff_ne.mpr same]

/-- The auth is the last one of its name that is defined in front. -/
def DefinedLast (front : List Word) (a : AuthSection) : Prop :=
  ∃ before behind, front = before ++ (a.words ++ behind) ∧ LineEnd behind ∧ ¬ Begins a.name behind

theorem DefinedLast.append {a : AuthSection} (h : a.DefinedLast front) (whole : Whole front)
    (none : ¬ Begins a.name ws) : a.DefinedLast (front ++ ws) := by
  obtain ⟨before, behind, rfl, ⟨k, rest, rfl, hk⟩, last⟩ := h
  have whole := whole.of_append.of_append
  refine ⟨before, (.mark k :: rest) ++ ws, by simp, ⟨k, rest ++ ws, rfl, hk⟩, ?_⟩
  rw [whole.begins_append]
  exact not_or.mpr ⟨last, none⟩

end Syntax.AuthSection

/-! ## Auths that are known -/

/-- Every definition that begins in front is that of a known auth. -/
structure Covers (auths : Auths) (front : List Word) : Prop where
  whole : Whole front
  unknown : ∀ n, auths.lookup n = none → ¬ Begins n front

/-- The known auths are those that are defined in front, where a line has ended. -/
structure Tells (auths : Auths) (front : List Word) : Prop extends Covers auths front where
  known : ∀ n v, auths.lookup n = some v → ∃ a : AuthSection, a.name = n ∧ v = a.auth ∧
    a.DefinedLast front

/-- What is said of the known auths and of the words in front stays true behind more words, if those
are as told behind a definition. -/
structure Persists (ends : List Word → Prop) (I : Auths → List Word → Prop) : Prop where
  append : ∀ {auths front ws}, I auths front → .mark .defineAuth ∉ ws → I auths (front ++ ws)
  define : ∀ {auths front ws} (a : AuthSection), I auths front → ends ws → .mark .defineAuth ∉ ws →
    I (a.define auths) (front ++ (a.words ++ ws))

theorem covers_persists : Persists (fun _ => True) Covers where
  append h clean := by
    refine ⟨h.whole.append (around_of_notMem clean), fun n none => ?_⟩
    rw [h.whole.begins_append]
    exact not_or.mpr ⟨h.unknown n none, not_begins_of_notMem clean⟩
  define a h _ clean := by
    refine ⟨h.whole.append (a.whole_words.append (around_of_notMem clean)), fun n none => ?_⟩
    rw [a.lookup_define] at none
    split at none
    · cases none
    · next other =>
      rw [h.whole.begins_append, a.begins_words_append clean]
      exact not_or.mpr ⟨h.unknown n none, other⟩

theorem tells_persists : Persists LineEnd Tells where
  append h clean := by
    refine ⟨covers_persists.append h.toCovers clean, fun n v some => ?_⟩
    obtain ⟨a, rfl, rfl, last⟩ := h.known n v some
    exact ⟨a, rfl, rfl, last.append h.whole (not_begins_of_notMem clean)⟩
  define a h lineEnd clean := by
    refine ⟨covers_persists.define a h.toCovers trivial clean, fun n v some => ?_⟩
    rw [a.lookup_define] at some
    split at some
    · next same =>
      exact ⟨a, same.symm, (Option.some.inj some).symm, _, _, rfl, lineEnd,
        not_begins_of_notMem clean⟩
    · next other =>
      obtain ⟨b, rfl, rfl, last⟩ := h.known n v some
      exact ⟨b, rfl, rfl, last.append h.whole (mt (a.begins_words_append clean).mp other)⟩

namespace Persists

variable {ends : List Word → Prop} {I : Auths → List Word → Prop} {d : Draft}

theorem stackItem (persists : Persists ends I) (context : Context) (stack : String)
    (h : I d.auths front) (x : StackItem) (hends : ends ws) (clean : .mark .defineAuth ∉ ws) :
    I (x.apply context stack d).auths (front ++ (x.words ++ ws)) := by
  cases x with
  | service x => exact persists.append h (List.not_mem_append x.defineAuth_notMem clean)
  | auth a => exact persists.define a h hends clean

/-- By induction on the items behind the first one. -/
theorem items (persists : Persists ends I) (lineEnds : ∀ {ws}, LineEnd ws → ends ws)
    (context : Context) (stack : String) (h : I d.auths front) (items : Series StackItem)
    (clean : .mark .defineAuth ∉ ws) :
    I (items.toList.foldl (StackItem.apply context stack) d).auths
      (front ++ (items.first.words ++ (linesWords StackItem.words items.rest ++ ws))) := by
  obtain ⟨first, rest⟩ := items
  induction rest generalizing d front first with
  | nil =>
    refine persists.stackItem context stack h first (lineEnds ⟨.blockClose, ws, rfl, by simp⟩) ?_
    exact List.not_mem_cons_of_ne_of_not_mem (by decide) clean
  | cons next rest ih =>
    have line : I _ (front ++ (first.words ++ [.mark .sameLevel])) :=
      persists.stackItem context stack h first (lineEnds ⟨.sameLevel, [], rfl, by simp⟩) (by decide)
    refine Eq.mp (congrArg (I _) ?_) (ih line next)
    rw [Stream.linesWords_cons]
    simp

theorem documentSection (persists : Persists ends I) (lineEnds : ∀ {ws}, LineEnd ws → ends ws)
    (context : Context) (h : I d.auths front) (x : Section) (hends : ends ws)
    (clean : .mark .defineAuth ∉ ws) :
    I (x.apply context d).auths (front ++ (x.words ++ ws)) := by
  cases x with
  | dataset => exact persists.append h (List.not_mem_cons_of_ne_of_not_mem (by decide) clean)
  | auth a => exact persists.define a h hends clean
  | service x => exact persists.append h (List.not_mem_append x.defineAuth_notMem clean)
  | stack name items =>
    have opened : I d.auths (front ++ [.mark .forStack, .name name, .mark .blockOpen]) :=
      persists.append h (by simp)
    have closed := persists.items lineEnds context name opened items clean
    rw [List.append_assoc] at closed
    refine Eq.mp (congrArg (I _ <| front ++ ·) ?_) closed
    simp [Section.words, Stream.block_words]

end Persists

/-- Lines behind each other, each with words behind it. -/
theorem Tells.lines {τ : Type} {line : τ → List Word} {step : Draft → τ → Draft}
    (goesOn : ∀ {d front} x, Tells d.auths front → Tells (step d x).auths (front ++ line x))
    {d : Draft} (h : Tells d.auths front) (xs : List τ) :
    Tells (xs.foldl step d).auths (front ++ xs.flatMap line) := by
  induction xs generalizing d front with
  | nil => rwa [List.flatMap_nil, List.append_nil]
  | cons x xs ih =>
    rw [List.flatMap_cons, ← List.append_assoc]
    exact ih (goesOn x h)

theorem lineEnd_sameLevels (n : Nat) : LineEnd (sameLevels (n + 1)) :=
  ⟨.sameLevel, sameLevels n, rfl, .inl rfl⟩

theorem defineAuth_notMem_sameLevels (n : Nat) : .mark .defineAuth ∉ sameLevels n := by
  simp [sameLevels]

/-- The auths that are known at a place are those that are defined in front of it. -/
theorem Syntax.Place.tells (context : Context) (p : Place) (before : Nat) :
    Tells (p.draft context).auths (.mark .ctx :: (sameLevels before ++ p.opening)) := by
  have opened : Tells (Draft.auths {}) (.mark .ctx :: sameLevels before) := by
    have clean : .mark .defineAuth ∉ .mark .ctx :: sameLevels before :=
      List.not_mem_cons_of_ne_of_not_mem (by decide) (defineAuth_notMem_sameLevels before)
    exact ⟨⟨around_of_notMem clean, fun _ _ => not_begins_of_notMem clean⟩, nofun⟩
  have line {d : Draft} {front} (x : Section × Nat) (h : Tells d.auths front) :
      Tells (x.1.apply context d).auths (front ++ (x.1.words ++ sameLevels (x.2 + 1))) :=
    tells_persists.documentSection id context h x.1 (lineEnd_sameLevels x.2)
      (defineAuth_notMem_sameLevels _)
  have above := Tells.lines line opened p.above
  rw [← List.foldl_map] at above
  obtain ⟨sections, _ | e, below, behind⟩ := p
  · simpa [draft, opening] using above
  · have item {d : Draft} {front} (x : StackItem) (h : Tells d.auths front) :
        Tells (x.apply context e.name d).auths (front ++ (x.words ++ [.mark .sameLevel])) :=
      tells_persists.stackItem context e.name h x ⟨.sameLevel, [], rfl, .inl rfl⟩ (by decide)
    have entered : Tells _ (_ ++ [.mark .forStack, .name e.name, .mark .blockOpen]) :=
      tells_persists.append above (by simp)
    have items := Tells.lines item entered e.above
    simpa [draft, opening, Enclosure.opening] using items

end ScrapeConfig
