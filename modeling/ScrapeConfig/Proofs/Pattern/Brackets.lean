import ScrapeConfig.Proofs.Pattern.Grammar

/-!
# Reading bracket classes

Inside a class the lexemes of a pattern source are collected glyph by glyph, and how far the class has
been read is a phase. Each way in which the grammar goes on with a class is a move from phase to phase
(`lexemes_low`, `lexemes_single`, `lexemes_range`, `lexemes_close`).

Results:
1. `ClassBody.lexemes`: a class of the grammar is read as one lexeme.
2. `exists_classBody`: what is read as a lexeme is a class of the grammar, and all else is a fault.
-/

namespace ScrapeConfig.Pattern

/-! ## Glyphs -/

theorem glyphs_plain {c : Char} (hc : c ≠ '\\') (n : Nat) (rest : List Char) :
    glyphs n (c :: rest) = (n, .plain c) :: glyphs (n + 1) rest := by
  rw [glyphs]
  · rintro rfl
    exact absurd rfl hc
  · rintro _ _ rfl
    exact absurd rfl hc

theorem glyphs_escape (c : Char) (n : Nat) (rest : List Char) :
    glyphs n ('\\' :: c :: rest) = (n, .escape c) :: glyphs (n + 2) rest := rfl

theorem escape_cases (c : Char) :
    (∃ d, Escapes c d ∧ Glyph.escape c = .escaped d) ∨ Glyph.escape c = .unknown c := by
  unfold Glyph.escape
  split
  · exact .inl ⟨_, .lineFeed, rfl⟩
  · exact .inl ⟨_, .tab, rfl⟩
  · exact .inl ⟨_, .carriageReturn, rfl⟩
  · exact .inl ⟨_, .nul, rfl⟩
  · split
    · exact .inr rfl
    · next other => exact .inl ⟨_, .itself (eq_false_of_ne_true other), rfl⟩

theorem Escapes.escape_eq {c d : Char} (h : Escapes c d) : Glyph.escape c = .escaped d := by
  cases h with
  | itself other =>
    unfold Glyph.escape
    split
    · exact absurd other (by decide)
    · exact absurd other (by decide)
    · exact absurd other (by decide)
    · exact absurd other (by decide)
    · rw [other]
      rfl
  | _ => rfl

/-- A glyph that is written by one or two characters and denotes one. -/
structure Glyph.Writes (g : Glyph) (u : List Char) (c : Char) : Prop where
  char : ∀ n, g.char n = .ok c
  width : g.width = u.length
  plain : ∀ d, g = .plain d ↔ u = [d]

variable {u v rest : List Char} {c lo hi : Char}

theorem ClassChar.glyphs (h : ClassChar u c) (n : Nat) (rest : List Char) :
    ∃ g : Glyph, g.Writes u c ∧
      Pattern.glyphs n (u ++ rest) = (n, g) :: Pattern.glyphs (n + u.length) rest := by
  cases h with
  | plain hc => exact ⟨.plain c, ⟨fun _ => rfl, rfl, by simp⟩, glyphs_plain hc n rest⟩
  | @escape b _ he =>
    refine ⟨.escaped c, ⟨fun _ => rfl, rfl, by simp⟩, ?_⟩
    rw [← he.escape_eq]
    exact glyphs_escape b n rest

/-- A text begins with a character or with a faulty glyph. -/
theorem exists_classChar (n : Nat) {cs : List Char} (hne : cs ≠ []) :
    (∃ u c rest, cs = u ++ rest ∧ ClassChar u c) ∨
      ∃ g gs, glyphs n cs = (n, g) :: gs ∧ (∀ d, g ≠ .plain d) ∧ ∃ e, g.char n = .error e := by
  obtain ⟨c, cs, rfl⟩ := List.exists_cons_of_ne_nil hne
  by_cases hc : c = '\\'
  · subst hc
    cases cs with
    | nil => exact .inr ⟨.dangling, [], rfl, by simp, _, rfl⟩
    | cons b rest =>
      rcases escape_cases b with ⟨d, he, _⟩ | unknown
      · exact .inl ⟨['\\', b], d, rest, rfl, .escape he⟩
      · refine .inr ⟨.unknown b, glyphs (n + 2) rest, ?_, by simp, _, rfl⟩
        rw [glyphs_escape, unknown]
  · exact .inl ⟨[c], c, cs, rfl, .plain hc⟩

/-- Whether a text begins with `d` can be told from its first glyph. -/
theorem head?_glyphs_iff {d : Char} (hd : d ≠ '\\') (n : Nat) (cs : List Char) :
    (glyphs n cs).head?.map (·.2) = some (.plain d) ↔ cs.head? = some d := by
  cases cs with
  | nil => simp [glyphs]
  | cons c cs =>
    by_cases hc : c = '\\'
    · subst hc
      refine iff_of_false ?_ fun same => hd (Option.some.inj same).symm
      cases cs with
      | nil => simp [glyphs]
      | cons b rest => rcases escape_cases b with ⟨_, _, h⟩ | h <;> simp [glyphs_escape, h]
    · simp [glyphs_plain hc]

theorem head?_glyphs_eq_none (n : Nat) (cs : List Char) :
    (glyphs n cs).head?.map (·.2) = none ↔ cs = [] := by
  unfold glyphs
  split <;> simp

/-! ## Moves from phase to phase -/

/-- Before an item, which is the first one of its class or a later one. -/
def OpenClass.Before (k : OpenClass) (first : Bool) : Prop :=
  k.phase = if first then .first else .item

theorem OpenClass.before_first (k : OpenClass) : { k with phase := .first }.Before true := rfl

theorem OpenClass.before_add (k : OpenClass) (lo hi : Char) : (k.add lo hi).Before false := rfl

variable {fold first : Bool} {k : OpenClass} {n : Nat}

theorem step_before (hk : k.Before first) {g : Glyph} (hg : first = false → g ≠ .plain ']')
    (next : Option Glyph) : k.step n g next = k.low n g := by
  cases first with
  | true => simp only [OpenClass.step, show k.phase = .first from hk]
  | false =>
    simp only [OpenClass.step, show k.phase = .item from hk, OpenClass.item, if_neg (hg rfl)]

theorem lexemes_low (hk : k.Before first) (h : ClassChar u c) (hu : first = false → u ≠ [']'])
    (rest : List Char) :
    lexemes fold (some k) (glyphs n (u ++ rest)) =
      lexemes fold (some { k with phase := .low c }) (glyphs (n + u.length) rest) := by
  obtain ⟨g, writes, glyphs_eq⟩ := h.glyphs n rest
  have open_ : first = false → g ≠ .plain ']' := fun later => mt (writes.plain _).mp (hu later)
  rw [glyphs_eq, lexemes, step_before hk open_, OpenClass.low, writes.char]
  rfl

theorem lexemes_faulty (hk : k.Before first) {g : Glyph} (hg : ∀ d, g ≠ .plain d)
    (faulty : ∃ e, g.char n = .error e) (gs : List (Nat × Glyph)) :
    ∃ e, lexemes fold (some k) ((n, g) :: gs) = [.fault e] := by
  obtain ⟨e, faulty⟩ := faulty
  refine ⟨e, ?_⟩
  rw [lexemes, step_before hk fun _ => hg ']', OpenClass.low, faulty]
  rfl

theorem lexemes_close (hk : k.Before false) (rest : List Char) :
    lexemes fold (some k) (glyphs n (']' :: rest)) =
      .leaf (k.expr fold) :: lexemes fold none (glyphs (n + 1) rest) := by
  rw [glyphs_plain (by decide), lexemes]
  simp only [OpenClass.step, show k.phase = .item from hk, OpenClass.item, if_pos]

/-- Whether a range follows can be told from the next two glyphs. -/
theorem rangeFollows_iff {m : Nat} {g : Glyph} {gs : List (Nat × Glyph)}
    (h : glyphs n rest = (m, g) :: gs) :
    OpenClass.rangeFollows g (gs.head?.map (·.2)) ↔ OpensRange rest := by
  have dash : g = .plain '-' ↔ rest.head? = some '-' := by
    rw [← head?_glyphs_iff (by decide) n, h]
    simp
  rw [OpenClass.rangeFollows, Bool.and_eq_true, decide_eq_true_eq, dash]
  constructor
  · rintro ⟨first, next⟩
    obtain ⟨cs, rfl⟩ := List.head?_eq_some_iff.mp first
    rw [glyphs_plain (by decide), List.cons.injEq] at h
    obtain ⟨g', second, other⟩ := (Option.any_eq_true _ _).mp next
    rw [← h.2] at second
    cases cs with
    | nil => simp [glyphs] at second
    | cons c cs =>
      refine ⟨c, cs, rfl, fun bracket => of_decide_eq_true other ?_⟩
      have := (head?_glyphs_iff (by decide) (n + 1) (c :: cs)).mpr (congrArg some bracket)
      exact Option.some.inj (second.symm.trans this)
  · rintro ⟨c, behind, rfl, hc⟩
    rw [glyphs_plain (by decide), List.cons.injEq] at h
    refine ⟨rfl, (Option.any_eq_true _ _).mpr ?_⟩
    rw [← h.2]
    cases second : (glyphs (n + 1) (c :: behind)).head?.map (·.2) with
    | none => exact absurd ((head?_glyphs_eq_none _ _).mp second) (by simp)
    | some g' =>
      refine ⟨g', rfl, decide_eq_true fun bracket => hc ?_⟩
      rw [bracket, head?_glyphs_iff (by decide)] at second
      exact Option.some.inj second

/-- Where no range follows, the character is an item by itself. -/
theorem lexemes_single (alone : ¬ OpensRange rest) (c : Char) :
    lexemes fold (some { k with phase := .low c }) (glyphs n rest) =
      lexemes fold (some (k.add c c)) (glyphs n rest) := by
  cases h : glyphs n rest with
  | nil => rfl
  | cons head gs =>
    obtain ⟨m, g⟩ := head
    have follows : ¬ OpenClass.rangeFollows g (gs.head?.map (·.2)) := mt (rangeFollows_iff h).mp alone
    rw [lexemes, lexemes]
    simp only [OpenClass.step, follows]
    rfl

theorem lexemes_dash {cs : List Char} (opens : OpensRange ('-' :: cs)) (lo : Char) :
    lexemes fold (some { k with phase := .low lo }) (glyphs n ('-' :: cs)) =
      lexemes fold (some { k with phase := .high lo }) (glyphs (n + 1) cs) := by
  have dash := glyphs_plain (c := '-') (by decide) n cs
  have follows := (rangeFollows_iff dash).mpr opens
  rw [dash, lexemes]
  simp only [OpenClass.step, follows, if_true]

theorem lexemes_high (h : ClassChar u hi) (lo : Char) (rest : List Char) :
    lexemes fold (some { k with phase := .high lo }) (glyphs n (u ++ rest)) =
      if hi < lo then [.fault ⟨n + u.length, .invalidRange lo hi⟩]
      else lexemes fold (some (k.add lo hi)) (glyphs (n + u.length) rest) := by
  obtain ⟨g, writes, glyphs_eq⟩ := h.glyphs n rest
  rw [glyphs_eq, lexemes]
  simp only [OpenClass.step, writes.char, writes.width, bind, Except.bind]
  by_cases descends : hi < lo
  · simp only [if_pos descends]
  · simp only [if_neg descends]
    rfl

theorem lexemes_high_faulty {g : Glyph} (faulty : ∃ e, g.char n = .error e) (lo : Char)
    (gs : List (Nat × Glyph)) :
    ∃ e, lexemes fold (some { k with phase := .high lo }) ((n, g) :: gs) = [.fault e] := by
  obtain ⟨e, faulty⟩ := faulty
  refine ⟨e, ?_⟩
  rw [lexemes]
  simp only [OpenClass.step, faulty, bind, Except.bind]

/-- A class that goes on with a `^` in front of its items is negated. -/
theorem lexemes_negated (hk : k.phase = .opening) (rest : List Char) :
    lexemes fold (some k) (glyphs n ('^' :: rest)) =
      lexemes fold (some { k with negated := true, phase := .first }) (glyphs (n + 1) rest) := by
  rw [glyphs_plain (by decide), lexemes]
  simp only [OpenClass.step, hk, if_true]

theorem lexemes_opening (hk : k.phase = .opening) {cs : List Char} (plain : cs.head? ≠ some '^') :
    lexemes fold (some k) (glyphs n cs) =
      lexemes fold (some { k with phase := .first }) (glyphs n cs) := by
  have caret := mt (head?_glyphs_iff (by decide) n cs).mp plain
  cases h : glyphs n cs with
  | nil => rfl
  | cons head gs =>
    obtain ⟨m, g⟩ := head
    rw [h, List.head?_cons, Option.map_some, Option.some.injEq] at caret
    rw [lexemes, lexemes]
    simp only [OpenClass.step, hk, if_neg caret]
    rfl

/-! ## Classes -/

theorem ClassChar.opensRange (h : ClassChar u c) (bracket : u ≠ [']']) (rest : List Char) :
    OpensRange ('-' :: (u ++ rest)) := by
  cases h with
  | plain hc => exact ⟨c, rest, rfl, fun same => bracket (congrArg (fun d => [d]) same)⟩
  | @escape b _ _ => exact ⟨'\\', b :: rest, rfl, by decide⟩

theorem ClassChar.ne_nil (h : ClassChar u c) : u ≠ [] := by cases h <;> simp

theorem ClassBody.exists_concat {ranges : List CharRange} (h : ClassBody first u ranges) :
    ∃ inner, u = inner ++ [']'] := by
  induction h with
  | close => exact ⟨[], rfl⟩
  | @single _ x _ _ _ _ _ _ _ ih =>
    obtain ⟨inner, rfl⟩ := ih
    exact ⟨x ++ inner, (List.append_assoc ..).symm⟩
  | @range _ x y _ _ _ _ _ _ _ _ _ _ ih =>
    obtain ⟨inner, rfl⟩ := ih
    exact ⟨x ++ '-' :: (y ++ inner), by simp⟩

/-- What is behind a class does not matter for its items. -/
theorem ClassBody.opensRange_append {ranges : List CharRange} (h : ClassBody first u ranges)
    (rest : List Char) : OpensRange (u ++ rest) ↔ OpensRange u := by
  obtain ⟨inner, rfl⟩ := h.exists_concat
  constructor
  · rintro ⟨c, behind, heq, hc⟩
    rcases inner with _ | ⟨x, _ | ⟨y, inner⟩⟩
    · cases heq
    · cases heq
      exact absurd rfl hc
    · cases heq
      exact ⟨_, _, rfl, hc⟩
  · rintro ⟨c, behind, heq, hc⟩
    exact ⟨c, behind ++ rest, by rw [heq]; rfl, hc⟩

/-- A class of the grammar is read as one lexeme. By induction on its items. -/
theorem ClassBody.lexemes {ranges : List CharRange} (h : ClassBody first u ranges)
    (hk : k.Before first) (n : Nat) (rest : List Char) :
    Pattern.lexemes fold (some k) (glyphs n (u ++ rest)) =
      .leaf (.bracket fold k.negated (k.ranges.reverse ++ ranges.map CharRange.codes)) ::
        Pattern.lexemes fold none (glyphs (n + u.length) rest) := by
  induction h generalizing k n with
  | close =>
    rw [List.singleton_append, lexemes_close hk, List.map_nil, List.append_nil]
    rfl
  | @single _ x later c ranges hx open_ alone body ih =>
    have alone := mt (body.opensRange_append rest).mp alone
    rw [List.append_assoc, lexemes_low hk hx open_, lexemes_single alone, ih (k.before_add _ _),
      List.length_append, Nat.add_assoc]
    simp [OpenClass.add, CharRange.single, CharRange.codes]
  | @range _ x y later lo hi ranges hx open_ hy bracket hle body ih =>
    have regroup : x ++ '-' :: (y ++ later) ++ rest = x ++ ('-' :: (y ++ (later ++ rest))) := by
      simp
    have length : (x ++ '-' :: (y ++ later)).length = x.length + 1 + y.length + later.length := by
      simp only [List.length_append, List.length_cons]
      omega
    rw [regroup, lexemes_low hk hx open_, lexemes_dash (hy.opensRange bracket _),
      lexemes_high hy, if_neg (Char.not_lt.mpr hle), ih (k.before_add _ _), length]
    simp [OpenClass.add, CharRange.codes, Nat.add_assoc]

/-- What can be in the place of an item: a fault or an item `x` of the grammar, which is read as one
with any rest of the class. -/
theorem exists_item (hk : k.Before first) (n : Nat) {cs : List Char} (hne : cs ≠ [])
    (unclosed : first = false → cs.head? ≠ some ']') :
    (∃ e, lexemes fold (some k) (glyphs n cs) = [.fault e]) ∨
      ∃ (x rest : List Char) (k' : OpenClass) (n' : Nat), x ≠ [] ∧ cs = x ++ rest ∧ k'.Before false ∧
        lexemes fold (some k) (glyphs n cs) = lexemes fold (some k') (glyphs n' rest) ∧
        ∀ v rest' ranges, rest = v ++ rest' → ClassBody false v ranges →
          ∃ ranges', ClassBody first (x ++ v) ranges' := by
  rcases exists_classChar n hne with ⟨u, c, rest, rfl, hu⟩ | ⟨g, gs, hcs, plain, faulty⟩
  · have open_ : first = false → u ≠ [']'] := by
      rintro later rfl
      exact unclosed later rfl
    rw [lexemes_low hk hu open_]
    by_cases opens : OpensRange rest
    · obtain ⟨d, behind, rfl, bracket⟩ := id opens
      rw [lexemes_dash opens]
      rcases exists_classChar (n + u.length + 1) (List.cons_ne_nil d behind) with
        ⟨v, hi, rest, split, hv⟩ | ⟨g, gs, hcs, _, faulty⟩
      · have closer : v ≠ [']'] := by
          rintro rfl
          exact bracket (List.cons.inj split).1
        rw [split, lexemes_high hv]
        split
        · exact .inl ⟨_, rfl⟩
        · next ascends =>
          refine .inr ⟨u ++ '-' :: v, rest, _, _, by simp, by simp, k.before_add c hi, rfl, ?_⟩
          rintro w _ ranges - body
          rw [List.append_assoc]
          exact ⟨_, .range hu open_ hv closer (Char.not_lt.mp ascends) body⟩
      · rw [hcs]
        exact .inl (lexemes_high_faulty faulty c gs)
    · rw [lexemes_single opens]
      refine .inr ⟨u, rest, _, _, hu.ne_nil, rfl, k.before_add c c, rfl, ?_⟩
      rintro v rest' ranges rfl body
      exact ⟨_, .single hu open_ (mt (body.opensRange_append rest').mpr opens) body⟩
  · rw [hcs]
    exact .inl (lexemes_faulty hk plain faulty gs)

/-- What is read as a class is one of the grammar, and all else is a fault. By induction on how much
is left to read. -/
theorem exists_classBody (hk : k.Before first) (n : Nat) (cs : List Char) :
    (∃ e, lexemes fold (some k) (glyphs n cs) = [.fault e]) ∨
      ∃ u ranges rest, cs = u ++ rest ∧ ClassBody first u ranges := by
  induction hn : cs.length using Nat.strongRecOn generalizing first k n cs with
  | ind length ih =>
    by_cases hne : cs = []
    · subst hne
      exact .inl ⟨_, rfl⟩
    by_cases closes : first = false ∧ cs.head? = some ']'
    · obtain ⟨rfl, head⟩ := closes
      obtain ⟨rest, rfl⟩ := List.head?_eq_some_iff.mp head
      exact .inr ⟨[']'], [], rest, rfl, .close⟩
    · rcases @exists_item fold first k hk n cs hne fun later head => closes ⟨later, head⟩ with
        fault | ⟨x, rest, k', n', nonempty, rfl, before, same, onward⟩
      · exact .inl fault
      · have shorter : rest.length < length := by
          have := List.length_pos_iff.mpr nonempty
          rw [← hn, List.length_append]
          omega
        rw [same]
        rcases ih _ shorter before n' rest rfl with fault | ⟨v, ranges, rest', rfl, body⟩
        · exact .inl fault
        · obtain ⟨ranges', body⟩ := onward v rest' ranges rfl body
          exact .inr ⟨x ++ v, ranges', rest', (List.append_assoc ..).symm, body⟩

end ScrapeConfig.Pattern
