import ScrapeConfig.Proofs.Pattern.Brackets
import ScrapeConfig.Proofs.Pattern.FaultPosition

/-!
# What pattern sources are read as

The reader goes through the lexemes of a source from the left and keeps the groups that are still
open. What has been read of a group derives its branches and items (`OpenGroup.Reads`), and what is
read of the groups around it stays as it is (`Nested`).

Results:
1. `Alternation.scan`: a text of the grammar is read as the trees that it derives.
2. `Nested.onward`, `exists_alternation`: what is read, piece by piece, is a text of the grammar.
3. `read_eq_ok_iff_derives`: the sources that are patterns, the expressions that they stand for, and
   the rejection of all other sources.
-/

namespace ScrapeConfig.Pattern

/-- Reads a text into the group `g`, which stands inside the groups `outer`. -/
def scan (fold : Bool) (outer : List OpenGroup) (g : OpenGroup) (n : Nat) (cs : List Char) :
    Except PatternError Expr :=
  assemble outer g (lexemes fold none (glyphs n cs))

/-! ## Lexemes -/

variable {fold : Bool} {outer : List OpenGroup} {g : OpenGroup} {n : Nat} {u v rest : List Char}
  {t : Tree} {ts bs : List Tree} {c : Char}

theorem lexemes_plain (hc : c ≠ '\\') (bracket : c ≠ '[') (rest : List Char) :
    lexemes fold none (glyphs n (c :: rest)) =
      lexeme fold n (.plain c) :: lexemes fold none (glyphs (n + 1) rest) := by
  rw [glyphs_plain hc, lexemes, if_neg (by simpa using bracket)]

theorem lexemes_open (rest : List Char) :
    lexemes fold none (glyphs n ('[' :: rest)) =
      lexemes fold (some ⟨n, false, .opening, []⟩) (glyphs (n + 1) rest) := by
  rw [glyphs_plain (by decide), lexemes, if_pos rfl]

theorem lexeme_literal (hc : c ∉ metacharacters) :
    lexeme fold n (.plain c) = .leaf (.literal fold c) := by
  have ne (d : Char) (hd : d ∈ metacharacters) : Glyph.plain c ≠ .plain d := by
    rintro ⟨⟩
    exact hc hd
  rw [lexeme]
  · rfl
  all_goals exact ne _ (by decide)

/-- An atom without parts is read as one lexeme. -/
theorem Leaf.lexemes (h : Leaf u t) (n : Nat) (rest : List Char) :
    Pattern.lexemes fold none (glyphs n (u ++ rest)) =
      .leaf (t.expr fold) :: Pattern.lexemes fold none (glyphs (n + u.length) rest) := by
  cases h with
  | anySymbol => exact lexemes_plain (by decide) (by decide) rest
  | startAnchor => exact lexemes_plain (by decide) (by decide) rest
  | endAnchor => exact lexemes_plain (by decide) (by decide) rest
  | @escape b d he =>
    show Pattern.lexemes fold none (glyphs n ('\\' :: b :: rest)) = _
    rw [glyphs_escape, he.escape_eq, Pattern.lexemes, if_neg (by simp)]
    rfl
  | @literal c hc =>
    have ne (d : Char) (hd : d ∈ metacharacters) : c ≠ d := fun same => hc (same ▸ hd)
    rw [List.singleton_append, lexemes_plain (ne _ (by decide)) (ne _ (by decide)),
      lexeme_literal hc]
    rfl
  | @bracket body ranges plain h =>
    have head : (body ++ rest).head? ≠ some '^' := by
      obtain ⟨inner, rfl⟩ := h.exists_concat
      cases inner with
      | nil => simp
      | cons _ _ => exact plain
    rw [List.cons_append, lexemes_open, lexemes_opening rfl head, h.lexemes (OpenClass.before_first _)]
    simp [Tree.expr, Nat.add_right_comm, Nat.add_assoc]
  | @negated body ranges h =>
    rw [List.cons_append, lexemes_open, List.cons_append, lexemes_negated rfl,
      h.lexemes (OpenClass.before_first ⟨n, true, .first, []⟩)]
    simp [Tree.expr, Nat.add_comm, Nat.add_left_comm]

/-! ## Reading what the grammar derives -/

theorem scan_nil (g : OpenGroup) (n : Nat) : scan fold [] g n [] = .ok g.expr := rfl

theorem Leaf.scan (h : Leaf u t) (outer : List OpenGroup) (g : OpenGroup) (n : Nat)
    (rest : List Char) :
    Pattern.scan fold outer g n (u ++ rest) =
      Pattern.scan fold outer (g.push (t.expr fold)) (n + u.length) rest := by
  rw [Pattern.scan, h.lexemes, assemble]
  rfl

theorem scan_open (rest : List Char) :
    scan fold outer g n ('(' :: rest) = scan fold (g :: outer) ⟨n, [], []⟩ (n + 1) rest := by
  rw [scan, lexemes_plain (by decide) (by decide), lexeme, assemble]
  rfl

theorem scan_close (g' : OpenGroup) (rest : List Char) :
    scan fold (g' :: outer) g n (')' :: rest) = scan fold outer (g'.push g.expr) (n + 1) rest := by
  rw [scan, lexemes_plain (by decide) (by decide), lexeme, assemble]
  rfl

theorem scan_unmatched (rest : List Char) : ∃ e, scan fold [] g n (')' :: rest) = .error e := by
  rw [scan, lexemes_plain (by decide) (by decide), lexeme, assemble]
  exact ⟨_, rfl⟩

theorem scan_bar (rest : List Char) :
    scan fold outer g n ('|' :: rest) = scan fold outer g.branch (n + 1) rest := by
  rw [scan, lexemes_plain (by decide) (by decide), lexeme, assemble]
  rfl

theorem lexemes_symbol (how : Quantifier) (rest : List Char) :
    lexemes fold none (glyphs n (how.symbol :: rest)) =
      .repeated how n :: lexemes fold none (glyphs (n + 1) rest) := by
  cases how <;> exact lexemes_plain (by decide) (by decide) rest

theorem scan_repeated {e : Expr} {es : List Expr} (items : g.items = e :: es) (how : Quantifier)
    (rest : List Char) :
    scan fold outer g n (how.symbol :: rest) =
      scan fold outer { g with items := how.apply e :: es } (n + 1) rest := by
  rw [scan, lexemes_symbol, assemble, items]
  rfl

theorem scan_nothing (items : g.items = []) (how : Quantifier) (rest : List Char) :
    ∃ e, scan fold outer g n (how.symbol :: rest) = .error e := by
  rw [scan, lexemes_symbol, assemble, items]
  exact ⟨_, rfl⟩

theorem OpenGroup.expr_eq (g : OpenGroup) : g.expr = .choice g.branch.branches.reverse := rfl

mutual

theorem Alternation.scan : ∀ {u : List Char} {bs : List Tree}, Alternation u bs →
    ∀ (outer : List OpenGroup) (g : OpenGroup) (n : Nat) (rest : List Char), g.items = [] →
      ∃ g' : OpenGroup,
        g'.branch.branches.reverse = g.branches.reverse ++ bs.map (Tree.expr fold) ∧
        Pattern.scan fold outer g n (u ++ rest) = Pattern.scan fold outer g' (n + u.length) rest
  | _, _, .one items, outer, g, n, rest, empty => by
    refine ⟨_, ?_, items.scan outer g n rest⟩
    simp [OpenGroup.branch, empty, Tree.expr_sequence]
  | _, _, @Alternation.more u v bs ts branches items, outer, g, n, rest, empty => by
    obtain ⟨g', before, first⟩ := branches.scan outer g n ('|' :: (v ++ rest)) empty
    refine ⟨{ g'.branch with items := (ts.map (Tree.expr fold)).reverse }, ?_, ?_⟩
    · simp only [OpenGroup.branch, List.reverse_cons, List.reverse_reverse] at before ⊢
      rw [before, List.map_append, List.append_assoc, List.map_singleton, Tree.expr_sequence]
    · rw [List.append_assoc, List.cons_append, first, scan_bar, items.scan]
      simp [OpenGroup.branch, Nat.add_assoc, Nat.add_comm 1]

theorem Concatenation.scan : ∀ {u : List Char} {ts : List Tree}, Concatenation u ts →
    ∀ (outer : List OpenGroup) (g : OpenGroup) (n : Nat) (rest : List Char),
      Pattern.scan fold outer g n (u ++ rest) =
        Pattern.scan fold outer { g with items := (ts.map (Tree.expr fold)).reverse ++ g.items }
          (n + u.length) rest
  | _, _, .none, outer, g, n, rest => rfl
  | _, _, .more items item, outer, g, n, rest => by
    rw [List.append_assoc, items.scan, item.scan, List.length_append, Nat.add_assoc]
    simp [OpenGroup.push]

theorem Item.scan : ∀ {u : List Char} {t : Tree}, Item u t →
    ∀ (outer : List OpenGroup) (g : OpenGroup) (n : Nat) (rest : List Char),
      Pattern.scan fold outer g n (u ++ rest) =
        Pattern.scan fold outer (g.push (t.expr fold)) (n + u.length) rest
  | _, _, .leaf leaf, outer, g, n, rest => leaf.scan outer g n rest
  | _, _, @Item.group u bs branches, outer, g, n, rest => by
    obtain ⟨g', inner, first⟩ := branches.scan (g :: outer) ⟨n, [], []⟩ (n + 1) (')' :: rest) rfl
    have expr : g'.expr = (Tree.choice bs).expr fold := by
      rw [g'.expr_eq, inner, Tree.expr_choice]
      rfl
    rw [List.cons_append, List.append_assoc, List.singleton_append, scan_open, first, scan_close, expr]
    simp [Nat.add_assoc, Nat.add_comm 1]
  | _, _, .repeated how item, outer, g, n, rest => by
    rw [List.append_assoc, item.scan, List.singleton_append, scan_repeated rfl, List.length_append,
      Nat.add_assoc]
    rfl

end

/-! ## Deriving what has been read -/

/-- How a text that is not empty can begin. -/
inductive Begins (fold : Bool) (n : Nat) : List Char → Prop
  | fault {cs : List Char} {e : PatternError} {ls : List Lexeme} :
      Pattern.lexemes fold none (glyphs n cs) = .fault e :: ls → Begins fold n cs
  | leaf {u : List Char} {t : Tree} (rest : List Char) : u ≠ [] → Leaf u t → Begins fold n (u ++ rest)
  | openGroup (rest : List Char) : Begins fold n ('(' :: rest)
  | closeGroup (rest : List Char) : Begins fold n (')' :: rest)
  | bar (rest : List Char) : Begins fold n ('|' :: rest)
  | repeated (how : Quantifier) (rest : List Char) : Begins fold n (how.symbol :: rest)

theorem begins_class (n : Nat) (cs : List Char) : Begins fold n ('[' :: cs) := by
  by_cases caret : cs.head? = some '^'
  · obtain ⟨cs, rfl⟩ := List.head?_eq_some_iff.mp caret
    have before := OpenClass.before_first ⟨n, true, .first, []⟩
    rcases @exists_classBody fold _ _ before (n + 1 + 1) cs with
      ⟨e, fault⟩ | ⟨u, ranges, rest, rfl, body⟩
    · exact .fault ((lexemes_open _).trans ((lexemes_negated rfl _).trans fault))
    · exact .leaf rest (List.cons_ne_nil _ _) (.negated body)
  · have before := OpenClass.before_first ⟨n, false, .first, []⟩
    rcases @exists_classBody fold _ _ before (n + 1) cs with
      ⟨e, fault⟩ | ⟨u, ranges, rest, rfl, body⟩
    · exact .fault ((lexemes_open _).trans ((lexemes_opening rfl caret).trans fault))
    · have plain : u.head? ≠ some '^' := by
        obtain ⟨inner, rfl⟩ := body.exists_concat
        cases inner <;> simp_all
      exact .leaf rest (List.cons_ne_nil _ _) (.bracket plain body)

theorem begins_escape (n : Nat) (cs : List Char) : Begins fold n ('\\' :: cs) := by
  cases cs with
  | nil => exact .fault rfl
  | cons b rest =>
    rcases escape_cases b with ⟨d, he, _⟩ | unknown
    · exact .leaf rest (List.cons_ne_nil _ _) (.escape he)
    · have read : lexemes fold none (glyphs n ('\\' :: b :: rest)) =
          .fault ⟨n, .unknownEscape b⟩ :: lexemes fold none (glyphs (n + 2) rest) := by
        rw [glyphs_escape, unknown]
        rfl
      exact .fault read

theorem exists_beginning (n : Nat) {cs : List Char} (hne : cs ≠ []) : Begins fold n cs := by
  obtain ⟨c, cs, rfl⟩ := List.exists_cons_of_ne_nil hne
  by_cases meta_ : c ∈ metacharacters
  · simp only [metacharacters, List.mem_cons, List.not_mem_nil, or_false] at meta_
    rcases meta_ with rfl | rfl | rfl | rfl | rfl | rfl | rfl | rfl | rfl | rfl | rfl
    · exact .openGroup cs
    · exact .closeGroup cs
    · exact begins_class n cs
    · exact .bar cs
    · exact .repeated .star cs
    · exact .repeated .plus cs
    · exact .repeated .opt cs
    · exact .leaf cs (List.cons_ne_nil _ _) .anySymbol
    · exact .leaf cs (List.cons_ne_nil _ _) .startAnchor
    · exact .leaf cs (List.cons_ne_nil _ _) .endAnchor
    · exact begins_escape n cs
  · exact .leaf cs (List.cons_ne_nil _ _) (.literal meta_)

/-- What stands in front of the branch that is being read: the finished branches, if there are any,
and the bar behind them. -/
inductive Finished : List Char → List Tree → Prop
  | none : Finished [] []
  | some {u : List Char} {bs : List Tree} : Alternation u bs → Finished (u ++ ['|']) bs

/-- The text `u` is what has been read of the group `g`. -/
def OpenGroup.Reads (fold : Bool) (g : OpenGroup) (u : List Char) : Prop :=
  ∃ front text bs ts, u = front ++ text ∧ Finished front bs ∧ Concatenation text ts ∧
    g.branches.reverse = bs.map (Tree.expr fold) ∧ g.items.reverse = ts.map (Tree.expr fold)

namespace OpenGroup

theorem reads_empty (n : Nat) : Reads fold ⟨n, [], []⟩ [] :=
  ⟨[], [], [], [], rfl, .none, .none, rfl, rfl⟩

theorem Reads.push (h : g.Reads fold u) (item : Item v t) :
    (g.push (t.expr fold)).Reads fold (u ++ v) := by
  obtain ⟨front, text, bs, ts, rfl, finished, read, branches, items⟩ := h
  refine ⟨front, text ++ v, bs, ts ++ [t], List.append_assoc .., finished, .more read item,
    branches, ?_⟩
  simp [OpenGroup.push, items]

theorem Finished.alternation {front text : List Char} (finished : Finished front bs)
    (read : Concatenation text ts) : Alternation (front ++ text) (bs ++ [.sequence ts]) := by
  cases finished with
  | none => exact .one read
  | some branches =>
    rw [List.append_assoc]
    exact .more branches read

theorem Reads.alternation (h : g.Reads fold u) :
    ∃ bs, Alternation u bs ∧ g.branch.branches.reverse = bs.map (Tree.expr fold) := by
  obtain ⟨front, text, bs, ts, rfl, finished, read, branches, items⟩ := h
  refine ⟨_, Finished.alternation finished read, ?_⟩
  simp [branch, branches, items, Tree.expr_sequence]

theorem Reads.branch (h : g.Reads fold u) : g.branch.Reads fold (u ++ ['|']) := by
  obtain ⟨bs, branches, heq⟩ := h.alternation
  exact ⟨u ++ ['|'], [], bs, [], (List.append_nil _).symm, .some branches, .none, heq, rfl⟩

theorem Reads.repeated {e : Expr} {es : List Expr} (h : g.Reads fold u) (items : g.items = e :: es)
    (how : Quantifier) :
    Reads fold { g with items := how.apply e :: es } (u ++ [how.symbol]) := by
  obtain ⟨front, text, bs, ts, rfl, finished, read, branches, heq⟩ := h
  cases read with
  | none => simp [items] at heq
  | @more text v ts t read item =>
    rw [items, List.reverse_cons, List.map_append, List.map_singleton] at heq
    obtain ⟨others, last⟩ := List.append_inj' heq rfl
    refine ⟨front, text ++ (v ++ [how.symbol]), bs, ts ++ [.repeated how t], by simp, finished,
      .more read (.repeated how item), branches, ?_⟩
    obtain rfl := List.singleton_inj.mp last
    simp [others, Tree.expr]

end OpenGroup

/-- The text that has been read of the group `g` and of the groups around it. -/
inductive Nested (fold : Bool) : List OpenGroup → OpenGroup → List Char → Prop
  | outermost {g : OpenGroup} {u : List Char} : g.Reads fold u → Nested fold [] g u
  | inner {outer : List OpenGroup} {g g' : OpenGroup} {u v : List Char} :
      Nested fold outer g' v → g.Reads fold u → Nested fold (g' :: outer) g (v ++ '(' :: u)

/-- Reading on in the innermost group. -/
theorem Nested.step {g' : OpenGroup} (h : Nested fold outer g u)
    (onward : ∀ w, g.Reads fold w → g'.Reads fold (w ++ v)) : Nested fold outer g' (u ++ v) := by
  cases h with
  | outermost read => exact .outermost (onward _ read)
  | inner around read =>
    rw [List.append_assoc, List.cons_append]
    exact .inner around (onward _ read)

/-- Reading the next piece `v` of a text, of which the rest is read successfully. -/
theorem Nested.onward {cs : List Char} {e : Expr} (h : Nested fold outer g u) (hne : cs ≠ [])
    (read : scan fold outer g n cs = .ok e) :
    ∃ (outer' : List OpenGroup) (g' : OpenGroup) (n' : Nat) (v rest : List Char),
      v ≠ [] ∧ cs = v ++ rest ∧ Nested fold outer' g' (u ++ v) ∧
        scan fold outer' g' n' rest = .ok e := by
  have begins : Begins fold n cs := exists_beginning n hne
  cases begins with
  | fault faulty =>
    rw [scan, faulty, assemble] at read
    cases read
  | @leaf v t rest nonempty leaf =>
    rw [leaf.scan] at read
    exact ⟨_, _, _, v, rest, nonempty, rfl, h.step fun w reads => reads.push (.leaf leaf), read⟩
  | openGroup rest =>
    rw [scan_open] at read
    exact ⟨_, _, _, ['('], rest, by simp, rfl, .inner h (OpenGroup.reads_empty n), read⟩
  | closeGroup rest =>
    cases h with
    | outermost _ =>
      obtain ⟨fault, unmatched⟩ := @scan_unmatched fold g n rest
      rw [unmatched] at read
      cases read
    | @inner outer _ g' w x around reads =>
      obtain ⟨bs, branches, heq⟩ := reads.alternation
      have group : g.expr = (Tree.choice bs).expr fold := by
        rw [g.expr_eq, heq, Tree.expr_choice]
      rw [scan_close, group] at read
      refine ⟨_, _, _, [')'], rest, by simp, rfl, ?_, read⟩
      rw [List.append_assoc]
      exact around.step fun w reads => reads.push (.group branches)
  | bar rest =>
    rw [scan_bar] at read
    exact ⟨_, _, _, ['|'], rest, by simp, rfl, h.step fun w reads => reads.branch, read⟩
  | repeated how rest =>
    cases items : g.items with
    | nil =>
      obtain ⟨fault, nothing⟩ := @scan_nothing fold outer g n items how rest
      rw [nothing] at read
      cases read
    | cons e' es =>
      rw [scan_repeated items] at read
      exact ⟨_, _, _, [how.symbol], rest, by simp, rfl,
        h.step fun w reads => reads.repeated items how, read⟩

/-- What is read is a text of the grammar, by induction on how much is left to read. -/
theorem exists_alternation {cs : List Char} {e : Expr} (h : Nested fold outer g u)
    (read : scan fold outer g n cs = .ok e) :
    ∃ bs, Alternation (u ++ cs) bs ∧ e = .choice (bs.map (Tree.expr fold)) := by
  induction hn : cs.length using Nat.strongRecOn generalizing outer g n u cs with
  | ind length ih =>
    by_cases hne : cs = []
    · subst hne
      cases h with
      | outermost reads =>
        obtain ⟨bs, branches, heq⟩ := reads.alternation
        rw [scan_nil, g.expr_eq, heq] at read
        exact ⟨bs, by rwa [List.append_nil], (Except.ok.inj read).symm⟩
      | inner _ _ => cases read
    · obtain ⟨outer', g', n', v, rest, nonempty, rfl, behind, read⟩ := h.onward hne read
      have shorter : rest.length < length := by
        have := List.length_pos_iff.mpr nonempty
        rw [← hn, List.length_append]
        omega
      rw [← List.append_assoc]
      exact ih _ shorter behind read rfl

/-! ## Sources -/

theorem read_of_derives {source : List Char} (hne : source ≠ []) (h : Derives source t) :
    read source fold = .ok (t.expr fold) := by
  obtain ⟨bs, branches, rfl⟩ := h
  obtain ⟨g, heq, first⟩ := @Alternation.scan fold _ _ branches [] {} 0 [] rfl
  rw [List.append_nil, scan_nil, g.expr_eq, heq] at first
  rw [read, if_neg (by simpa using hne), Tree.expr_choice]
  exact first

theorem derives_of_read {source : List Char} {e : Expr} (h : read source fold = .ok e) :
    source ≠ [] ∧ ∃ t, Derives source t ∧ e = t.expr fold := by
  unfold read at h
  split at h
  · cases h
  · next nonempty =>
    refine ⟨by simpa using nonempty, ?_⟩
    obtain ⟨bs, branches, heq⟩ := exists_alternation (.outermost (OpenGroup.reads_empty 0)) h
    exact ⟨.choice bs, ⟨bs, branches, rfl⟩, heq.trans (Tree.expr_choice fold bs).symm⟩

/-- A source is a pattern if and only if it is not empty and derives a tree, for which it then stands.
Any other source is rejected at a position that is not beyond its end. -/
theorem read_eq_ok_iff_derives (source : List Char) (fold : Bool) :
    (∀ e, read source fold = .ok e ↔
      source ≠ [] ∧ ∃ t, Derives source t ∧ e = t.expr fold) ∧
    ((∃ fault, read source fold = .error fault ∧ fault.position ≤ source.length) ↔
      source = [] ∨ ∀ t, ¬ Derives source t) := by
  refine ⟨fun e => ⟨derives_of_read, ?_⟩, ?_, fun rejected => ?_⟩
  · rintro ⟨nonempty, t, derives, rfl⟩
    exact read_of_derives nonempty derives
  · rintro ⟨fault, h, _⟩
    by_cases empty : source = []
    · exact .inl empty
    · refine .inr fun t derives => ?_
      rw [read_of_derives empty derives] at h
      cases h
  · cases h : read source fold with
    | error fault => exact ⟨fault, rfl, position_le h⟩
    | ok e =>
      obtain ⟨nonempty, t, derives, _⟩ := derives_of_read h
      exact (rejected.elim nonempty fun none => none t derives).elim

/-- A group is one item of the sequence around it, also at the end. -/
example : read "a(bc)".toList false =
    .ok (.seq [.literal false 'a', .seq [.literal false 'b', .literal false 'c']]) := rfl

end ScrapeConfig.Pattern
