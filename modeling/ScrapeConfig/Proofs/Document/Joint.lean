import ScrapeConfig.Proofs.Document.Says
import ScrapeConfig.Proofs.Document.Syntax

/-!
# One text behind another

What a text says with a line break and another text behind it. The white space and the comments at
the end of the first text, the line break, and those at the beginning of the second text are one
stretch of layout, which ends at the beginning of a line. So all blocks of the first text are closed
there, and the words of the second text follow.

Results:
1. `Tracker.Grounded`: the levels of a tracker go down to zero. `Tracker.moveTo_zero`: going back to
   level zero closes all blocks.
2. `Tokenizes.of_layout`: what is left of a text behind its leading layout.
3. `says_joined`: the words of a text with a line break, layout and more text behind it.
-/

namespace ScrapeConfig

/-! ## Levels -/

namespace Tracker

/-- The levels around a level go down to zero. -/
inductive Descends : Nat → List Nat → Prop
  | zero : Descends 0 []
  | outer {level outer : Nat} {enclosing : List Nat} :
      outer < level → Descends outer enclosing → Descends level (outer :: enclosing)

/-- No boundary waits, and the levels go down to zero. -/
structure Grounded (t : Tracker) : Prop where
  pending : t.pending = []
  descends : Descends t.level t.enclosing

theorem grounded_empty : Grounded {} := ⟨rfl, .zero⟩

theorem descends_leave {target level : Nat} {enclosing : List Nat}
    (h : Descends level enclosing) :
    Descends (leave target level enclosing).2.1 (leave target level enclosing).2.2 := by
  induction h with
  | zero => exact .zero
  | outer hlt h ih =>
    rw [leave]
    split
    · exact ih
    · exact .outer hlt h

theorem descends_moveTo {t : Tracker} (h : Descends t.level t.enclosing) (n : Nat) :
    Descends (t.moveTo n).level (t.moveTo n).enclosing := by
  rw [moveTo]
  split
  · next hlt => exact .outer hlt h
  · split
    · exact h
    · exact descends_leave h

theorem Grounded.across {t : Tracker} (h : t.Grounded) (r : Option (List Char)) :
    (t.across r).settled.Grounded := by
  refine ⟨rfl, ?_⟩
  cases r with
  | none => exact h.descends
  | some space => exact descends_moveTo h.descends _

theorem leave_zero {level : Nat} {enclosing : List Nat} (h : Descends level enclosing) :
    leave 0 level enclosing = ((finish.closeAll level enclosing).1, 0, []) := by
  induction h with
  | zero => rfl
  | outer hlt _ ih =>
    rw [leave, if_pos (Nat.zero_lt_of_lt hlt), ih]
    rfl

/-- Going back to level zero closes all blocks. -/
theorem Grounded.moveTo_zero {t : Tracker} (h : t.Grounded) :
    (t.moveTo 0).settled = {} ∧
      (t.moveTo 0).waiting = t.finish.waiting ++ [.mark .sameLevel] := by
  obtain ⟨level, enclosing, pending⟩ := t
  obtain ⟨hp, descends⟩ := h
  obtain rfl : pending = [] := hp
  cases descends with
  | zero => exact ⟨rfl, rfl⟩
  | @outer _ outer enclosing hlt behind =>
    have positive : 0 < level := Nat.zero_lt_of_lt hlt
    have left := leave_zero (.outer hlt behind)
    rw [moveTo, if_neg (Nat.not_lt_zero _), if_neg positive.ne, left]
    refine ⟨rfl, ?_⟩
    rw [waiting, waiting, List.map_append]
    rfl

theorem measure_of_break {space : List Char} : measure (space ++ ['\n']) = 0 := by
  rw [measure, if_pos (by simp), List.reverse_append]
  rfl

end Tracker

/-! ## Leading layout -/

open Lexical (Layout IsSpace IsBlank IsComment)
open Rule (Cuts Stops)

theorem exists_layout (cs : List Char) :
    ∃ space rest, cs = space ++ rest ∧ Layout space ∧ Stops rest := by
  -- With a line break in front, the layout is what the rule of indentation cuts off.
  obtain ⟨i, text, rest, heq, cut⟩ := Rule.exists_cut (w := '\n' :: cs) nofun
  obtain ⟨c, text, rfl⟩ := List.exists_cons_of_ne_nil (Rule.denotes_ne_nil cut.denotes)
  obtain ⟨rfl, rfl⟩ := List.cons.inj heq
  obtain rfl : i = 2 := by
    simpa [IsBlank, Rule.IsLetter, Lexical.OpensName] using Rule.denotes_cons cut.denotes
  obtain ⟨⟨space, hspace, layout⟩, stops⟩ := Rule.cuts_indent.mp cut
  obtain rfl := (List.cons.inj hspace).2
  exact ⟨_, rest, rfl, layout, stops⟩

/-- The characters of one kind that layout begins with, and the layout behind them. -/
theorem Lexical.Layout.exists_front {P : Char → Prop} [DecidablePred P] (hash : ¬ P '#')
    {space : List Char} (h : Layout space) :
    ∃ front back, space = front ++ back ∧ (∀ c ∈ front, P c) ∧ (∀ c ∈ back.head?, ¬ P c) ∧
      Layout back := by
  induction h with
  | nil => exact ⟨[], [], rfl, List.forall_mem_nil _, nofun, .nil⟩
  | @space c u hc hu ih =>
    by_cases hP : P c
    · obtain ⟨front, back, rfl, hfront, hback⟩ := ih
      exact ⟨c :: front, back, rfl, List.forall_mem_cons.mpr ⟨hP, hfront⟩, hback⟩
    · exact ⟨[], c :: u, rfl, List.forall_mem_nil _, fun d hd => Option.some.inj hd ▸ hP,
        .space hc hu⟩
  | comment hv hu _ =>
    exact ⟨[], _, rfl, List.forall_mem_nil _, fun d hd => Option.some.inj hd ▸ hash,
      .comment hv hu⟩

namespace Tokenizes

variable {p : Position} {t : Tracker} {r : Option (List Char)} {text rest : List Char}
  {ts : List Token}

theorem of_skip {i : Nat} (h : Tokenizes p t r (text ++ rest) ts) (cut : Cuts i text rest)
    (hi : i = 0 ∨ i = 3) : Tokenizes (p.past text) t r rest ts := by
  generalize hcs : text ++ rest = cs at h
  cases h with
  | finish => exact absurd (List.append_eq_nil_iff.mp hcs).1 (Rule.denotes_ne_nil cut.denotes)
  | skip heq cut' _ h =>
    obtain ⟨_, rfl, rfl⟩ := cut.unique cut' (hcs.trans heq)
    exact h
  | indent heq cut' _ =>
    obtain ⟨rfl, _⟩ := cut.unique cut' (hcs.trans heq)
    simp at hi
  | token heq cut' meant _ =>
    obtain ⟨rfl, _⟩ := cut.unique cut' (hcs.trans heq)
    rcases hi with rfl | rfl <;> cases meant

theorem of_indent (h : Tokenizes p t r (text ++ rest) ts) (cut : Cuts 2 text rest) :
    Tokenizes (p.past text) t (some (r.getD [] ++ text)) rest ts := by
  generalize hcs : text ++ rest = cs at h
  cases h with
  | finish => exact absurd (List.append_eq_nil_iff.mp hcs).1 (Rule.denotes_ne_nil cut.denotes)
  | skip heq cut' hi _ =>
    obtain ⟨rfl, _⟩ := cut.unique cut' (hcs.trans heq)
    simp at hi
  | indent heq cut' h =>
    obtain ⟨_, rfl, rfl⟩ := cut.unique cut' (hcs.trans heq)
    exact h
  | token heq cut' meant _ =>
    obtain ⟨rfl, _⟩ := cut.unique cut' (hcs.trans heq)
    cases meant

/-- What is left behind layout that does not begin with a blank: nothing was collected, or what was
collected ends like the layout. -/
theorem of_line {space : List Char} (layout : Layout space) (stops : Stops rest)
    (head : ∀ c ∈ space.head?, ¬ IsBlank c) (h : Tokenizes p t r (space ++ rest) ts) :
    (space = [] ∧ Tokenizes p t r rest ts) ∨
      ∃ x u, space.getLast? = ('\n' :: u).getLast? ∧
        Tokenizes (p.past space) t (some (x ++ '\n' :: u)) rest ts := by
  cases layout with
  | nil => exact .inl ⟨rfl, h⟩
  | @space c u hc layout =>
    obtain rfl : c = '\n' := hc.resolve_left (head c rfl)
    exact .inr ⟨_, u, rfl, h.of_indent (Rule.cuts_indent.mpr ⟨⟨u, rfl, layout⟩, stops⟩)⟩
  | @comment v u hv layout =>
    have comment : Cuts 0 ('#' :: v) ('\n' :: u ++ rest) :=
      Rule.cuts_comment.mpr ⟨⟨v, rfl, hv⟩, fun c hc => (Option.some.inj hc).symm⟩
    have indent : Cuts 2 ('\n' :: u) rest := Rule.cuts_indent.mpr ⟨⟨u, rfl, layout⟩, stops⟩
    have split : '#' :: (v ++ '\n' :: u) ++ rest = ('#' :: v) ++ ('\n' :: u ++ rest) := by simp
    rw [split] at h
    have behind := (h.of_skip comment (.inl rfl)).of_indent indent
    rw [← Position.past_append] at behind
    refine .inr ⟨_, u, ?_, behind⟩
    rw [← List.cons_append, List.getLast?_append_of_ne_nil _ (List.cons_ne_nil _ _)]

/-- What is left of a text behind its leading layout. If the layout is empty, nothing was collected,
and if it ends a line, then so does what was collected. -/
theorem of_layout {space : List Char} (layout : Layout space) (stops : Stops rest)
    (h : Tokenizes p t none (space ++ rest) ts) :
    ∃ r', Tokenizes (p.past space) t r' rest ts ∧ (space = [] → r' = none) ∧
      (space.getLast? = some '\n' → ∃ x, r' = some (x ++ ['\n'])) := by
  obtain ⟨blanks, line, rfl, hblanks, head, layout⟩ :=
    layout.exists_front (P := IsBlank) (by decide)
  have behind : Tokenizes (p.past blanks) t none (line ++ rest) ts := by
    rw [List.append_assoc] at h
    by_cases hb : blanks = []
    · rwa [hb] at h ⊢
    · refine h.of_skip (Rule.cuts_blanks.mpr ⟨⟨hb, hblanks⟩, fun c hc => ?_⟩) (.inr rfl)
      cases line with
      | nil => exact fun blank => (stops c hc).1 (.inl blank)
      | cons d line => exact head c hc
  rw [Position.past_append]
  rcases of_line layout stops head behind with ⟨rfl, cuts⟩ | ⟨x, u, last, cuts⟩
  · refine ⟨none, cuts, fun _ => rfl, fun hlast => ?_⟩
    rw [List.append_nil] at hlast
    exact absurd (hblanks _ (List.mem_of_getLast? hlast)) (by decide)
  · have ne : line ≠ [] := by
      rintro rfl
      rw [eq_comm, List.getLast?_nil, List.getLast?_eq_none_iff] at last
      cases last
    refine ⟨_, cuts, fun hnil => absurd (List.append_eq_nil_iff.mp hnil).2 ne, fun hlast => ?_⟩
    rw [List.getLast?_append_of_ne_nil _ ne, last] at hlast
    obtain ⟨y, hy⟩ := List.getLast?_eq_some_iff.mp hlast
    exact ⟨x ++ y, by rw [hy, List.append_assoc]⟩

/-- A text that begins with a word. -/
theorem of_word {c : Char} {cs : List Char} (hc : ¬ IsSpace c) (comment : c ≠ '#')
    (h : Tokenizes p t r (c :: cs) ts) :
    ∃ i text rest kind payload ts', c :: cs = text ++ rest ∧ Cuts i text rest ∧
      Rule.Means i text kind payload ∧ Tokenizes (p.past text) (t.across r).settled none rest ts' ∧
        ts = (t.across r).pending.map (Boundary.token (.covering p text)) ++
          ⟨kind, payload, .covering p text⟩ :: ts' := by
  generalize hcs : c :: cs = w at h
  have first : ∀ {i text rest}, w = text ++ rest → Cuts i text rest → i ≠ 0 ∧ i ≠ 2 ∧ i ≠ 3 := by
    rintro i text rest rfl cut
    obtain ⟨d, text, rfl⟩ := List.exists_cons_of_ne_nil (Rule.denotes_ne_nil cut.denotes)
    obtain ⟨rfl, _⟩ := List.cons.inj hcs
    rcases Rule.denotes_cons cut.denotes with h | h | h | h | h | h | h | h | h
    all_goals simp_all [IsSpace]
  cases h with
  | finish => cases hcs
  | skip heq cut hi _ =>
    obtain ⟨h0, _, h3⟩ := first heq cut
    exact absurd hi (not_or.mpr ⟨h0, h3⟩)
  | indent heq cut _ => exact absurd rfl (first heq cut).2.1
  | token heq cut meant h => exact ⟨_, _, _, _, _, _, heq, cut, meant, h, rfl⟩

end Tokenizes

/-! ## The joint -/

/-- Every comma has a name behind it. -/
def CommasFollowed (ws : List Word) : Prop :=
  ∀ before behind, ws = before ++ .mark .comma :: behind → ∃ text rest, behind = .name text :: rest

theorem CommasFollowed.of_append {ws ws' : List Word} (h : CommasFollowed (ws ++ ws')) :
    CommasFollowed ws' := fun before behind heq =>
  h (ws ++ before) behind (by rw [heq, List.append_assoc])

theorem waiting_ne_name {t : Tracker} {ws : List Word} :
    ¬ ∃ text rest, t.waiting ++ .mark .eof :: ws = .name text :: rest := by
  rintro ⟨text, rest, heq⟩
  rw [Tracker.waiting] at heq
  cases hp : t.pending with
  | nil => simp [hp] at heq
  | cons b bs => simp [hp] at heq

/-- Where layout stops in a text, but not with a line break behind the text. -/
theorem trailing_of_stops {rest behind : List Char} (h : Stops rest)
    (h' : ¬ Stops (rest ++ '\n' :: behind)) : Trailing rest := by
  cases rest with
  | nil => exact .inl rfl
  | cons c cs =>
    obtain ⟨notSpace, comment⟩ := h c rfl
    by_cases hc : c = '#'
    · subst hc
      exact .inr ⟨cs, rfl, fun hmem => comment rfl (List.mem_cons_of_mem _ hmem)⟩
    · refine absurd (fun d hd => ?_) h'
      obtain rfl := Option.some.inj hd
      exact ⟨notSpace, fun h => absurd h hc⟩

theorem layout_trailing {rest space : List Char} (h : Trailing rest) (hspace : Layout space) :
    Layout (rest ++ '\n' :: space) := by
  rcases h with rfl | ⟨v, rfl, hv⟩
  · exact .space (.inr rfl) hspace
  · exact .comment hv hspace

/-- A text with a line break, layout and more text behind it, by induction on how the first text is
cut. What matters of the text behind is what it says when blocks are still open. -/
theorem says_joined {p : Position} {t : Tracker} {r : Option (List Char)} {cs : List Char}
    {ts : List Token} (h : Tokenizes p t r cs ts) {space rest : List Char} {ws : List Word}
    (ht : t.Grounded) (commas : CommasFollowed (ts.map Token.word)) (layout : Layout space)
    (stops : Stops rest) (next : ∀ t : Tracker, t.Grounded → ∀ x,
      Says t (some (x ++ '\n' :: space)) rest (t.finish.waiting ++ ws)) :
    ∃ front, ts.map Token.word = front ++ [.mark .eof] ∧
      Says t r (cs ++ '\n' :: (space ++ rest)) (front ++ ws) := by
  have joint : ∀ {x u : List Char} (t : Tracker) (r : Option (List Char)), t.Grounded →
      Lexical.IsIndent (x ++ '\n' :: space) → u = x ++ '\n' :: (space ++ rest) →
        Says t r u (t.finish.waiting ++ ws) := by
    rintro x u t r ht indent rfl
    have said := next t ht (r.getD [] ++ x)
    rw [List.append_assoc] at said
    have joined := says_indent said (Rule.cuts_indent.mpr ⟨indent, stops⟩)
    rwa [List.append_assoc] at joined
  induction h with
  | finish =>
    refine ⟨_, ?_, joint (x := []) _ _ ht ⟨space, rfl, layout⟩ rfl⟩
    rw [List.map_append, map_word_boundaries]
    rfl
  | @skip p t r i cs text behind ts heq cut hi _ ih =>
    obtain ⟨front, hfront, said⟩ := ih ht commas
    have cut' := cut.before_break (by omega) (by omega) (by omega) (space ++ rest)
    refine ⟨front, hfront, ?_⟩
    rw [heq, List.append_assoc]
    exact says_skip said cut' hi
  | @indent p t r cs text behind ts heq cut h ih =>
    obtain ⟨⟨v, hv, hlayout⟩, stopsHere⟩ := Rule.cuts_indent.mp cut
    by_cases further : Stops (behind ++ '\n' :: (space ++ rest))
    · obtain ⟨front, hfront, said⟩ := ih ht commas
      refine ⟨front, hfront, ?_⟩
      rw [heq, List.append_assoc]
      exact says_indent said (Rule.cuts_indent.mpr ⟨⟨v, hv, hlayout⟩, further⟩)
    · -- Here the layout goes on through the line break.
      have trailing := trailing_of_stops stopsHere further
      refine ⟨_, (says_trailing trailing t _).eq_of_tokenizes h, ?_⟩
      refine joint (x := text ++ behind) t r ht ⟨v ++ (behind ++ '\n' :: space), ?_, ?_⟩ ?_
      · rw [hv, List.append_assoc, List.cons_append]
      · exact Rule.Layout.append hlayout (layout_trailing trailing layout)
      · rw [heq]
  | @token p t r i cs text behind ts kind payload heq cut meant h ih =>
    rw [List.map_append, map_word_boundaries, List.map_cons] at commas ⊢
    -- A comma at the very end of the first text would take in the line break.
    have comma : i = 1 → behind ≠ [] := by
      rintro rfl rfl
      cases meant
      have words := (says_end _ none).eq_of_tokenizes h
      have followed := commas _ _ rfl
      rw [words] at followed
      exact waiting_ne_name followed
    have cut' := cut.before_break (by rintro rfl; cases meant) (by rintro rfl; cases meant) comma
      (space ++ rest)
    have commas' : CommasFollowed (ts.map Token.word) := by
      rw [List.append_cons] at commas
      exact commas.of_append
    obtain ⟨front, hfront, said⟩ := ih (ht.across r) commas'
    refine ⟨(t.across r).waiting ++ (Token.mk kind payload (.covering p text)).word :: front, ?_, ?_⟩
    · rw [hfront, List.append_assoc]
      rfl
    · rw [heq, List.append_assoc, List.append_assoc]
      exact says_token said cut' meant fun _ => rfl

/-! ## The text behind -/

theorem Position.column_past_pos {p : Position} (hp : 0 < p.column) (cs : List Char) :
    0 < (p.past cs).column := by
  induction cs generalizing p with
  | nil => exact hp
  | cons c cs ih =>
    refine ih ?_
    rw [next]
    split
    · exact Nat.one_pos
    · exact Nat.succ_pos _

/-- The texts that end at the beginning of a line. -/
theorem Position.getLast?_of_column_past {cs : List Char}
    (h : (({} : Position).past cs).column = 1) : cs = [] ∨ cs.getLast? = some '\n' := by
  rcases cs.eq_nil_or_concat with rfl | ⟨front, c, rfl⟩
  · exact .inl rfl
  · refine .inr ?_
    have positive := column_past_pos (p := {}) Nat.one_pos front
    rw [List.concat_eq_append] at h ⊢
    rw [List.getLast?_concat]
    rw [past_append] at h
    by_cases hc : c = '\n'
    · rw [hc]
    · simp only [past_cons, past_nil, next, if_neg hc] at h
      omega

/-- The first token of a text stands at the beginning of a line, if there is one. What stands for
the layout does not count. -/
def AtLineStart (ts : List Token) : Prop :=
  ∀ t, ts.find? (fun t => !t.kind.isStructural) = some t → t.span.column = 1

theorem Boundary.isStructural_token (b : Boundary) (span : Span) :
    (b.token span).kind.isStructural = true := by
  cases b <;> rfl

theorem atLineStart_iff {bs : List Boundary} {span : Span} {t : Token} {ts : List Token}
    (ht : t.kind.isStructural = false) :
    AtLineStart (bs.map (Boundary.token span) ++ t :: ts) ↔ t.span.column = 1 := by
  have first : (bs.map (Boundary.token span) ++ t :: ts).find? (fun t => !t.kind.isStructural) =
      some t := by
    rw [List.find?_append, List.find?_eq_none.mpr, Option.none_or, List.find?_cons, ht]
    · rfl
    · intro b hb
      obtain ⟨b, _, rfl⟩ := List.mem_map.mp hb
      rw [b.isStructural_token]
      nofun
  constructor
  · exact fun h => h t first
  · intro h u hu
    rwa [← Option.some.inj (first.symm.trans hu)]

open Syntax (sameLevels)

theorem Tracker.Grounded.across_break {t : Tracker} (h : t.Grounded) (x : List Char) :
    (t.across (some (x ++ ['\n']))).settled = {} ∧
      (t.across (some (x ++ ['\n']))).waiting = t.finish.waiting ++ [.mark .sameLevel] := by
  rw [Tracker.across, Tracker.indent, Tracker.measure_of_break]
  exact h.moveTo_zero

/-- A line whose first word has nothing but a line break in front of it: where it stands, what it
says, and what it says at the end of another text. -/
theorem says_line {c : Char} {cs : List Char} {ts : List Token} {p : Position}
    {r : Option (List Char)} (hc : ¬ IsSpace c) (comment : c ≠ '#')
    (h : Tokenizes p {} r (c :: cs) ts) (start : AtLineStart ts)
    (line : p.column = 1 → r = none ∨ ∃ x, r = some (x ++ ['\n'])) :
    p.column = 1 ∧ ∃ n w ws, ts.map Token.word = sameLevels n ++ w :: ws ∧ w.IsContent ∧
      ∀ t : Tracker, t.Grounded → ∀ x, Says t (some (x ++ ['\n'])) (c :: cs)
        (t.finish.waiting ++ .mark .sameLevel :: w :: ws) := by
  obtain ⟨i, text, rest, kind, payload, ts', heq, cut, meant, behind, rfl⟩ := h.of_word hc comment
  have column : p.column = 1 := (atLineStart_iff meant.not_isStructural).mp start
  obtain ⟨n, settled, waiting⟩ : ∃ n, (({} : Tracker).across r).settled = {} ∧
      (({} : Tracker).across r).waiting = sameLevels n := by
    rcases line column with rfl | ⟨x, rfl⟩
    · exact ⟨0, rfl, rfl⟩
    · obtain ⟨settled, waiting⟩ := Tracker.grounded_empty.across_break x
      exact ⟨1, settled, waiting⟩
  rw [settled] at behind
  refine ⟨column, n, _, ts'.map Token.word, ?_, isContent_of_means meant (.covering p text),
    fun t ht x => ?_⟩
  · rw [List.map_append, map_word_boundaries, List.map_cons, ← waiting]
    rfl
  · obtain ⟨settled, waiting⟩ := ht.across_break x
    rw [heq, List.append_cons t.finish.waiting, ← waiting]
    refine says_token ?_ cut meant fun _ => rfl
    rw [settled]
    exact says_of_tokenizes behind

/-- What a text says behind another one, if its first word stands at the beginning of a line: the
words of the other text, with all blocks closed, and then its own. -/
theorem exists_beginning {cs : List Char} {ts : List Token} (h : Tokenizes {} {} none cs ts)
    (start : AtLineStart ts) :
    ∃ space rest ws, cs = space ++ rest ∧ Layout space ∧ Stops rest ∧
      (∀ t : Tracker, t.Grounded → ∀ x,
        Says t (some (x ++ '\n' :: space)) rest (t.finish.waiting ++ ws)) ∧
      ((ts.map Token.word = [.mark .eof] ∧ ws = [.mark .eof]) ∨
        ∃ n w ws', ts.map Token.word = sameLevels n ++ w :: ws' ∧ w.IsContent ∧
          ws = .mark .sameLevel :: w :: ws') := by
  obtain ⟨space, rest, rfl, layout, stops⟩ := exists_layout cs
  obtain ⟨r, behind, whole, ends⟩ := h.of_layout layout stops
  rcases stops.trailing_or with trailing | ⟨c, rest, rfl, hc, comment⟩
  · refine ⟨space, rest, _, rfl, layout, stops, fun t _ x => says_trailing trailing t _,
      .inl ⟨?_, rfl⟩⟩
    exact (says_trailing trailing {} r).eq_of_tokenizes behind
  · have line : (({} : Position).past space).column = 1 → r = none ∨ ∃ x, r = some (x ++ ['\n']) :=
      fun column => (Position.getLast?_of_column_past column).imp whole ends
    obtain ⟨column, n, w, ws, hws, content, said⟩ := says_line hc comment behind start line
    refine ⟨space, _, _, rfl, layout, stops, fun t ht x => ?_, .inr ⟨n, w, ws, hws, content, rfl⟩⟩
    obtain ⟨y, hy⟩ : ∃ y, x ++ '\n' :: space = y ++ ['\n'] := by
      rcases Position.getLast?_of_column_past column with rfl | last
      · exact ⟨x, rfl⟩
      · obtain ⟨y, rfl⟩ := List.getLast?_eq_some_iff.mp last
        exact ⟨x ++ '\n' :: y, by rw [List.append_assoc, List.cons_append]⟩
    rw [hy]
    exact said t ht y

end ScrapeConfig
