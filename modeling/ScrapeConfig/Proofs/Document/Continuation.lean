import ScrapeConfig.Proofs.Document.Front

/-!
# Lines that end with a comma

A comma takes in the line break behind it, so that a list goes on in the next line. With a comment
between the two it does not: the comment ends the comma, and the line break behind the comment is
layout again, which announces the indentation of the next line. That is announced of a line that begins
with a comment anyway, and at the end of a document it does not matter.

Results:
1. `Yields.exists_behind_break`: when a line break can be put in front of a text.
2. `Document.tokenize_continued`: a comment behind a comma leaves the tokens as they are if and only if
   the white space of the comma is followed by another comment or by the end.
-/

namespace ScrapeConfig

open Lexical (IsSpace IsBlank IsComment IsComma IsIndent Layout)
open Rule (Cuts Stops Denotes NamesEnd Onward)

variable {t : Tracker} {run : Option (List Char)} {cs rest space : List Char} {ws : List Content}

/-- White space behind a line break announces a boundary. -/
theorem Tracker.exists_contents (ht : t.pending = []) (space : List Char) :
    ∃ kind payload ws, (t.across (some space)).contents = (kind, payload) :: ws ∧
      kind.isStructural = true := by
  obtain ⟨bs, b, pending, _⟩ := pending_indent ht space
  rw [contents, show (t.across (some space)).pending = bs ++ [b] from pending]
  have structural (b : Boundary) : b.kind.isStructural = true := by cases b <;> rfl
  cases bs with
  | nil => exact ⟨_, _, _, rfl, structural b⟩
  | cons b bs => exact ⟨_, _, _, rfl, structural b⟩

theorem layout_of_spaces (h : ∀ c ∈ space, IsSpace c) {v : List Char} (hv : Layout v) :
    Layout (space ++ v) := by
  induction space with
  | nil => exact hv
  | cons c space ih =>
    obtain ⟨hc, h⟩ := List.forall_mem_cons.mp h
    exact .space hc (ih h)

theorem cuts_spaces (spaces : ∀ c ∈ space, IsSpace c) (stops : Stops rest) :
    Cuts 2 ('\n' :: space) rest :=
  Rule.cuts_indent.mpr ⟨⟨space, rfl, by simpa using layout_of_spaces spaces .nil⟩, stops⟩

theorem stops_cons {c : Char} (hc : ¬ IsSpace c) (comment : c ≠ '#') : Stops (c :: rest) := by
  intro d hd
  obtain rfl := Option.some.inj hd
  exact ⟨hc, fun hash => absurd hash comment⟩

namespace Yields

/-- A comment behind a line break belongs to the layout that begins there, and so does the line break
at its own end. -/
theorem of_comment (h : Yields t none ('#' :: rest) ws) (spaces : ∀ c ∈ space, IsSpace c) :
    Yields t none ('\n' :: space ++ '#' :: rest) ws := by
  by_cases broken : '\n' ∈ rest
  · obtain ⟨v, behind, rfl, hv⟩ := List.eq_append_cons_of_mem broken
    obtain ⟨further, back, rfl, layout, stops⟩ := exists_layout behind
    have comment : Cuts 0 ('#' :: v) ('\n' :: (further ++ back)) :=
      Rule.cuts_comment.mpr ⟨⟨v, rfl, hv⟩, fun c hc => (Option.some.inj hc).symm⟩
    have own : Cuts 2 ('\n' :: further) back := Rule.cuts_indent.mpr ⟨⟨_, rfl, layout⟩, stops⟩
    have joined : Cuts 2 ('\n' :: space ++ '#' :: (v ++ '\n' :: further)) back :=
      Rule.cuts_indent.mpr ⟨⟨_, rfl, layout_of_spaces spaces (.comment hv layout)⟩, stops⟩
    have given := (indent_iff own).mp ((skip_iff comment (.inl rfl)).mp h)
    -- What is measured is the line behind the comment.
    have same : lastLine ('\n' :: further) =
        lastLine ('\n' :: space ++ '#' :: (v ++ '\n' :: further)) := by
      rw [← List.cons_append, ← List.append_assoc, lastLine_append (by simp)]
    have grown : Yields t none _ ws := .indent joined (given.of_lastLine (by simp) (by simp) same)
    simpa using grown
  · have trailing : Trailing ('#' :: rest) := .inr ⟨rest, rfl, broken⟩
    rw [h.unique (of_trailing trailing)]
    exact .indent (cuts_spaces spaces trailing.stops) (of_trailing trailing)

/-- What stands first behind a line break is a boundary, unless this is a comment or the end. -/
theorem behind_break_ne {ws' : List Content} (ht : t.pending = []) (spaces : ∀ c ∈ space, IsSpace c)
    {c : Char} (hc : ¬ IsSpace c) (comment : c ≠ '#') (h : Yields t none (c :: rest) ws)
    (h' : Yields t none ('\n' :: space ++ c :: rest) ws') : ws ≠ ws' := by
  have announced := (indent_iff (cuts_spaces spaces (stops_cons hc comment))).mp h'
  obtain ⟨_, cuts, _⟩ := h.tokenizes {}
  obtain ⟨i, text, behind, kind, payload, _, heq, cut, meant, _⟩ := cuts.of_word hc comment
  rw [heq] at h announced
  obtain ⟨_, rfl, _⟩ := (token_iff cut meant).mp h
  obtain ⟨_, rfl, _⟩ := (token_iff cut meant).mp announced
  obtain ⟨kind', _, _, first, structural⟩ := t.exists_contents ht ([] ++ '\n' :: space)
  have none : (t.across none).contents = [] := by
    rw [Tracker.contents, Tracker.across, ht]
    rfl
  rw [none, Option.getD_none, first]
  intro same
  obtain ⟨rfl, _⟩ := Prod.mk.inj (List.cons.inj same).1
  rw [meant.not_isStructural] at structural
  exact Bool.false_ne_true structural

/-- A line break in front of a text that begins with no white space announces the indentation of what
is there, unless this is a comment or the end. -/
theorem exists_behind_break (ht : t.pending = []) (h : Yields t none rest ws)
    (spaces : ∀ c ∈ space, IsSpace c) (front : ∀ c ∈ rest.head?, ¬ IsSpace c) :
    ∃ ws', Yields t none ('\n' :: space ++ rest) ws' ∧ (ws' = ws ↔ ∀ c ∈ rest.head?, c = '#') := by
  cases rest with
  | nil =>
    rw [h.unique .finish]
    exact ⟨_, .indent (cuts_spaces spaces nofun) .finish, iff_of_true rfl nofun⟩
  | cons c rest =>
    by_cases comment : c = '#'
    · subst comment
      exact ⟨ws, h.of_comment spaces, iff_of_true rfl fun d hd => (Option.some.inj hd).symm⟩
    · have hc := front c rfl
      obtain ⟨ws', given⟩ := h.elsewhere t (some ('\n' :: space))
      have given : Yields t none _ ws' := indent (cuts_spaces spaces (stops_cons hc comment)) given
      refine ⟨ws', given, iff_of_false ?_ fun hash => comment (hash c rfl)⟩
      exact (behind_break_ne ht spaces hc comment h given).symm

end Yields

/-- No name goes on with a comma. -/
theorem namesFit_comma (cs back : List Char) : NamesFit back (',' :: cs) := by
  intro w j v hj hd ne hv
  obtain ⟨c, v, rfl⟩ := List.exists_cons_of_ne_nil ne
  obtain ⟨rfl, _⟩ := List.cons_prefix_cons.mp hv
  exact absurd (List.mem_append_right _ List.mem_cons_self) (Rule.not_mem_name (by decide) hd hj)

namespace Document

variable {threaded : Bool} {context : Context} {source edited : String} {tokens : List Token}
  {set : PatternSet} {done rest : List Frame} {p : Position}
  {front gap back blanks comment : List Char}

/-- A comment is put between a comma and a line break behind it. The document that has it has tokens,
and they are the same, with the same payloads, if and only if the white space behind the comma is
followed by another comment or by the end of the document. -/
theorem tokenize_continued (hset : Rule.documentPatterns = .ok set)
    (h : tokenize threaded context source = .ok tokens)
    (framed : frames set threaded source =
      done ++ ⟨some 1, ',' :: (front ++ gap ++ '\n' :: back), p⟩ :: rest)
    (hgap : '\n' ∉ gap) (hblanks : ∀ c ∈ blanks, IsBlank c) (hcomment : '\n' ∉ comment)
    (edit : edited.toList = Frame.textOf done ++
      (',' :: (front ++ (blanks ++ '#' :: comment) ++ gap ++ '\n' :: back) ++ Frame.textOf rest)) :
    ∃ tokens', tokenize threaded context edited = .ok tokens' ∧
      (tokens'.map Token.content = tokens.map Token.content ↔
        ∀ c ∈ (Frame.textOf rest).head?, c = '#') := by
  have segments := segments_frames hset threaded source
  rw [framed] at segments
  have cut : Cuts 1 (',' :: (front ++ gap ++ '\n' :: back)) (Frame.textOf rest) := segments.cuts rfl
  obtain ⟨comma, head⟩ := Rule.cuts_comma.mp cut
  obtain ⟨⟨hfront, _⟩, _, hback⟩ :
      ((∀ c ∈ front, IsSpace c) ∧ ∀ c ∈ gap, IsSpace c) ∧ IsSpace '\n' ∧ ∀ c ∈ back, IsSpace c := by
    obtain ⟨_, heq, spaces⟩ := comma
    rwa [← (List.cons.inj heq).2, List.forall_mem_append, List.forall_mem_append,
      List.forall_mem_cons] at spaces
  -- What the comma, the comment and the line break are cut into.
  have shorter : IsComma (',' :: (front ++ blanks)) :=
    ⟨_, rfl, List.forall_mem_append.mpr ⟨hfront, fun c hc => .inl (hblanks c hc)⟩⟩
  have comma' : Cuts 1 (',' :: (front ++ blanks)) ('#' :: (comment ++ gap) ++ ('\n' :: back ++
      Frame.textOf rest)) := Rule.cuts_comma.mpr ⟨shorter, fun c hc => Option.some.inj hc ▸ by decide⟩
  have comment' : Cuts 0 ('#' :: (comment ++ gap)) ('\n' :: back ++ Frame.textOf rest) :=
    Rule.cuts_comment.mpr ⟨⟨_, rfl, by simp [hcomment, hgap]⟩, fun c hc => (Option.some.inj hc).symm⟩
  obtain ⟨cuts, t, run, before, ws, contents, given, others⟩ := exists_behind hset h framed
  obtain ⟨ws, rfl, behind⟩ := (Yields.token_iff cut (.comma comma)).mp given
  obtain ⟨ws', given', same⟩ := behind.exists_behind_break rfl hback head
  have edited' := Yields.token comma' (.comma shorter) (.skip comment' (.inl rfl) given')
  have cuts' : CutBefore done (',' :: (front ++ blanks) ++ ('#' :: (comment ++ gap) ++
      ('\n' :: back ++ Frame.textOf rest))) :=
    cuts.onward ⟨fun c hc => ⟨',', rfl, .inl (Option.some.inj hc)⟩, fun _ => by simp⟩
      (namesFit_comma _ _)
  obtain ⟨tokens', tokenized, contents'⟩ := (others cuts' (by rw [edit]; simp)).mpr edited'
  refine ⟨tokens', tokenized, ?_⟩
  rw [contents, contents', List.append_cancel_left_eq, List.append_cancel_left_eq, List.cons.injEq,
    and_iff_right rfl, same]

/-- Two names in two lines, and a comment that is put behind the comma. The second name is announced as
the beginning of a line then. -/
theorem tokenize_continued_commented : ∃ set tokens done rest p, Rule.documentPatterns = .ok set ∧
    tokenize false {} "a,\nb" = .ok tokens ∧
      frames set false "a,\nb" = done ++ ⟨some 1, [',', '\n'], p⟩ :: rest ∧
        "a, #\nb".toList = Frame.textOf done ++ ([',', ' ', '#', '\n'] ++ Frame.textOf rest) ∧
          ∃ tokens', tokenize false {} "a, #\nb" = .ok tokens' ∧
            tokens'.map Token.content ≠ tokens.map Token.content := by
  obtain ⟨set, hset, _⟩ := Rule.documentPatterns_eq_ok
  have name (c : Char) (hc : Lexical.OpensName c) (other : ¬ Lexical.IsKeyword [c]) : Cuts 7 [c] [] :=
    Rule.cuts_last_identifier ⟨c, [], rfl, hc, nofun⟩ other
  have first : Cuts 7 ['a'] [',', '\n', 'b'] :=
    (name 'a' (by decide) (by decide +kernel)).name (.inr rfl) (namesFit_comma _ _ _)
  have grown : IsComma [',', '\n'] := ⟨['\n'], rfl, by simp [IsSpace]⟩
  have comma : Cuts 1 [',', '\n'] ['b'] :=
    Rule.cuts_comma.mpr ⟨grown, fun c hc => Option.some.inj hc ▸ by decide⟩
  have last : Cuts 7 ['b'] [] := name 'b' (by decide) (by decide +kernel)
  have segments : Segments {} "a,\nb".toList _ :=
    .piece rfl first (.piece rfl comma (.piece rfl last .finish))
  have cuts : Tokenizes {} {} none "a,\nb".toList _ :=
    .token rfl first (.identifier first.denotes) <| .token rfl comma (.comma grown) <|
      .token rfl last (.identifier last.denotes) .finish
  have tokenized : tokenize false {} "a,\nb" = .ok _ := tokenize_eq_ok.mpr ⟨_, rfl, cuts⟩
  have framed : frames set false "a,\nb" = [⟨some 7, ['a'], {}⟩] ++ ⟨some 1, [',', '\n'], _⟩ :: _ :=
    (segments_frames hset false _).unique segments
  have blanks : ∀ c ∈ [' '], IsBlank c := List.forall_mem_singleton.mpr (by decide)
  obtain ⟨tokens', tokenized', same⟩ := @tokenize_continued false {} _ "a, #\nb" _ _ _ _ _ [] [] []
    [' '] [] hset tokenized framed nofun blanks nofun rfl
  refine ⟨set, _, _, _, _, hset, tokenized, framed, rfl, tokens', tokenized', fun heq => ?_⟩
  exact absurd (same.mp heq 'b' rfl) (by decide)

end Document

end ScrapeConfig
