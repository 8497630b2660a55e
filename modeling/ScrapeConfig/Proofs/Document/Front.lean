import ScrapeConfig.Proofs.Document.Relayout

/-!
# In front of an edit

An edit in the middle of a document leaves the text in front of it alone. The frames there stay as they
are, unless the last of them can go on further into the edited text than it did before.

Results:
1. `CutBefore`: frames that are cut off one after the other in front of a text. `CutBefore.onward` puts
   another text behind them.
2. `Yields.exists_behind`: what they give does not depend on the text behind them.
3. `Document.exists_behind`: so it is in a document.
-/

namespace ScrapeConfig

open Rule (Cuts NamesEnd Onward)

/-- The frames are cut off one after the other in front of a text, and none of them is a stray
character. -/
def CutBefore : List Frame → List Char → Prop
  | [], _ => True
  | f :: fs, back =>
    (∃ i, f.pattern = some i ∧ i ≠ 8 ∧ Cuts i f.text (Frame.textOf fs ++ back)) ∧ CutBefore fs back

theorem Frame.textOf_append (fs gs : List Frame) : textOf (fs ++ gs) = textOf fs ++ textOf gs :=
  List.flatMap_append

theorem Segments.cutBefore {p : Position} {cs : List Char} {done fs : List Frame} {f : Frame}
    (h : Segments p cs (done ++ f :: fs)) (plain : ∀ g ∈ done, g.pattern ≠ some 8) :
    CutBefore done (Frame.textOf (f :: fs)) := by
  induction done generalizing p cs with
  | nil => trivial
  | cons g done ih =>
    obtain ⟨here, plain⟩ := List.forall_mem_cons.mp plain
    obtain ⟨i, rest, hi, cut, _, behind⟩ :=
      h.of_cons (List.append_ne_nil_of_right_ne_nil done (List.cons_ne_nil f fs))
    have behind : Segments (p.past g.text) rest (done ++ f :: fs) := behind
    rw [← behind.textOf, Frame.textOf_append] at cut
    exact ⟨⟨i, hi, fun stray => here (hi.trans (congrArg some stray)), cut⟩, ih behind plain⟩

/-! ## Another text behind the frames -/

/-- No name goes on further in the second text than in the first one, whatever its beginning. -/
def NamesFit (back back' : List Char) : Prop := ∀ text, NamesEnd text back back'

/-- The same text in front of both. -/
theorem NamesFit.append {back back' : List Char} (h : NamesFit back back') (text : List Char) :
    NamesFit (text ++ back) (text ++ back') := by
  intro w j v hj hd ne hv
  rcases List.prefix_or_prefix_of_prefix hv (List.prefix_append text back') with inside | ⟨u, rfl⟩
  · exact ⟨j, v, hd, ne, inside.trans (List.prefix_append _ _)⟩
  · by_cases none : u = []
    · subst none
      exact ⟨j, _, hd, ne, by simp⟩
    · rw [List.prefix_append_right_inj] at hv
      rw [← List.append_assoc] at hd
      obtain ⟨j', v', hd', ne', hv'⟩ := h (w ++ text) hj hd none hv
      rw [List.append_assoc] at hd'
      exact ⟨j', text ++ v', hd', List.append_ne_nil_of_right_ne_nil _ ne',
        (List.prefix_append_right_inj _).mpr hv'⟩

theorem CutBefore.onward {done : List Frame} {back back' : List Char} (h : CutBefore done back)
    (onward : Onward back back') (names : NamesFit back back') : CutBefore done back' := by
  induction done with
  | nil => trivial
  | cons f done ih =>
    obtain ⟨⟨i, hi, stray, cut⟩, behind⟩ := h
    refine ⟨⟨i, hi, stray, ?_⟩, ih behind⟩
    by_cases none : Frame.textOf done = []
    · rw [none] at cut ⊢
      exact cut.onward stray onward (names f.text)
    · exact cut.onward stray (onward.append none) (names.append _ f.text)

theorem cutBefore_concat {done : List Frame} {f : Frame} {back : List Char} :
    CutBefore (done ++ [f]) back ↔ CutBefore done (f.text ++ back) ∧
      ∃ i, f.pattern = some i ∧ i ≠ 8 ∧ Cuts i f.text back := by
  induction done with
  | nil => simp [CutBefore, Frame.textOf]
  | cons g done ih =>
    have text : Frame.textOf (done ++ [f]) ++ back = Frame.textOf done ++ (f.text ++ back) := by
      simp [Frame.textOf]
    rw [List.cons_append, CutBefore, CutBefore, ih, text, and_assoc]

/-! ## What the frames give -/

/-- By induction on the frames: what they give, and what is collected and announced behind them, is the
same in front of any text. -/
theorem Yields.exists_behind {t : Tracker} {run : Option (List Char)} {done : List Frame}
    {back : List Char} {ws : List Content} (h : Yields t run (Frame.textOf done ++ back) ws)
    (cuts : CutBefore done back) : ∃ t₁ run₁ front ws₁, ws = front ++ ws₁ ∧ Yields t₁ run₁ back ws₁ ∧
      ∀ {back'}, CutBefore done back' → ∀ {ws'}, Yields t run (Frame.textOf done ++ back') ws' ↔
        ∃ ws₁', ws' = front ++ ws₁' ∧ Yields t₁ run₁ back' ws₁' := by
  induction done generalizing t run ws with
  | nil => exact ⟨t, run, [], ws, rfl, h, fun _ => by simp [Frame.textOf]⟩
  | cons f done ih =>
    obtain ⟨⟨i, hi, stray, cut⟩, cuts⟩ := cuts
    -- The same rule cuts the frame off in front of another text.
    have again {back' : List Char} (cuts' : CutBefore (f :: done) back') :
        Cuts i f.text (Frame.textOf done ++ back') := by
      obtain ⟨⟨i', hi', _, cut'⟩, _⟩ := cuts'
      rwa [Option.some.inj (hi.symm.trans hi')]
    rw [Frame.textOf_cons, List.append_assoc] at h
    rcases h.of_cut cut with
      ⟨skipped, behind⟩ | ⟨rfl, behind⟩ | ⟨kind, payload, ws', meant, rfl, behind⟩
    · obtain ⟨t₁, run₁, front, ws₁, rfl, given, others⟩ := ih behind cuts
      refine ⟨t₁, run₁, front, ws₁, rfl, given, fun {back'} cuts' ws' => ?_⟩
      rw [Frame.textOf_cons, List.append_assoc, skip_iff (again cuts') skipped, others cuts'.2]
    · obtain ⟨t₁, run₁, front, ws₁, rfl, given, others⟩ := ih behind cuts
      refine ⟨t₁, run₁, front, ws₁, rfl, given, fun {back'} cuts' ws' => ?_⟩
      rw [Frame.textOf_cons, List.append_assoc, indent_iff (again cuts'), others cuts'.2]
    · obtain ⟨t₁, run₁, front, ws₁, rfl, given, others⟩ := ih behind cuts
      refine ⟨t₁, run₁, (t.across run).contents ++ (kind, payload) :: front, ws₁, by simp, given,
        fun {back'} cuts' ws' => ?_⟩
      rw [Frame.textOf_cons, List.append_assoc, token_iff (again cuts') meant]
      constructor
      · rintro ⟨ws', rfl, given'⟩
        obtain ⟨ws₁', rfl, behind'⟩ := (others cuts'.2).mp given'
        exact ⟨ws₁', by simp, behind'⟩
      · rintro ⟨ws₁', rfl, behind'⟩
        exact ⟨front ++ ws₁', by simp, (others cuts'.2).mpr ⟨ws₁', rfl, behind'⟩⟩

namespace Document

variable {set : PatternSet} {threaded : Bool} {context : Context} {source : String}
  {tokens : List Token}

/-- A document that has tokens has no stray character. -/
theorem plain_frames (hset : Rule.documentPatterns = .ok set)
    (h : tokenize threaded context source = .ok tokens) :
    ∀ f ∈ frames set threaded source, f.pattern ≠ some 8 := by
  obtain ⟨ts, rfl, tokenized⟩ := tokenize_eq_ok.mp h
  exact tokenized.yields.ne_stray (segments_frames hset threaded source)

/-- What a document gives behind some of its frames, and another document that begins with them. -/
theorem exists_behind {done rest : List Frame} {f : Frame}
    (hset : Rule.documentPatterns = .ok set) (h : tokenize threaded context source = .ok tokens)
    (framed : frames set threaded source = done ++ f :: rest) :
    CutBefore done (f.text ++ Frame.textOf rest) ∧ ∃ t run front ws,
      tokens.map Token.content = front ++ ws ∧ Yields t run (f.text ++ Frame.textOf rest) ws ∧
        ∀ {back : List Char}, CutBefore done back → ∀ {edited : String},
          edited.toList = Frame.textOf done ++ back → ∀ {ws' : List Content},
            (∃ tokens', tokenize threaded context edited = .ok tokens' ∧
              tokens'.map Token.content = front ++ ws') ↔ Yields t run back ws' := by
  have segments := segments_frames hset threaded source
  have plain := plain_frames hset h
  obtain ⟨ts, rfl, tokenized⟩ := tokenize_eq_ok.mp h
  rw [framed] at segments plain
  have cuts := segments.cutBefore (List.forall_mem_append.mp plain).1
  have text := segments.textOf
  rw [Frame.textOf_append] at text
  rw [Frame.textOf_cons] at cuts text
  have given := tokenized.yields
  rw [← text] at given
  obtain ⟨t, run, front, ws, same, behind, others⟩ := given.exists_behind cuts
  refine ⟨cuts, t, run, (Token.opening context).content :: front, ws, ?_, behind, ?_⟩
  · rw [List.map_cons, same, List.cons_append]
  · intro back cuts' edited edit ws'
    rw [List.cons_append, exists_tokens_iff, edit, others cuts']
    constructor
    · rintro ⟨ws', same', behind'⟩
      rwa [List.append_cancel_left same']
    · exact fun behind' => ⟨ws', rfl, behind'⟩

end Document

end ScrapeConfig
