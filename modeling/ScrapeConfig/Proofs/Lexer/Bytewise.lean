import ScrapeConfig.Proofs.Lexer.Emissions
import ScrapeConfig.Proofs.Scan.Munch

/-!
# Cutting characters and cutting bytes

The action of a rule may say that the first character of a text is to be emitted, or that all but the
first and the last are. The lexer goes by bytes instead. That is the same where these characters are
single bytes; where they are not, a literal is lost, and punctuation makes the lexer abort.

Results:
1. `Event.told`: what an action says of a text. `Event.ofFrame_eq_told_iff`: where the lexer says so.
2. `Event.emissions_eq_iff`: frames of which is emitted what their actions say.
3. `Lexer.exists_aborted_iff`: whether a lexer aborts does not depend on who listens.
4. `Lexer.tells_iff`: a lexer of any rules for any source.
5. `Document.bytewise_frames`: the rules of documents go by single bytes.
-/

namespace ScrapeConfig

/-! ## What actions say -/

/-- The characters by which a text is cut are single bytes. -/
def Action.Bytewise (action : Action) (text : List Char) : Prop :=
  match action with
  | .punct => ∃ c ∈ text.head?, c.utf8Size = 1
  | .literal => text.length ≤ 2 ∨
      (∃ c ∈ text.head?, c.utf8Size = 1) ∧ ∃ c ∈ text.getLast?, c.utf8Size = 1
  | _ => True

-- Otherwise an instance could be found that goes over all characters.
instance decidableExistsByte (o : Option Char) : Decidable (∃ c ∈ o, c.utf8Size = 1) :=
  o.decidableExistsMem

instance (action : Action) (text : List Char) : Decidable (action.Bytewise text) :=
  match action with
  | .punct => inferInstanceAs (Decidable (∃ c ∈ text.head?, c.utf8Size = 1))
  | .literal => inferInstanceAs (Decidable (text.length ≤ 2 ∨
      (∃ c ∈ text.head?, c.utf8Size = 1) ∧ ∃ c ∈ text.getLast?, c.utf8Size = 1))
  | .skip | .indent | .keyword | .variable | .unexpected => .isTrue trivial

/-- The rule of the frame, if there is one, cuts its text by single bytes. -/
def Frame.Bytewise (rules : List Rule) (f : Frame) : Prop :=
  ∀ r ∈ f.pattern.bind (rules[·]?), r.action.Bytewise f.text

namespace Event

/-- The event for a frame by what the action of its rule says: the first character of punctuation,
and all but the first and the last of a literal. -/
def told (action : Action) (text : List Char) (span : Span) : Event :=
  match action with
  | .punct => .emit (.text .punct (String.ofList (text.take 1))) span
  | .literal => .emit (.text .literal (String.ofList text.tail.dropLast)) span
  | action => ofFrame action text span

variable {action : Action} {text : List Char} {span : Span}

theorem told_ne_abort (action : Action) (text : List Char) (span : Span) :
    told action text span ≠ .abort := by
  cases action <;> simp [told, ofFrame]

/-- Between the first and the last character of a longer text there is something to lose. -/
theorem withoutQuotes_eq_iff :
    withoutQuotes text = text.tail.dropLast ↔ Action.Bytewise .literal text := by
  match text with
  | [] | [_] | [_, _] => simp [withoutQuotes, Action.Bytewise]
  | c :: d :: e :: rest =>
    have last : (d :: e :: rest).getLast?.any (·.utf8Size = 1) ↔
        ∃ l ∈ (c :: d :: e :: rest).getLast?, l.utf8Size = 1 := by
      simp [List.getLast?_cons_cons, Option.any_eq_true]
    by_cases bytes : c.utf8Size = 1 ∧ (d :: e :: rest).getLast?.any (·.utf8Size = 1)
    · rw [withoutQuotes, if_pos bytes]
      exact iff_of_true rfl (.inr ⟨⟨c, rfl, bytes.1⟩, last.mp bytes.2⟩)
    · rw [withoutQuotes, if_neg bytes]
      refine iff_of_false (by simp) ?_
      rintro (short | ⟨⟨first, hfirst, byte⟩, last'⟩)
      · simp at short
      · exact bytes ⟨Option.some.inj hfirst ▸ byte, last.mpr last'⟩

theorem leadingPunct_eq_none_iff :
    leadingPunct text = none ↔ ¬ Action.Bytewise .punct text := by
  cases text with
  | nil => exact iff_of_true rfl nofun
  | cons c rest => simp [leadingPunct, Action.Bytewise]

theorem ofFrame_eq_told (h : action.Bytewise text) (span : Span) :
    ofFrame action text span = told action text span := by
  cases action with
  | punct =>
    obtain ⟨c, hc, byte⟩ := h
    obtain ⟨rest, rfl⟩ := List.head?_eq_some_iff.mp hc
    simp [ofFrame, leadingPunct, byte, told]
  | literal => rw [ofFrame, told, withoutQuotes_eq_iff.mpr h]
  | _ => rfl

theorem ofFrame_eq_abort_iff :
    ofFrame action text span = .abort ↔ action = .punct ∧ ¬ action.Bytewise text := by
  cases action with
  | punct =>
    rw [← leadingPunct_eq_none_iff, ofFrame]
    cases leadingPunct text <;> simp
  | _ => simp [ofFrame]

/-- Where the lexer does not do what an action says, it aborts or emits something else. -/
theorem ofFrame_of_not_bytewise (h : ¬ action.Bytewise text) (span : Span) :
    ∃ said, told action text span = .emit said span ∧ (ofFrame action text span = .abort ∨
      ∃ other, ofFrame action text span = .emit other span ∧ other ≠ said) := by
  cases action with
  | punct => exact ⟨_, rfl, .inl (ofFrame_eq_abort_iff.mpr ⟨rfl, h⟩)⟩
  | literal =>
    refine ⟨_, rfl, .inr ⟨_, rfl, fun same => ?_⟩⟩
    exact h (withoutQuotes_eq_iff.mp (String.ofList_injective (Emission.text.inj same).2))
  | _ => exact absurd trivial h

/-- What is emitted behind a text does not make up for what is emitted of it. -/
theorem emissions_before_eq_iff {rest rest' : List Event} :
    emissions ((ofFrame action text span).before rest) =
        emissions (told action text span :: rest') ↔
      action.Bytewise text ∧ emissions rest = emissions rest' := by
  by_cases bytes : action.Bytewise text
  · rw [and_iff_right bytes, ofFrame_eq_told bytes, before_of_ne (told_ne_abort _ _ _),
      ← List.singleton_append, emissions_append, ← List.singleton_append (l := rest'),
      emissions_append, List.append_cancel_left_eq]
  · refine iff_of_false ?_ fun h => bytes h.1
    obtain ⟨said, hsaid, aborts | ⟨other, hother, ne⟩⟩ := ofFrame_of_not_bytewise bytes span
    · rw [hsaid, aborts]
      exact nofun
    · rw [hsaid, hother]
      intro same
      exact ne (Prod.mk.inj (List.cons.inj same).1).1

/-! ## Frames -/

/-- The events of a list of frames, like `ofFrames`, by what the actions of their rules say. -/
def toldOf (rules : List Rule) :
    (t : Tracker) → (run : Option (List Char)) → (span : Span) → List Frame → List Event
  | t, _, span, [] => closing t span
  | t, run, _, f :: fs => match f.pattern with
    | none => closing t f.span
    | some pattern => match rules[pattern]? with
      | none => .fault (.atSpan (.noRule pattern) f.span) :: toldOf rules t run f.span fs
      | some rule => match rule.action with
        | .skip => toldOf rules t run f.span fs
        | .indent => toldOf rules t (some (run.getD [] ++ f.text)) f.span fs
        | action => (t.across run).pending.map (boundary f.span) ++
            told action f.text f.span :: toldOf rules (t.across run).settled none f.span fs

variable {rules : List Rule} {f : Frame} {fs : List Frame}

theorem toldOf_of_token {i : Nat} {r : Rule} (hi : f.pattern = some i) (hr : rules[i]? = some r)
    (skip : r.action ≠ .skip) (indent : r.action ≠ .indent) (t : Tracker)
    (run : Option (List Char)) (span : Span) (fs : List Frame) :
    toldOf rules t run span (f :: fs) = (t.across run).pending.map (boundary f.span) ++
      told r.action f.text f.span :: toldOf rules (t.across run).settled none f.span fs := by
  simp only [toldOf, hi, hr]

theorem bytewise_iff {i : Nat} {r : Rule} (hi : f.pattern = some i) (hr : rules[i]? = some r) :
    f.Bytewise rules ↔ r.action.Bytewise f.text := by
  simp [Frame.Bytewise, hi, hr]

theorem bytewise_of_none (h : f.pattern.bind (rules[·]?) = none) : f.Bytewise rules := by
  rw [Frame.Bytewise, h]
  exact nofun

/-- What frames have the lexer emit is what their actions say if and only if their texts are cut by
single bytes. By induction on the frames in front of the end. -/
theorem emissions_eq_iff {e : Frame} (he : e.pattern = none) (known : ∀ f ∈ fs, f.pattern.isSome)
    (t : Tracker) (run : Option (List Char)) (span : Span) :
    emissions (ofFrames rules t run span (fs ++ [e])) =
      emissions (toldOf rules t run span (fs ++ [e])) ↔ ∀ f ∈ fs, f.Bytewise rules := by
  induction fs generalizing t run span with
  | nil => simp [ofFrames, toldOf, he]
  | cons f fs ih =>
    obtain ⟨first, others⟩ := List.forall_mem_cons.mp known
    obtain ⟨i, hi⟩ := Option.isSome_iff_exists.mp first
    rw [List.forall_mem_cons, List.cons_append]
    cases hr : rules[i]? with
    | none =>
      -- Both report that there is no such rule, which is no emission.
      have vacuous : f.Bytewise rules := bytewise_of_none (by rw [hi]; exact hr)
      rw [and_iff_right vacuous, ← ih others t run f.span]
      simp only [ofFrames, toldOf, hi, hr]
      rfl
    | some r =>
      rw [bytewise_iff hi hr]
      by_cases skip : r.action = .skip
      · rw [skip, and_iff_right (by exact trivial), ← ih others t run f.span]
        simp only [ofFrames, toldOf, hi, hr, skip]
      · by_cases indent : r.action = .indent
        · rw [indent, and_iff_right (by exact trivial),
            ← ih others t (some (run.getD [] ++ f.text)) f.span]
          simp only [ofFrames, toldOf, hi, hr, indent]
        · rw [ofFrames_of_token hi hr skip indent, toldOf_of_token hi hr skip indent,
            emissions_append, emissions_append, List.append_cancel_left_eq,
            emissions_before_eq_iff, ih others]

/-- Nothing is aborted but by punctuation that is longer than a byte. -/
theorem aborts_iff : Aborts rules f ↔
    ∃ r ∈ f.pattern.bind (rules[·]?), r.action = .punct ∧ ¬ r.action.Bytewise f.text := by
  constructor
  · rintro ⟨i, r, hi, hr, _, _, aborts⟩
    exact ⟨r, by rw [hi]; exact hr, ofFrame_eq_abort_iff.mp aborts⟩
  · rintro ⟨r, hr, punct, longer⟩
    obtain ⟨i, hi, hr⟩ := Option.bind_eq_some_iff.mp hr
    exact ⟨i, r, hi, hr, by simp [punct], by simp [punct], ofFrame_eq_abort_iff.mpr ⟨punct, longer⟩⟩

theorem Adds.not_aborts {t t' : Tracker} {run run' : Option (List Char)} {es : List Event}
    (h : Adds rules t run f es t' run') : ¬ Aborts rules f := by
  rintro ⟨i, r, hi, hr, skip, indent, said⟩
  have known {j : Nat} (hj : f.pattern = some j) : rules[j]? = some r := by
    obtain rfl := Option.some.inj (hi.symm.trans hj)
    exact hr
  cases h with
  | unknown hj none => exact absurd (none.symm.trans (known hj)) nofun
  | skip hj hr' ha => exact skip (Option.some.inj (hr'.symm.trans (known hj)) ▸ ha)
  | indent hj hr' ha => exact indent (Option.some.inj (hr'.symm.trans (known hj)) ▸ ha)
  | token hj hr' _ _ goesOn => exact goesOn (Option.some.inj (hr'.symm.trans (known hj)) ▸ said)

/-- By induction on the frames in front of the end. -/
theorem abort_mem_ofFrames_iff {e : Frame} (he : e.pattern = none)
    (known : ∀ f ∈ fs, f.pattern.isSome) (t : Tracker) (run : Option (List Char)) (span : Span) :
    .abort ∈ ofFrames rules t run span (fs ++ [e]) ↔ ∃ f ∈ fs, Aborts rules f := by
  induction fs generalizing t run span with
  | nil => simp [ofFrames, he, closing, boundary, eof]
  | cons f fs ih =>
    obtain ⟨first, others⟩ := List.forall_mem_cons.mp known
    rw [List.cons_append, List.exists_mem_cons_iff]
    rcases ends_or_aborts_or_adds rules t run f with ends | aborts | ⟨es, t', run', adds⟩
    · simp [ends] at first
    · obtain ⟨i, r, hi, hr, skip, indent, said⟩ := id aborts
      rw [ofFrames_of_token hi hr skip indent, said]
      exact iff_of_true (List.mem_append_right _ List.mem_cons_self) (.inl aborts)
    · rw [adds.ofFrames_eq, List.mem_append, or_iff_right adds.abort_notMem, ih others,
        or_iff_right adds.not_aborts]

end Event

/-! ## Compiled rules -/

namespace PatternSet

/-- By induction on the sources. -/
theorem exists_source {sources : List (String × Bool)} {ps : List Pattern}
    (h : sources.mapM (fun (source, fold) => Pattern.compile source fold) = .ok ps) :
    ∀ p ∈ ps, ∃ source fold, Pattern.compile source fold = .ok p := by
  induction sources generalizing ps with
  | nil =>
    obtain rfl := Except.ok.inj h
    exact List.forall_mem_nil _
  | cons source sources ih =>
    rw [List.mapM_cons] at h
    cases first : Pattern.compile source.1 source.2 with
    | error e => simp [first, bind, Except.bind] at h
    | ok p =>
      cases others : sources.mapM (fun (source, fold) => Pattern.compile source fold) with
      | error e => simp [first, others, bind, Except.bind] at h
      | ok ps' =>
        simp only [first, others] at h
        obtain rfl := Except.ok.inj h
        exact List.forall_mem_cons.mpr ⟨⟨_, _, first⟩, ih others⟩

theorem compiled_of_compile {sources : List (String × Bool)} {set : PatternSet}
    (h : compile sources = .ok set) : set.Compiled := by
  rw [compile] at h
  cases compiled : sources.mapM (fun (source, fold) => Pattern.compile source fold) with
  | error e =>
    rw [compiled] at h
    cases h
  | ok ps =>
    rw [compiled] at h
    obtain rfl := Except.ok.inj h
    exact exists_source compiled

end PatternSet

/-! ## Lexers -/

namespace Lexer

variable {σ ω : Type}

/-- A reply is an abort if and only if it comes to one. -/
theorem feed_aborted (h : Handler σ ω) (es : List Event) (s : σ) :
    ∃ front, es = front ++ (feed h es s).2.1 ∧
      ((feed h es s).1 = .aborted ↔ .abort ∈ front) := by
  fun_induction feed h es s with
  | case1 s => exact ⟨[], rfl, by simp⟩
  | case2 rest s => exact ⟨[.abort], rfl, by simp⟩
  | case3 e rest s e' t fault => exact ⟨[.fault e], rfl, by simp⟩
  | case4 emission span rest s e t told => exact ⟨[.emit emission span], rfl, by simp⟩
  | case5 emission span rest s o t told => exact ⟨[.emit emission span], rfl, by simp⟩
  | case6 emission span rest s t told ih =>
    obtain ⟨front, split, aborted⟩ := ih
    exact ⟨.emit emission span :: front, congrArg _ split, by simp [aborted]⟩

/-- Whether a lexer ever aborts is up to what it has to say, by induction on how much that is. -/
theorem exists_aborted_iff (l : Lexer) (h : Handler σ ω) (s : σ) :
    (∃ k, l.reply h s k = .aborted) ↔ .abort ∈ l.events := by
  induction hn : l.events.length using Nat.strongRecOn generalizing l s with
  | ind length ih =>
    obtain ⟨next, asked, further⟩ := l.lex_eq h s
    obtain ⟨front, split, aborted⟩ := feed_aborted h l.events s
    have here : l.reply h s 0 = (feed h l.events s).1 := congrArg Prod.fst asked
    have onward (k : Nat) : l.reply h s (k + 1) = next.reply h (feed h l.events s).2.2 k := by
      rw [reply, asked]
    have first : (∃ k, l.reply h s k = .aborted) ↔
        .abort ∈ front ∨ ∃ k, next.reply h (feed h l.events s).2.2 k = .aborted := by
      rw [← Nat.or_exists_add_one, here, aborted]
      simp only [onward]
    rw [first, split, List.mem_append, ← further]
    refine or_congr_right ?_
    by_cases finished : (feed h l.events s).1 = .finished
    · have nothing := further.trans (feed_finished finished)
      simp [nothing, (reply_of_nil nothing h _ _).1]
    · exact ih _ (hn ▸ length_feed finished) next _ (congrArg List.length further)

/-- Of a source that is scanned with the patterns of some rules, a lexer with these rules emits what
the actions of the rules say, and comes to its end, if and only if all texts are cut by single bytes.
It aborts if and only if some punctuation does not begin with a single byte. -/
theorem tells_iff {rules : List Rule} {set : PatternSet} (hset : Rule.patterns rules = .ok set)
    (context : Context) (source : String) (h : Handler σ ω) (s : σ) :
    let frames := (Scanner.new set source).frames
    let l := Lexer.new rules context frames
    ((∃ n, ∀ k ≥ n, l.reply h s k = .finished ∧ l.emitted h s k = Event.emissions
        (.emit (.object "CTX" context) {} :: Event.toldOf rules {} none {} frames)) ↔
      ∀ f ∈ frames, f.Bytewise rules) ∧
    ((∃ k, l.reply h s k = .aborted) ↔ ∃ f ∈ frames, ∃ r ∈ f.pattern.bind (rules[·]?),
      r.action = .punct ∧ ¬ r.action.Bytewise f.text) := by
  intro frames l
  have sound := (PatternSet.compiled_of_compile hset).sound
  obtain ⟨fs, split, known⟩ := (munches_frames sound [] source.toList).ends
  have frames_eq : frames = fs ++ [.finish (.behind source.toList)] := split
  have known : ∀ f ∈ fs, f.pattern.isSome := fun f hf => (known f hf).1
  have events : l.events = .emit (.object "CTX" context) {} :: Event.ofFrames rules {} none {} frames :=
    events_new rules context frames
  have last : (Frame.finish (.behind source.toList)).Bytewise rules := Event.bytewise_of_none rfl
  constructor
  · -- The lexer is finished at last, and what it has emitted then does not change any more.
    obtain ⟨n, -, emitted⟩ := handled_recording (rfl : l.events = _) (rfl : l.events = _) h s []
    have told : (∃ n, ∀ k ≥ n, l.reply h s k = .finished ∧ l.emitted h s k = Event.emissions
        (.emit (.object "CTX" context) {} :: Event.toldOf rules {} none {} frames)) ↔
        Event.emissions l.events = Event.emissions
          (.emit (.object "CTX" context) {} :: Event.toldOf rules {} none {} frames) := by
      constructor
      · rintro ⟨m, hm⟩
        rw [← (hm (max m n) (le_max_left m n)).2]
        exact (emitted (max m n) (le_max_right m n)).2.symm
      · intro same
        exact ⟨n, fun k hk => ⟨(emitted k hk).1, (emitted k hk).2.trans same⟩⟩
    have opening (es : List Event) : Event.emissions (.emit (.object "CTX" context) {} :: es) =
        (.object "CTX" context, {}) :: Event.emissions es := rfl
    rw [told, events, frames_eq, opening, opening, List.cons_inj_right,
      Event.emissions_eq_iff rfl known, List.forall_mem_append, List.forall_mem_singleton,
      and_iff_left last]
  · rw [exists_aborted_iff, events, List.mem_cons, or_iff_right nofun, frames_eq,
      Event.abort_mem_ofFrames_iff rfl known]
    simp only [Event.aborts_iff, List.mem_append, or_and_right, exists_or, List.mem_singleton,
      exists_eq_left]
    exact (or_iff_left (by rintro ⟨r, hr, -⟩; cases hr)).symm

/-- Quotes of two bytes, between which a literal is lost. -/
def guillemets : List Rule := [{ name := "quote", source := "«[^»]*»", action := .literal }]

theorem tells_iff_guillemets : ∃ set, Rule.patterns guillemets = .ok set ∧
    ¬ ∃ n, ∀ k ≥ n,
      (Lexer.new guillemets {} (Scanner.new set "«a»").frames).reply Token.handler () k = .finished ∧
      (Lexer.new guillemets {} (Scanner.new set "«a»").frames).emitted Token.handler () k =
        Event.emissions (.emit (.object "CTX" {}) {} ::
          Event.toldOf guillemets {} none {} (Scanner.new set "«a»").frames) := by
  have compiled : ∃ set, Rule.patterns guillemets = .ok set ∧
      set.longestMatch true ['«', 'a', '»'] = some ⟨0, 3⟩ := ⟨_, rfl, by decide +kernel⟩
  obtain ⟨set, hset, found⟩ := compiled
  have sound := (PatternSet.compiled_of_compile hset).sound
  have munches := @Munches.frame set [] ['«', 'a', '»'] [] _ _ found rfl .finish
  have frames : (Scanner.new set "«a»").frames =
      [⟨some 0, ['«', 'a', '»'], {}⟩, .finish (.behind ['«', 'a', '»'])] :=
    (munches.eq_frames sound).symm
  refine ⟨set, hset, fun told => ?_⟩
  have bytes := (tells_iff hset {} "«a»" Token.handler ()).1.mp told
  rw [frames] at bytes
  have cut := bytes _ List.mem_cons_self _ rfl
  revert cut
  decide

end Lexer

/-! ## Documents -/

namespace Rule

theorem IsQuoted.bytewise {quote : Char} (byte : quote.utf8Size = 1) {text : List Char}
    (h : Lexical.IsQuoted quote text) : Action.Bytewise .literal text := by
  obtain ⟨v, rfl, _⟩ := h
  exact .inr ⟨⟨quote, rfl, byte⟩, quote, List.getLast?_concat (l := quote :: v), byte⟩

theorem Cuts.bytewise {i : Nat} {text rest : List Char} (h : Cuts i text rest) :
    ∀ r ∈ documentRules[i]?, r.action.Bytewise text := by
  intro r hr
  match i, h.denotes, hr with
  | 1, ⟨v, comma, _⟩, hr =>
    obtain rfl := Option.some.inj hr
    exact ⟨',', by rw [comma]; rfl, by decide⟩
  | 5, quoted, hr =>
    obtain rfl := Option.some.inj hr
    exact IsQuoted.bytewise (by decide) quoted
  | 6, quoted, hr =>
    obtain rfl := Option.some.inj hr
    exact IsQuoted.bytewise (by decide) quoted
  | 0, _, hr | 2, _, hr | 3, _, hr | 4, _, hr | 7, _, hr | 8, _, hr =>
    obtain rfl := Option.some.inj hr
    trivial

end Rule

/-- The rules of documents cut by commas and ASCII quotes. -/
theorem Document.bytewise_frames {set : PatternSet} (hset : Rule.documentPatterns = .ok set)
    (threaded : Bool) (source : String) :
    ∀ f ∈ frames set threaded source, f.Bytewise Rule.documentRules := by
  intro f hf r hr
  obtain ⟨i, hi, hr⟩ := Option.bind_eq_some_iff.mp hr
  obtain ⟨rest, cut⟩ := (segments_frames hset threaded source).exists_cut hf hi
  exact cut.bytewise r hr

end ScrapeConfig
