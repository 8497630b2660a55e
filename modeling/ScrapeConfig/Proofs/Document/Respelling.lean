import ScrapeConfig.Proofs.Document.Front

/-!
# Other spellings of a keyword

Instead of a keyword another spelling of it can stand in a document, with letters of the other case and
with spaces for underscores. But a spelling in small letters is one of an identifier as well, and it can
run together with a name in front of it or with the characters behind it. Everything else can not.

Results:
1. `Respelled`: texts that keywords can not tell apart. `keyword_goesOn` says so of what goes on into
   such a text.
2. `StandsApart`: the new spelling runs together with nothing.
3. `Yields.grown`: what a text gives that runs together with what is behind it.
4. `Document.tokenize_respelled`: the tokens stay the same if and only if it stands apart.
-/

namespace ScrapeConfig

open Lexical (IsIdentifier IsKeyword ContinuesName OpensName Spells)
open Rule (Cuts Denotes IsLetter NamesEnd Onward)

/-! ## Spellings -/

namespace Lexical

/-- What joins the words of a keyword. -/
def IsJoint (c : Char) : Prop := c = '_' ∨ c = ' '

/-- The same letters in any case, and underscores or spaces at the same places. -/
def Respelled : (u v : List Char) → Prop :=
  List.Forall₂ fun c d => c.toUpper = d.toUpper ∨ IsJoint c ∧ IsJoint d

theorem Respelled.refl (u : List Char) : Respelled u u := List.forall₂_same.mpr fun _ _ => .inl rfl

theorem Respelled.append {u v u' v' : List Char} (h : Respelled u v) (h' : Respelled u' v') :
    Respelled (u ++ u') (v ++ v') := List.rel_append h h'

theorem eq_of_toUpper {c d : Char} (hd : IsJoint d) (h : c.toUpper = d) : c = d := by
  rw [char_eq_iff, toNat_toUpper] at h
  rw [char_eq_iff]
  have joints : '_'.toNat = 95 ∧ ' '.toNat = 32 := ⟨rfl, rfl⟩
  rcases hd with rfl | rfl <;> split at h <;> omega

/-- Two spellings of one name. -/
theorem Spells.respelled {name u v : List Char} (h : Spells name u) (h' : Spells name v) :
    Respelled u v := by
  induction h generalizing v with
  | nil =>
    cases h'
    exact .nil
  | @cons l c name u hc _ ih =>
    cases h' with
    | @cons _ d _ v hd behind =>
      refine .cons ?_ (ih behind)
      rcases hc with rfl | ⟨rfl, rfl⟩
      · rcases hd with hd | ⟨hl, rfl⟩
        · exact .inl hd.symm
        · exact .inr ⟨.inl (eq_of_toUpper (.inl rfl) hl), .inr rfl⟩
      · rcases hd with hd | ⟨_, rfl⟩
        · exact .inr ⟨.inr rfl, .inl (eq_of_toUpper (.inl rfl) hd)⟩
        · exact .inl rfl

/-- A name that is spelled in another way is the same name. -/
theorem Spells.of_respelled {name u v : List Char} (h : Spells name u)
    (letters : ∀ l ∈ name, l = '_' ∨ 'A' ≤ l ∧ l ≤ 'Z') (again : Respelled u v) : Spells name v := by
  induction h generalizing v with
  | nil =>
    cases again
    exact .nil
  | @cons l c name u hc _ ih =>
    obtain ⟨letter, letters⟩ := List.forall_mem_cons.mp letters
    cases again with
    | @cons _ d _ v hd behind =>
      refine .cons ?_ (ih letters behind)
      rcases hd with same | ⟨rfl | rfl, joint⟩
      · rcases hc with rfl | ⟨rfl, rfl⟩
        · exact .inl same.symm
        · exact .inr ⟨rfl, eq_of_toUpper (.inr rfl) same.symm⟩
      -- Only an underscore is spelled as one, or as a space.
      · obtain rfl : '_' = l := hc.elim id fun h => h.1.symm
        exact joint.imp (fun hd => by rw [hd]; rfl) fun hd => ⟨rfl, hd⟩
      · obtain rfl : l = '_' := by
          rcases hc with rfl | ⟨rfl, _⟩
          · exact absurd letter (by decide)
          · rfl
        exact joint.imp (fun hd => by rw [hd]; rfl) fun hd => ⟨rfl, hd⟩

theorem IsKeyword.respelled {u v : List Char} (h : IsKeyword u) (again : Respelled u v) :
    IsKeyword v := by
  obtain ⟨k, hk, h⟩ := h
  exact ⟨k, hk, h.of_respelled (Rule.letters_of_mem (Rule.mem_keywordNames.mpr ⟨k, hk, rfl⟩)) again⟩

/-- What goes on as a keyword into a text goes on as a keyword into other spellings of it. -/
theorem keyword_goesOn {w v back back' : List Char} (again : Respelled back' back)
    (h : IsKeyword (w ++ v)) (hv : v <+: back') :
    ∃ v', IsKeyword (w ++ v') ∧ v'.length = v.length ∧ v' <+: back := by
  refine ⟨back.take v.length, h.respelled (.append (.refl w) ?_), ?_, List.take_prefix _ _⟩
  · have front := List.forall₂_take v.length again
    rwa [← List.prefix_iff_eq_take.mp hv] at front
  · rw [List.length_take, ← again.length_eq]
    exact Nat.min_eq_left hv.length_le

theorem IsKeyword.exists_letter {u : List Char} (h : IsKeyword u) :
    ∃ c v, u = c :: v ∧ IsLetter c := by
  have name : Denotes 4 u := h
  obtain ⟨c, v, rfl⟩ := List.exists_cons_of_ne_nil (Rule.denotes_ne_nil name)
  exact ⟨c, v, rfl, by simpa using Rule.denotes_cons name⟩

theorem isIdentifier_append {u v : List Char} (ne : u ≠ []) :
    IsIdentifier (u ++ v) ↔ IsIdentifier u ∧ ∀ c ∈ v, ContinuesName c := by
  obtain ⟨c, u, rfl⟩ := List.exists_cons_of_ne_nil ne
  constructor
  · rintro ⟨_, _, heq, hc, hv⟩
    obtain ⟨rfl, rfl⟩ := List.cons.inj heq
    obtain ⟨hu, hv⟩ := List.forall_mem_append.mp hv
    exact ⟨⟨_, _, rfl, hc, hu⟩, hv⟩
  · rintro ⟨⟨_, _, heq, hc, hu⟩, hv⟩
    obtain ⟨rfl, rfl⟩ := List.cons.inj heq
    exact ⟨_, _, rfl, hc, List.forall_mem_append.mpr ⟨hu, hv⟩⟩

end Lexical

open Lexical (Respelled keyword_goesOn isIdentifier_append)

/-- The text is no identifier that goes on behind it. -/
def Apart (text back : List Char) : Prop :=
  IsIdentifier text → ∀ c ∈ back.head?, ¬ ContinuesName c

/-! ## Cuts -/

namespace Rule

variable {text text' back back' rest : List Char}

theorem onward_respelled (h : IsKeyword text) (h' : IsKeyword text') (rest : List Char) :
    Onward (text ++ rest) (text' ++ rest) := by
  obtain ⟨c, u, rfl, hc⟩ := h.exists_letter
  obtain ⟨c', u', rfl, hc'⟩ := h'.exists_letter
  refine ⟨fun d hd => ⟨c, rfl, .inr (.inr ⟨hc, Option.some.inj hd ▸ hc'⟩)⟩, fun hmem => ?_⟩
  have name : Denotes 4 (c' :: u') := h'
  have unbroken := break_not_mem name (.inl rfl)
  exact List.mem_append_right _ ((List.mem_append.mp hmem).resolve_left unbroken)

/-- Only an identifier can go on in another way in front of another spelling. -/
theorem namesEnd_respelled (again : Respelled back' back) (ne : text ≠ [])
    (apart : Apart text back') : NamesEnd text back back' := by
  intro j v hj hd hne hv
  rcases hj with rfl | rfl
  · obtain ⟨v', hd', length, hv'⟩ := keyword_goesOn again hd hv
    exact ⟨4, v', hd', List.length_pos_iff.mp (length ▸ List.length_pos_iff.mpr hne), hv'⟩
  · obtain ⟨identifier, onward⟩ := (isIdentifier_append ne).mp hd
    obtain ⟨c, v, rfl⟩ := List.exists_cons_of_ne_nil hne
    obtain ⟨rest, rfl⟩ := hv
    exact absurd (onward c List.mem_cons_self) (apart identifier c rfl)

/-- With another text between them it has to go through this text before. -/
theorem namesFit_respelled (again : Respelled back' back) (ne : text ≠ []) :
    NamesFit (text ++ back) (text ++ back') := by
  intro w j v hj hd hne hv
  rcases hj with rfl | rfl
  · obtain ⟨v', hd', length, hv'⟩ := keyword_goesOn ((Respelled.refl text).append again) hd hv
    exact ⟨4, v', hd', List.length_pos_iff.mp (length ▸ List.length_pos_iff.mpr hne), hv'⟩
  · rcases List.prefix_or_prefix_of_prefix hv (List.prefix_append text back') with inside | ⟨u, rfl⟩
    · exact ⟨7, v, hd, hne, inside.trans (List.prefix_append _ _)⟩
    · have hd : IsIdentifier (w ++ text ++ u) := by rwa [List.append_assoc]
      have identifier := ((isIdentifier_append (by simp [ne])).mp hd).1
      exact ⟨7, text, identifier, ne, List.prefix_append _ _⟩

theorem Cuts.respelled (h : Cuts 4 text rest) (again : Respelled text' text)
    (keyword : IsKeyword text') (apart : Apart text' rest) : Cuts 4 text' rest := by
  have only {j : Nat} {u : List Char} (hd : Denotes j (text' ++ u)) :
      j = 4 ∨ j = 7 ∨ j = 8 ∧ u = [] := by
    obtain ⟨c, v, rfl, hc⟩ := keyword.exists_letter
    exact (denotes_name (.inl hc) hd).imp_right
      (.imp_right fun h => ⟨h.1, (List.append_eq_nil_iff.mp h.2).2⟩)
  refine ⟨keyword, fun j hj hd => ?_, ?_⟩
  · have := only (j := j) (u := []) (by rwa [List.append_nil])
    omega
  · rintro u v rfl hne j hd
    rcases only hd with rfl | rfl | ⟨_, rfl⟩
    · exact h.longest u v rfl hne 4 (IsKeyword.respelled hd (again.append (.refl u)))
    · obtain ⟨identifier, onward⟩ := (isIdentifier_append (denotes_ne_nil (j := 4) keyword)).mp hd
      obtain ⟨c, u, rfl⟩ := List.exists_cons_of_ne_nil hne
      exact apart identifier c rfl (onward c List.mem_cons_self)
    · exact hne rfl

end Rule

/-! ## What is given -/

namespace Yields

variable {t : Tracker} {run : Option (List Char)} {text text' back back' : List Char}
  {ws : List Content}

/-- An identifier that goes on gives one with more characters, unless it goes on as a keyword. -/
theorem grown (h : Yields t run (text ++ back) ws) (identifier : IsIdentifier text) {c : Char}
    (hc : c ∈ back.head?) (onward : ContinuesName c)
    (noKeyword : ∀ u, u ≠ [] → u <+: back → ¬ IsKeyword (text ++ u)) : ∃ u ws', u ≠ [] ∧
      ws = (t.across run).contents ++ (.identifier, .text (.ofList (text ++ u))) :: ws' := by
  have ne : text ≠ [] := Rule.denotes_ne_nil (j := 7) identifier
  obtain ⟨back, rfl⟩ := List.head?_eq_some_iff.mp hc
  obtain ⟨i, longer, rest, heq, cut⟩ :=
    Rule.exists_cut (List.append_ne_nil_of_left_ne_nil ne (c :: back))
  have length : (text ++ [c]).length ≤ longer.length := by
    have further : Denotes 7 (text ++ [c]) :=
      (isIdentifier_append ne).mpr ⟨identifier, List.forall_mem_singleton.mpr onward⟩
    exact cut.length_le (v := back) further (heq.symm.trans (by simp))
  rw [List.length_append, List.length_singleton] at length
  obtain ⟨u, rfl⟩ : text <+: longer :=
    List.prefix_of_prefix_length_le ⟨_, rfl⟩ ⟨_, heq.symm⟩ (by omega)
  have some : u ≠ [] := by
    rintro rfl
    simp at length
  have within : u <+: c :: back := by
    rw [List.append_assoc] at heq
    exact ⟨rest, (List.append_cancel_left heq).symm⟩
  have named : Rule.Means i (text ++ u) .identifier (.text (.ofList (text ++ u))) := by
    obtain ⟨d, v, rfl, hd, _⟩ := identifier
    rcases Rule.denotes_name (.inr hd) cut.denotes with rfl | rfl | ⟨_, hnil⟩
    · exact absurd cut.denotes (noKeyword u some within)
    · exact .identifier cut.denotes
    · exact absurd (List.append_eq_nil_iff.mp hnil).2 some
  rw [heq] at h
  obtain ⟨ws', rfl, _⟩ := (token_iff cut named).mp h
  exact ⟨u, ws', some, rfl⟩

/-- If a name and another spelling of it give the same, the other spelling does not go on as an
identifier: this one would have more characters. -/
theorem apart {i : Nat} (h : Yields t run (text ++ back) ws) (cut : Cuts i text back)
    (name : i = 4 ∨ i = 7) (h' : Yields t run (text' ++ back') ws) (again : Respelled text' text)
    (behind : Respelled back' back) : Apart text' back' := by
  intro identifier c hc onward
  have noKeyword : ∀ u, u ≠ [] → u <+: back' → ¬ IsKeyword (text' ++ u) := by
    intro u ne hu keyword
    obtain ⟨v, keyword, length, v', hv⟩ :=
      keyword_goesOn behind (keyword.respelled (again.append (.refl u))) hu
    exact cut.longest v v' hv.symm
      (List.length_pos_iff.mp (length ▸ List.length_pos_iff.mpr ne)) 4 keyword
  obtain ⟨u, _, ne, same⟩ := h'.grown identifier hc onward noKeyword
  rcases name with rfl | rfl
  · obtain ⟨k, hk, spelled⟩ := cut.denotes
    obtain ⟨_, rfl, _⟩ := (token_iff cut (.keyword hk spelled)).mp h
    obtain ⟨rfl, _⟩ := Prod.mk.inj (List.cons.inj (List.append_cancel_left same)).1
    exact absurd hk (by decide)
  · obtain ⟨_, rfl, _⟩ := (token_iff cut (.identifier cut.denotes)).mp h
    obtain ⟨_, texts⟩ := Prod.mk.inj (List.cons.inj (List.append_cancel_left same)).1
    have lengths := congrArg List.length (String.ofList_injective (Payload.text.inj texts))
    rw [List.length_append, again.length_eq] at lengths
    exact ne (List.length_eq_zero_iff.mp (by omega))

end Yields

/-! ## Documents -/

/-- Neither the frame in front of the text nor the text itself is an identifier that goes on behind
it. -/
def StandsApart (done : List Frame) (text back : List Char) : Prop :=
  (∀ f ∈ done.getLast?, Apart f.text text) ∧ Apart text back

theorem CutBefore.respelled {done : List Frame} {text text' rest : List Char}
    (h : CutBefore done (text ++ rest)) (keyword : IsKeyword text) (keyword' : IsKeyword text')
    (again : Respelled text' text) (apart : ∀ f ∈ done.getLast?, Apart f.text text') :
    CutBefore done (text' ++ rest) := by
  have onward := Rule.onward_respelled keyword keyword' rest
  have behind := again.append (.refl rest)
  rcases done.eq_nil_or_concat with rfl | ⟨done, f, rfl⟩
  · trivial
  · rw [List.concat_eq_append] at h apart ⊢
    obtain ⟨front, i, hi, stray, cut⟩ := cutBefore_concat.mp h
    have ne := Rule.denotes_ne_nil cut.denotes
    have apart : Apart f.text (text' ++ rest) := by
      obtain ⟨c, v, rfl, _⟩ := keyword'.exists_letter
      exact apart f (by simp)
    exact cutBefore_concat.mpr ⟨front.onward (onward.append ne) (Rule.namesFit_respelled behind ne),
      i, hi, stray, cut.onward stray onward (Rule.namesEnd_respelled behind ne apart)⟩

namespace Document

variable {threaded : Bool} {context : Context} {source edited : String} {tokens : List Token}
  {set : PatternSet} {done rest : List Frame} {p : Position} {text text' : List Char} {k : TokenKind}

/-- If a document stays the same, the name in front of the keyword does not run together with the new
spelling. -/
theorem apart_front {f : Frame} (hset : Rule.documentPatterns = .ok set)
    (h : tokenize threaded context source = .ok tokens)
    (framed : frames set threaded source = done ++ f :: ⟨some 4, text, p⟩ :: rest)
    (keyword : IsKeyword text) (keyword' : IsKeyword text') (again : Respelled text' text)
    (edit : edited.toList = Frame.textOf done ++ (f.text ++ (text' ++ Frame.textOf rest)))
    (same : ∃ tokens', tokenize threaded context edited = .ok tokens' ∧
      tokens'.map Token.content = tokens.map Token.content) : Apart f.text text' := by
  intro identifier c hc
  obtain ⟨cuts, t, run, _, ws, contents, given, others⟩ := exists_behind hset h framed
  rw [contents] at same
  have plain := plain_frames hset h
  have segments := segments_frames hset threaded source
  rw [framed] at segments plain
  obtain ⟨i, hi, cut⟩ := segments.exists_cuts
  have name : i = 4 ∨ i = 7 := by
    obtain ⟨d, v, heq, hd, _⟩ := identifier
    have denotes := heq ▸ cut.denotes
    rcases Rule.denotes_name (.inr hd) denotes with rfl | rfl | ⟨rfl, _⟩
    · exact .inl rfl
    · exact .inr rfl
    · exact absurd hi (plain f (by simp))
  have ne := Rule.denotes_ne_nil cut.denotes
  have behind := again.append (.refl (Frame.textOf rest))
  have cuts' := cuts.onward ((Rule.onward_respelled keyword keyword' _).append ne)
    (Rule.namesFit_respelled behind ne)
  have given' := (others cuts' edit).mp same
  refine given.apart cut name given' (.refl _) behind identifier c ?_
  obtain ⟨d, v, rfl, _⟩ := keyword'.exists_letter
  exact hc

/-- With a keyword of a document spelled in another way, the document has the same tokens, with the
same payloads, if and only if the new spelling stands apart from what is around it. -/
theorem tokenize_respelled (hset : Rule.documentPatterns = .ok set)
    (h : tokenize threaded context source = .ok tokens)
    (framed : frames set threaded source = done ++ ⟨some 4, text, p⟩ :: rest)
    (hk : k ∈ TokenKind.keywords) (spelled : Spells k.label.toList text)
    (respelled : Spells k.label.toList text')
    (edit : edited.toList = Frame.textOf done ++ (text' ++ Frame.textOf rest)) :
    (∃ tokens', tokenize threaded context edited = .ok tokens' ∧
        tokens'.map Token.content = tokens.map Token.content) ↔
      StandsApart done text' (Frame.textOf rest) := by
  have keyword : IsKeyword text := ⟨k, hk, spelled⟩
  have keyword' : IsKeyword text' := ⟨k, hk, respelled⟩
  have again : Respelled text' text := respelled.respelled spelled
  have segments := segments_frames hset threaded source
  rw [framed] at segments
  have cut : Cuts 4 text (Frame.textOf rest) := segments.cuts rfl
  obtain ⟨cuts, t, run, _, ws, contents, given, others⟩ := exists_behind hset h framed
  constructor
  · intro same
    have front : ∀ f ∈ done.getLast?, Apart f.text text' := by
      intro f hf
      obtain ⟨done, rfl⟩ := List.getLast?_eq_some_iff.mp hf
      rw [List.append_assoc, List.singleton_append] at framed
      refine apart_front hset h framed keyword keyword' again ?_ same
      rw [edit]
      simp [Frame.textOf]
    rw [contents] at same
    have given' := (others (cuts.respelled keyword keyword' again front) edit).mp same
    exact ⟨front, given.apart cut (.inl rfl) given' again (.refl _)⟩
  · rintro ⟨front, apart⟩
    rw [contents]
    refine (others (cuts.respelled keyword keyword' again front) edit).mpr ?_
    obtain ⟨ws', rfl, behind⟩ := (Yields.token_iff cut (.keyword hk spelled)).mp given
    exact .token (cut.respelled again keyword' apart) (.keyword hk respelled) behind

theorem spells_get : Spells TokenKind.get.label.toList ['G', 'E', 'T'] ∧
    Spells TokenKind.get.label.toList ['g', 'e', 't'] := by
  refine ⟨Rule.spells_self (by decide), ?_⟩
  unfold Spells
  decide +kernel

/-- A keyword in small letters in front of a blank. -/
theorem tokenize_respelled_get : ∃ set tokens rest, Rule.documentPatterns = .ok set ∧
    tokenize false {} "GET a" = .ok tokens ∧
      frames set false "GET a" = [] ++ ⟨some 4, ['G', 'E', 'T'], {}⟩ :: rest ∧
        Spells TokenKind.get.label.toList ['G', 'E', 'T'] ∧
          Spells TokenKind.get.label.toList ['g', 'e', 't'] ∧
            "get a".toList = Frame.textOf [] ++ (['g', 'e', 't'] ++ Frame.textOf rest) ∧
              ∃ tokens', tokenize false {} "get a" = .ok tokens' ∧
                tokens'.map Token.content = tokens.map Token.content := by
  obtain ⟨set, hset, _⟩ := Rule.documentPatterns_eq_ok
  have name : ['G', 'E', 'T'] ∈ Rule.keywordNames := by decide
  obtain ⟨capitals, small⟩ := spells_get
  have first : Cuts 4 ['G', 'E', 'T'] [' ', 'a'] := Rule.cuts_keyword name (by simp)
  have blank : Cuts 3 [' '] ['a'] :=
    Rule.cuts_blanks.mpr ⟨⟨by simp, by simp [Lexical.IsBlank]⟩, by simp [Lexical.IsBlank]⟩
  have last : Cuts 7 ['a'] [] :=
    Rule.cuts_last_identifier ⟨'a', [], rfl, by decide, List.forall_mem_nil _⟩ (by decide +kernel)
  have meant : Rule.Means 7 ['a'] .identifier (.text (.ofList ['a'])) := .identifier last.denotes
  have segments : Segments {} "GET a".toList _ :=
    .piece rfl first (.piece rfl blank (.piece rfl last .finish))
  have cuts : Tokenizes {} {} none "GET a".toList _ :=
    .token rfl first (.keyword (by decide) capitals) (.skip rfl blank (.inr rfl)
      (.token rfl last meant .finish))
  have tokenized : tokenize false {} "GET a" = .ok _ := tokenize_eq_ok.mpr ⟨_, rfl, cuts⟩
  have framed : frames set false "GET a" = [] ++ ⟨some 4, ['G', 'E', 'T'], {}⟩ :: _ :=
    (segments_frames hset false "GET a").unique segments
  have apart : StandsApart [] ['g', 'e', 't'] [' ', 'a'] :=
    ⟨fun f hf => absurd hf (Option.not_mem_none f), fun _ c hc => Option.some.inj hc ▸ by decide⟩
  exact ⟨set, _, _, hset, tokenized, framed, capitals, small, rfl,
    (tokenize_respelled hset tokenized framed (by decide) capitals small rfl).mpr apart⟩

/-- In small letters a keyword runs together with an identifier behind it. -/
theorem tokenize_getx_differs : ∃ set tokens rest, Rule.documentPatterns = .ok set ∧
    tokenize false {} "GETx" = .ok tokens ∧
      frames set false "GETx" = [] ++ ⟨some 4, ['G', 'E', 'T'], {}⟩ :: rest ∧
        Spells TokenKind.get.label.toList ['G', 'E', 'T'] ∧
          Spells TokenKind.get.label.toList ['g', 'e', 't'] ∧
            "getx".toList = Frame.textOf [] ++ (['g', 'e', 't'] ++ Frame.textOf rest) ∧
              ¬ ∃ tokens', tokenize false {} "getx" = .ok tokens' ∧
                tokens'.map Token.content = tokens.map Token.content := by
  obtain ⟨set, hset, _⟩ := Rule.documentPatterns_eq_ok
  obtain ⟨capitals, small⟩ := spells_get
  have keyword : Denotes 4 ['G', 'E', 'T'] := ⟨.get, by decide, capitals⟩
  have first : Cuts 4 ['G', 'E', 'T'] ['x'] := by
    refine Rule.cuts_of_only (Rule.denotes_capital (by decide)) keyword fun u v heq ne hd => ?_
    obtain ⟨c, u, rfl⟩ := List.exists_cons_of_ne_nil ne
    obtain ⟨rfl, hnil⟩ := List.cons.inj heq
    obtain ⟨rfl, _⟩ := List.append_eq_nil_iff.mp hnil.symm
    have other : ¬ IsKeyword ['G', 'E', 'T', 'x'] := by decide +kernel
    exact other hd
  have last : Cuts 7 ['x'] [] :=
    Rule.cuts_last_identifier ⟨'x', [], rfl, by decide, List.forall_mem_nil _⟩ (by decide +kernel)
  have segments : Segments {} "GETx".toList _ := .piece rfl first (.piece rfl last .finish)
  have given : Yields {} none (['G', 'E', 'T'] ++ ['x']) _ :=
    .token first (.keyword (by decide) capitals) (.token last (.identifier last.denotes) .finish)
  obtain ⟨tokens, tokenized, contents⟩ :=
    (@exists_tokens_iff false {} "GETx" _).mpr given
  have framed := (segments_frames hset false "GETx").unique segments
  refine ⟨set, tokens, _, hset, tokenized, framed, capitals, small, rfl, fun same => ?_⟩
  rw [contents] at same
  have given' : Yields {} none (['g', 'e', 't'] ++ ['x']) _ := exists_tokens_iff.mp same
  have apart := given.apart first (.inl rfl) given' (small.respelled capitals) (.refl _)
  have identifier : IsIdentifier ['g', 'e', 't'] :=
    ⟨'g', ['e', 't'], rfl, by decide,
      List.forall_mem_cons.mpr ⟨by decide, List.forall_mem_singleton.mpr (by decide)⟩⟩
  exact apart identifier 'x' rfl (by decide)

end Document

end ScrapeConfig
