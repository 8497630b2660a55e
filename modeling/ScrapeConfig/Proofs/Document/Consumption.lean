import ScrapeConfig.Proofs.Document.Following
import ScrapeConfig.Proofs.Document.Grammar

/-!
# Tokens are taken once

The walk along a list of tokens comes to an end, unless the list has no end of input and its last
token is a same-level token. It takes token after token, and does not look behind the end of input.

Results:
1. `setting_follows` to `documentSection_follows`: every production of the walk follows its reader.
2. `sections_agrees`, `document_agrees`: so does the walk along a whole document.
3. `Walk.ofTokens_completes`: how the walk ends.
-/

namespace ScrapeConfig

open Document (Auths MetricDraft Draft)

variable {K : TokenKind → Prop}

/-! ## Productions -/

theorem setting_follows (m : Options) : FollowsAt K (Walk.setting m) (Document.setting m) :=
  (expect_follows (by decide)).bind fun _ => (expectText_follows _).bind fun key =>
    (expect_follows (by decide)).bind fun _ =>
      (expectText_follows _).map fun value => (OptionStore.setString m key value).2

theorem settingLine_follows (m : Options) :
    FollowsAt K (Walk.settingLine m) (Document.settingLine m) := by
  refine .kind fun k _ => ?_
  split
  · next set => exact (setting_follows m).congr fun s hs => if_pos (hs.trans set)
  · next other => exact (unexpected_follows _).congr fun s hs => if_neg (hs ▸ other)

theorem option_follows (m : Options) : FollowsAt K (Walk.option m) (Document.option m) := by
  refine .kind fun k _ => ?_
  split
  case h_3 =>
    exact (unexpected_follows _).congr fun s hs => by rw [Document.option]; split <;> simp_all
  all_goals refine .congr ?_ fun s hs => by rw [Document.option, hs]
  · exact setting_follows m
  · exact .keyword (block_follows settingLine_follows Document.settingLine_proceeds m) (by decide)

theorem decoder_follows : FollowsAt K Walk.decoder Document.decoder :=
  (expect_follows (by decide)).bind fun _ => (expectText_follows _).bind fun mode =>
    (optionalBlock_follows option_follows Document.option_proceeds _).map (Decoder.mk mode)

/-- What is read once the token at which the name of an auth stands has been looked at. -/
def authNamed (auths : Auths) (t : Token) (s : Stream) : Except ReadFault (Auth × Stream) := do
  let (name, s) ← s.expectText "auth name"
  match auths.lookup name with
  | none => .error (.error (.atSpan (.undefinedAuth name) t.span))
  | some auth => return (← Document.reporting t.span auth.copy, s)

theorem authName_follows (auths : Auths) :
    FollowsAt K (Walk.authName auths) (Document.authName auths) := by
  refine .look (g := authNamed auths) fun t => ?_
  refine (expectText_follows _).bind fun name => ?_
  dsimp only
  cases auths.lookup name with
  | none => exact .throw _
  | some auth => exact .compute (Document.reporting_halts t.span auth.copy).ne_endless

theorem asAuth_follows (auths : Auths) :
    FollowsAt K (Walk.asAuth auths) (Document.asAuth auths) := by
  refine .kind fun k _ => ?_
  split
  · next as =>
    subst as
    exact (FollowsAt.keyword ((authName_follows auths).map some) (by decide)).congr
      fun s hs => if_pos hs
  · next other => exact (FollowsAt.pure none).congr fun s hs => if_neg (hs ▸ other)

theorem metricType_follows : FollowsAt K Walk.metricType Document.metricType := by
  refine .kind fun k _ => ?_
  split
  case h_5 =>
    exact (unexpected_follows _).congr fun s hs => by rw [Document.metricType]; split <;> simp_all
  all_goals
    refine .congr ?_ fun s hs => by rw [Document.metricType, hs]
    exact .keyword (.pure _) (by decide)

theorem metricItem_follows (d : MetricDraft) :
    FollowsAt K (Walk.metricItem d) (Document.metricItem d) := by
  refine .kind fun k _ => ?_
  split
  case h_9 =>
    exact (unexpected_follows _).congr fun s hs => by rw [Document.metricItem]; split <;> simp_all
  all_goals refine .congr ?_ fun s hs => by rw [Document.metricItem, hs]
  · exact .keyword ((expectText_follows _).map _) (by decide)
  · exact .keyword (metricType_follows.map _) (by decide)
  · exact .keyword ((expectText_follows _).map _) (by decide)
  · exact .keyword ((expectText_follows _).map _) (by decide)
  · exact .keyword ((expectTexts_follows _).map _) (by decide)
  · exact .keyword ((expectText_follows _).map _) (by decide)
  · exact (option_follows d.options).map _
  · exact (option_follows d.options).map _

theorem metric_follows : FollowsAt K Walk.metric Document.metric :=
  (expect_follows (by decide)).bind fun span =>
    (block_follows metricItem_follows Document.metricItem_proceeds {}).bind fun draft =>
      .compute (Document.finish_halts draft span).ne_endless

theorem resourceItem_follows (r : Resource) :
    FollowsAt K (Walk.resourceItem r) (Document.resourceItem r) := by
  refine .kind fun k _ => ?_
  split
  case h_5 =>
    exact (unexpected_follows _).congr fun s hs => by rw [Document.resourceItem]; split <;> simp_all
  all_goals refine .congr ?_ fun s hs => by rw [Document.resourceItem, hs]
  · exact (option_follows r.options).map _
  · exact (option_follows r.options).map _
  · exact metric_follows.map _
  · exact decoder_follows.map _

theorem httpMethod_follows : FollowsAt K Walk.httpMethod Document.httpMethod := by
  refine .kind fun k _ => ?_
  split
  case h_3 =>
    exact (unexpected_follows _).congr fun s hs => by rw [Document.httpMethod]; split <;> simp_all
  all_goals
    refine .congr ?_ fun s hs => by rw [Document.httpMethod, hs]
    exact .keyword (.pure _) (by decide)

theorem resource_follows (auths : Auths) :
    FollowsAt K (Walk.resource auths) (Document.resource auths) :=
  httpMethod_follows.bind fun method => (expectText_follows _).bind fun uri =>
    (asAuth_follows auths).bind fun auth =>
      optionalBlock_follows resourceItem_follows Document.resourceItem_proceeds { method, uri, auth }

theorem serviceItem_follows (auths : Auths) (a : Service × Options) :
    FollowsAt K (Walk.serviceItem auths a) (Document.serviceItem auths a) := by
  obtain ⟨service, options⟩ := a
  refine .kind fun k _ => ?_
  split
  case h_7 =>
    exact (unexpected_follows _).congr fun s hs => by
      rw [Document.serviceItem]
      dsimp only
      split <;> simp_all
  all_goals
    refine .congr ?_ fun s hs => by rw [Document.serviceItem, hs]
  · exact (option_follows options).map _
  · exact (option_follows options).map _
  · exact metric_follows.map _
  · exact (resource_follows auths).map _
  · exact (resource_follows auths).map _
  · exact decoder_follows.map _

theorem serviceLines_follows (context : Context) (auths : Auths) (stack : Option String)
    (span : Span) (names : List String) (auth : Option Auth) : Follows (do
      let (service, options) ← Walk.optionalBlock (Walk.serviceItem auths)
        ({ name := "", stack, auth }, .empty)
      let service ← Walk.compute (Document.settle context service options span)
      Walk.compute (Document.stamp service span names)) (fun s => do
      let ((service, options), s) ← s.optionalBlock (Document.serviceItem auths)
        ({ name := "", stack, auth }, .empty)
      let service ← Document.settle context service options span
      return (← Document.stamp service span names, s)) := by
  refine (optionalBlock_follows (serviceItem_follows auths)
    (Document.serviceItem_proceeds auths) _).bind fun lines => ?_
  have settled := Document.settle_halts context lines.1 lines.2 span
  refine .compute_bind settled.ne_endless fun service => ?_
  exact .compute (Document.stamp_halts service span names).ne_endless

theorem service_follows (context : Context) (auths : Auths) (stack : Option String) :
    FollowsAt K (Walk.service context auths stack) (Document.service context auths stack) := by
  refine (expect_follows (by decide)).bind fun span => ?_
  refine (expectTexts_follows _).bind fun names => (asAuth_follows auths).bind fun auth => ?_
  cases auth with
  | none =>
    exact .compute_bind (Document.reporting_halts span _).ne_endless
      (serviceLines_follows context auths stack span names)
  | some auth => exact serviceLines_follows context auths stack span names (some auth)

theorem auth_follows (auths : Auths) : FollowsAt K (Walk.auth auths) (Document.auth auths) :=
  (expect_follows (by decide)).bind fun _ => (expectText_follows _).bind fun scheme =>
    (expect_follows (by decide)).bind fun _ => (expectText_follows _).bind fun name =>
      (optionalBlock_follows option_follows Document.option_proceeds _).map fun options =>
        (name, ⟨scheme, options⟩) :: auths

theorem stackItem_follows (context : Context) (stack : String) (d : Draft) :
    FollowsAt K (Walk.stackItem context stack d) (Document.stackItem context stack d) := by
  refine .kind fun k _ => ?_
  split
  case h_3 =>
    exact (unexpected_follows _).congr fun s hs => by rw [Document.stackItem]; split <;> simp_all
  all_goals refine .congr ?_ fun s hs => by rw [Document.stackItem, hs]
  · exact (service_follows context d.auths _).map _
  · exact (auth_follows d.auths).map _

theorem stack_follows (context : Context) (d : Draft) :
    FollowsAt K (Walk.stack context d) (Document.stack context d) :=
  (expect_follows (by decide)).bind fun _ => (expectText_follows _).bind fun name =>
    block_follows (stackItem_follows context name) (Document.stackItem_proceeds context name) d

theorem documentSection_follows (context : Context) (d : Draft) :
    FollowsAt K (Walk.documentSection context d) (Document.documentSection context d) := by
  refine .kind fun k _ => ?_
  split
  case h_5 =>
    exact (unexpected_follows _).congr fun s hs => by
      rw [Document.documentSection]
      split <;> simp_all
  all_goals refine .congr ?_ fun s hs => by rw [Document.documentSection, hs]
  · exact .keyword (.pure _) (by decide)
  · exact (auth_follows d.auths).map _
  · exact stack_follows context d
  · exact (service_follows context d.auths _).map _

/-! ## Documents -/

/-- By induction on what is left of the list. -/
theorem sections_agrees (context : Context) (d : Draft) {c : Cursor} (safe : c.Safe) :
    Agrees (fun d _ => d) c (Walk.sections context d c) (Document.sections context d c.stream) := by
  induction hn : c.stream.rest.length using Nat.strongRecOn generalizing d c with
  | ind n ih =>
    have halts := (Document.sections_halts context d safe.ending).ne_endless
    rw [Walk.sections_eq, Document.sections_eq halts]
    refine .atEnd safe fun c₁ safe₁ same₁ => ?_
    rw [← same₁] at halts hn ⊢
    by_cases stop : c₁.stream.atEnd = true
    · rw [if_pos stop, if_pos stop]
      exact .ok safe₁ rfl
    rw [if_neg stop, if_neg stop]
    refine (documentSection_follows (K := fun _ => True) context d _ safe₁ trivial).bind
      fun d' c₂ safe₂ read => .atEnd safe₂ fun c₃ safe₃ same₃ => ?_
    dsimp only [behind] at read ⊢
    rw [← same₃] at read ⊢
    by_cases stop' : c₃.stream.atEnd = true
    · rw [if_pos stop', if_pos stop']
      exact .ok safe₃ rfl
    rw [if_neg stop', if_neg stop']
    refine .kind ?_
    by_cases line : c₃.stream.kind = .sameLevel
    · rw [if_pos line, if_pos line]
      refine .skip (c := c₃.looked) safe₃.looked fun c₄ safe₄ skipped => ?_
      exact ih _ (hn ▸ Document.sections_shorter halts stop read stop' line skipped) d' safe₄ rfl
    · rw [if_neg line, if_neg line]
      exact .unexpected _ safe₃.looked

/-- What is read at a context token. -/
def contextAt (t : Token) (s : Stream) : Except ReadFault (Context × Stream) :=
  match t.payload with
  | .context c => .ok (c, s.advance)
  | _ => .ok ({}, s.advance)

theorem context_follows : FollowsAt K Walk.context Document.context := by
  refine .kind fun k _ => ?_
  split
  · next ctx =>
    subst ctx
    refine FollowsAt.congr (.look (g := contextAt) fun t => ?_) fun s hs => if_pos hs
    obtain ⟨kind, payload, span⟩ := t
    cases payload with
    | context c => exact .keyword (.pure c) (by decide)
    | none | level _ | text _ => exact .keyword (.pure ({} : Context)) (by decide)
  · next other => exact (unexpected_follows _).congr fun s hs => if_neg (hs ▸ other)

/-- Behind the scan for wrong dedents. -/
theorem document_agrees {c : Cursor} (safe : c.Safe) :
    Agrees (fun r _ => r) c (Walk.document c) (do
      let (context, s) ← Document.context c.stream
      let s ← s.skipSameLevel
      let d ← Document.sections context {} s
      return d.configuration) := by
  refine (context_follows (K := fun _ => True) c safe trivial).bind fun context c₁ safe₁ _ => ?_
  refine .skip safe₁ fun c₂ safe₂ _ => ?_
  exact (sections_agrees context {} safe₂).bind fun d c₃ safe₃ _ => .ok safe₃ rfl

namespace Walk

/-- The walk along the tokens comes to an end, and gives what the readers give. If there is an end
of input among the tokens, none behind the first one was looked at, and the tokens that were taken
are those up to some place before it, one after the other. -/
def Completes (tokens : List Token) : Prop :=
  ∃ r c, ofTokens tokens = some (r, c) ∧ Document.ofTokens tokens = r.mapError .error ∧
    ∀ n, firstEof? tokens = some n → (∀ i ∈ c.seen, i ≤ n) ∧ ∃ k ≤ n, c.taken = List.range k

theorem completes_of_agrees {tokens : List Token}
    {x : Option (Except ParseError Configuration × Cursor)} (walk : ofTokens tokens = x)
    (h : Agrees (fun r _ => r) { tokens } x (Document.ofTokens tokens)) : Completes tokens := by
  have before {c : Cursor} (safe : c.Safe) (same : c.tokens = tokens) (n : Nat)
      (hn : firstEof? tokens = some n) :
      (∀ i ∈ c.seen, i ≤ n) ∧ ∃ k ≤ n, c.taken = List.range k := by
    obtain ⟨position, seen, taken⟩ := safe.before n (same ▸ hn)
    exact ⟨seen, c.position, position, taken⟩
  rw [Completes, walk]
  generalize Document.ofTokens tokens = y at h
  cases h with
  | ok safe same => exact ⟨_, _, rfl, rfl, before safe same⟩
  | error safe same => exact ⟨_, _, rfl, rfl, before safe same⟩

end Walk

/-- What a text says comes to an end of input. -/
theorem Tokenizes.exists_eof {p : Position} {t : Tracker} {run : Option (List Char)}
    {cs : List Char} {ts : List Token} (h : Tokenizes p t run cs ts) : ∃ x ∈ ts, x.kind = .eof := by
  induction h with
  | finish => exact ⟨_, List.mem_append_right _ (List.mem_singleton_self _), rfl⟩
  | skip _ _ _ _ ih => exact ih
  | indent _ _ _ ih => exact ih
  | token _ _ _ _ ih =>
    obtain ⟨x, hx, eof⟩ := ih
    exact ⟨x, List.mem_append_right _ (List.mem_cons_of_mem _ hx), eof⟩

namespace Walk

/-- A list of tokens in which there is an end of input, or whose last token is no same-level token,
is walked to the end. What the lexer gives is such a list. -/
theorem ofTokens_completes :
    (∀ tokens : List Token,
      ((∃ t ∈ tokens, t.kind = .eof) ∨ ∀ t ∈ tokens.getLast?, t.kind ≠ .sameLevel) →
        Completes tokens) ∧
      ∀ threaded context source tokens,
        Document.tokenize threaded context source = .ok tokens →
          (∃ t ∈ tokens, t.kind = .eof) ∧ Completes tokens := by
  have completes (tokens : List Token)
      (h : (∃ t ∈ tokens, t.kind = .eof) ∨ ∀ t ∈ tokens.getLast?, t.kind ≠ .sameLevel) :
      Completes tokens := by
    have start : ({ tokens } : Cursor).Safe := Cursor.safe_start h
    refine completes_of_agrees rfl ?_
    rw [ofTokens, Document.ofTokens]
    cases tokens.find? (·.kind == .badIndent) with
    | some t => exact .error start rfl
    | none => exact document_agrees start
  refine ⟨completes, fun threaded context source tokens h => ?_⟩
  obtain ⟨ts, rfl, tokenized⟩ := Document.tokenize_eq_ok.mp h
  obtain ⟨x, hx, eof⟩ := tokenized.exists_eof
  have ends : ∃ t ∈ Token.opening context :: ts, t.kind = .eof :=
    ⟨x, List.mem_cons_of_mem _ hx, eof⟩
  exact ⟨ends, completes _ (.inl ends)⟩

/-- The tokens of a document up to the middle of a block, and all tokens of a document. -/
theorem ofTokens_completes_api :
    Completes (Document.apiTokens.take 40) ∧
      Document.tokenize false {} Document.apiText = .ok Document.apiTokens ∧
        firstEof? Document.apiTokens = some 63 ∧ Completes Document.apiTokens := by
  have last : ∀ t ∈ (Document.apiTokens.take 40).getLast?, t.kind ≠ .sameLevel := fun t ht => by
    obtain rfl := Option.some.inj ht
    decide
  have tokenized := Document.tokenize_api false
  exact ⟨ofTokens_completes.1 _ (.inr last), tokenized, rfl,
    (ofTokens_completes.2 _ _ _ _ tokenized).2⟩

end Walk

end ScrapeConfig
