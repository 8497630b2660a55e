import ScrapeConfig.Proofs.Document.Progress
import ScrapeConfig.Proofs.Document.Walk

/-!
# Walks follow readers

A walk knows nothing of what is left of its list, and a reader nothing of the tokens that it has
passed. On a list that is not waited on for ever the two come to the same end, as readers come to
an end there. What the walk has looked at and what it has taken is told by its place on the list.

Results:
1. `Cursor.Safe`: what holds of a cursor all the way. `Cursor.safe_start`: where it holds at first.
2. `Agrees`: a walk from a cursor comes to the end that a reader comes to.
3. `Follows`, `FollowsAt`: a walk agrees with a reader wherever it begins, with a lemma for each way
   of putting walks together.
4. `expect_follows` to `optionalBlock_follows`: tokens, texts and blocks.
-/

namespace ScrapeConfig

variable {α β γ σ : Type}

/-! ## Cursors -/

/-- The place of the first end-of-input token. -/
def firstEof? (tokens : List Token) : Option Nat := tokens.findIdx? (·.kind == .eof)

namespace Cursor

/-- What a reader sees from here. -/
def stream (c : Cursor) : Stream := ⟨c.tokens.drop c.position, (Stream.ofList c.tokens).last⟩

/-- Nothing behind the first end-of-input token has been looked at, and every token before the
current one has been taken, one after the other. -/
structure Before (c : Cursor) (n : Nat) : Prop where
  position : c.position ≤ n
  seen : ∀ i ∈ c.seen, i ≤ n
  taken : c.taken = List.range c.position

/-- The list is not waited on for ever, and its end of input is not passed. -/
structure Safe (c : Cursor) : Prop where
  ends : firstEof? c.tokens = none → (Stream.ofList c.tokens).last.kind ≠ .sameLevel
  before : ∀ n, firstEof? c.tokens = some n → c.Before n

theorem current_eq (c : Cursor) : c.current = c.stream.current := by
  rw [current, Stream.current, stream, Stream.ofList, List.head?_drop]
  cases c.tokens[c.position]? <;> rfl

theorem firstEof?_eq_some {tokens : List Token} {n : Nat} (h : firstEof? tokens = some n) :
    ∃ t, tokens[n]? = some t ∧ t.kind = .eof := by
  obtain ⟨length, eof, _⟩ := List.findIdx?_eq_some_iff_getElem.mp h
  exact ⟨tokens[n], List.getElem?_eq_getElem length, beq_iff_eq.mp eof⟩

theorem firstEof?_lt {tokens : List Token} {n : Nat} (h : firstEof? tokens = some n) :
    n < tokens.length :=
  (List.findIdx?_eq_some_iff_getElem.mp h).1

theorem Safe.ending {c : Cursor} (h : c.Safe) : c.stream.Ending := by
  intro waits
  cases heof : firstEof? c.tokens with
  | none => exact absurd waits (h.ends heof)
  | some n =>
    obtain ⟨t, ht, eof⟩ := firstEof?_eq_some heof
    refine ⟨t, ?_, eof⟩
    obtain ⟨k, rfl⟩ := Nat.exists_eq_add_of_le (h.before n heof).position
    rw [← List.getElem?_drop] at ht
    exact List.mem_of_getElem? ht

/-- The first cursor on a list. -/
theorem safe_start {tokens : List Token}
    (h : (∃ t ∈ tokens, t.kind = .eof) ∨ ∀ t ∈ tokens.getLast?, t.kind ≠ .sameLevel) :
    ({ tokens } : Cursor).Safe where
  ends none := by
    have noEof (t : Token) (ht : t ∈ tokens) : t.kind ≠ .eof := by
      simpa using List.findIdx?_eq_none_iff.mp none t ht
    rcases h with ⟨t, ht, eof⟩ | h
    · exact absurd eof (noEof t ht)
    · rw [Stream.ofList]
      dsimp only
      cases last : tokens.getLast? with
      | none => decide
      | some t => exact h t last
  before n _ := ⟨Nat.zero_le n, fun _ hi => absurd hi List.not_mem_nil, rfl⟩

end Cursor

/-! ## Agreement -/

open Walk (look kind atEnd advance compute)

/-- A walk from `c` comes to the end that a reader comes to, who gives a `view` of it. -/
inductive Agrees (view : α → Cursor → γ) (c : Cursor) :
    Option (Except ParseError α × Cursor) → Except ReadFault γ → Prop
  | ok {a : α} {c' : Cursor} : c'.Safe → c'.tokens = c.tokens →
      Agrees view c (some (.ok a, c')) (.ok (view a c'))
  | error {e : ParseError} {c' : Cursor} : c'.Safe → c'.tokens = c.tokens →
      Agrees view c (some (.error e, c')) (.error (.error e))

/-- What a reader gives: a value and the stream behind it. -/
abbrev behind (a : α) (c : Cursor) : α × Stream := (a, c.stream)

/-- The walk does what the reader does, wherever a token of one of the kinds `K` comes next. -/
def FollowsAt (K : TokenKind → Prop) (p : Walk α) (f : Stream → Except ReadFault (α × Stream)) :
    Prop :=
  ∀ c : Cursor, c.Safe → K c.stream.kind → Agrees behind c (p c) (f c.stream)

/-- The walk does what the reader does. -/
abbrev Follows (p : Walk α) (f : Stream → Except ReadFault (α × Stream)) : Prop :=
  FollowsAt (fun _ => True) p f

theorem run_bind (p : Walk α) (q : α → Walk β) (c : Cursor) :
    (p >>= q : Walk β) c = match p c with
      | none => none
      | some (.ok a, c') => q a c'
      | some (.error e, c') => some (.error e, c') := by
  show (p c >>= fun x => _) = _
  cases p c with
  | none => rfl
  | some x =>
    obtain ⟨_ | a, c'⟩ := x <;> rfl

theorem Agrees.from {view : α → Cursor → γ} {c c' : Cursor}
    {x : Option (Except ParseError α × Cursor)} {y : Except ReadFault γ} (h : Agrees view c' x y)
    (same : c'.tokens = c.tokens) : Agrees view c x y := by
  cases h with
  | ok safe same' => exact .ok safe (same'.trans same)
  | error safe same' => exact .error safe (same'.trans same)

variable {K : TokenKind → Prop} {p : Walk α} {f g : Stream → Except ReadFault (α × Stream)}

/-- What is done behind a walk that has come to its end. -/
theorem Agrees.bind {view : α → Cursor → σ} {view' : β → Cursor → γ} {c : Cursor} {q : α → Walk β}
    {y : Except ReadFault σ} {k : σ → Except ReadFault γ} (first : Agrees view c (p c) y)
    (hq : ∀ a c', c'.Safe → y = .ok (view a c') → Agrees view' c' (q a c') (k (view a c'))) :
    Agrees view' c ((p >>= q) c) (y >>= k) := by
  rw [run_bind]
  generalize p c = x at first
  cases first with
  | ok safe same => exact (hq _ _ safe rfl).from same
  | error safe same => exact .error safe same

namespace FollowsAt

theorem bind {q : α → Walk β} {k : α × Stream → Except ReadFault (β × Stream)}
    (hp : FollowsAt K p f) (hq : ∀ a, Follows (q a) (fun s => k (a, s))) :
    FollowsAt K (p >>= q) (fun s => f s >>= k) :=
  fun c safe hk => (hp c safe hk).bind fun a c' safe' _ => hq a c' safe' trivial

theorem congr (h : FollowsAt K p g) (same : ∀ s : Stream, K s.kind → f s = g s) :
    FollowsAt K p f := by
  intro c safe hk
  rw [same _ hk]
  exact h c safe hk

theorem pure (a : α) : FollowsAt K (Pure.pure a) (fun s => .ok (a, s)) :=
  fun _ safe _ => .ok safe rfl

theorem throw (e : ParseError) :
    FollowsAt K (MonadExcept.throw e : Walk α) (fun _ => .error (.error e)) :=
  fun _ safe _ => .error safe rfl

/-- What is made of a value that is read. -/
theorem map (hp : FollowsAt K p f) (g : α → β) : FollowsAt K (do let a ← p; return g a)
    (fun s => do let (a, s) ← f s; return (g a, s)) :=
  hp.bind fun a => .pure (g a)

/-- Computations that come to an end. -/
theorem compute {x : Except ReadFault α} (h : x ≠ .error .endless) :
    FollowsAt K (Walk.compute x) (fun s => do return (← x, s)) := by
  match x with
  | .ok a => exact pure a
  | .error (.error e) => exact throw e
  | .error .endless => exact absurd rfl h

theorem compute_bind {x : Except ReadFault α} {q : α → Walk β}
    {k : α → Stream → Except ReadFault (β × Stream)} (h : x ≠ .error .endless)
    (hq : ∀ a, Follows (q a) (k a)) :
    FollowsAt K (Walk.compute x >>= q) (fun s => do let a ← x; k a s) := by
  refine ((compute h).bind (k := fun x => k x.1 x.2) hq).congr fun s _ => ?_
  rw [bind_assoc]
  rfl

end FollowsAt

/-! ## Steps -/

namespace Cursor

/-- The cursor once the current token has been looked at. -/
def looked (c : Cursor) : Cursor := { c with seen := c.seen ++ [c.place] }

theorem Safe.looked {c : Cursor} (h : c.Safe) : c.looked.Safe where
  ends := h.ends
  before n hn := by
    obtain ⟨position, seen, taken⟩ := h.before n hn
    refine ⟨position, List.forall_mem_append.mpr ⟨seen, List.forall_mem_singleton.mpr ?_⟩, taken⟩
    exact (Nat.min_le_left _ _).trans position

/-- The cursor once the current token has been taken at the end. -/
def touched (c : Cursor) : Cursor := { c with taken := c.taken ++ [c.place] }

/-- The cursor behind the current token. -/
def moved (c : Cursor) : Cursor := { c.touched with position := c.position + 1 }

theorem lt_of_eof {c : Cursor} {n : Nat} (h : c.Before n) (hn : firstEof? c.tokens = some n)
    (notEof : c.stream.kind ≠ .eof) : c.position < n := by
  refine Nat.lt_of_le_of_ne h.position fun heq => notEof ?_
  obtain ⟨t, ht, eof⟩ := firstEof?_eq_some hn
  rw [Stream.kind, ← c.current_eq, current, heq, ht]
  exact eof

theorem Safe.moved {c : Cursor} (h : c.Safe) (notEof : c.stream.kind ≠ .eof) : c.moved.Safe where
  ends := h.ends
  before n hn := by
    have before := h.before n hn
    have lt := lt_of_eof before hn notEof
    have length : n < c.tokens.length := firstEof?_lt hn
    have place : c.place = c.position := Nat.min_eq_left (by omega)
    refine ⟨lt, before.seen, ?_⟩
    show c.taken ++ [c.place] = List.range (c.position + 1)
    rw [before.taken, place, List.range_succ]

/-- Behind the last token there is no end of input to come. -/
theorem Safe.touched {c : Cursor} (h : c.Safe) (behind : c.tokens.length ≤ c.position) :
    c.touched.Safe where
  ends := h.ends
  before n hn := by
    have length : n < c.tokens.length := firstEof?_lt hn
    have position := (h.before n hn).position
    omega

end Cursor

theorem run_atEnd (c : Cursor) : atEnd c =
    some (.ok c.stream.atEnd, if c.tokens.length ≤ c.position then c else c.looked) := by
  show (if c.tokens.length ≤ c.position then Pure.pure true else _ : Walk Bool) c = _
  by_cases behind : c.tokens.length ≤ c.position
  · have nothing : c.stream.rest = [] := List.drop_eq_nil_iff.mpr behind
    rw [if_pos behind, if_pos behind, Stream.atEnd, nothing]
    rfl
  · have some : c.stream.rest.isEmpty = false :=
      List.isEmpty_eq_false_iff.mpr (mt List.drop_eq_nil_iff.mp behind)
    rw [if_neg behind, if_neg behind, Stream.atEnd, some, Stream.kind, ← c.current_eq]
    rfl

theorem advance_safe {c : Cursor} (safe : c.Safe) (notEof : c.stream.kind ≠ .eof) :
    ∃ c', advance c = some (.ok (), c') ∧ c'.Safe ∧ c'.tokens = c.tokens ∧
      c'.stream = c.stream.advance := by
  have run : advance c = (atEnd >>= fun stop => if stop then Pure.pure () else
      modify fun c => { c with position := c.position + 1 } : Walk Unit) c.touched := rfl
  rw [run, run_bind, run_atEnd]
  show ∃ c', (ite (c.stream.atEnd = true) _ _ : Walk Unit)
    (ite (c.tokens.length ≤ c.position) _ _) = _ ∧ _
  by_cases behind : c.tokens.length ≤ c.position
  · have nothing : c.stream.rest = [] := List.drop_eq_nil_iff.mpr behind
    have stop : c.stream.atEnd = true := by rw [Stream.atEnd, nothing]; rfl
    rw [if_pos stop, if_pos behind, Stream.advance_of_nil nothing]
    exact ⟨_, rfl, safe.touched behind, rfl, rfl⟩
  · have further : ¬ c.stream.atEnd = true := by
      rw [Stream.atEnd, beq_eq_false_iff_ne.mpr notEof, Bool.or_false, List.isEmpty_iff]
      exact mt List.drop_eq_nil_iff.mp behind
    rw [if_neg further, if_neg behind, Stream.advance, if_neg further]
    refine ⟨_, rfl, safe.looked.moved notEof, rfl, ?_⟩
    show (⟨_, _⟩ : Stream) = ⟨(c.tokens.drop c.position).tail, _⟩
    rw [List.tail_drop]
    rfl

/-- A look at the current token. -/
theorem FollowsAt.look {q : Token → Walk α} {g : Token → Stream → Except ReadFault (α × Stream)}
    (h : ∀ t, FollowsAt K (q t) (g t)) :
    FollowsAt K (Walk.look >>= q) (fun s => g s.current s) := by
  intro c safe hk
  have run : (Walk.look >>= q) c = q c.stream.current c.looked := by
    rw [← c.current_eq]
    rfl
  rw [run]
  exact (h _ c.looked safe.looked hk).from rfl

theorem run_kind (q : TokenKind → Walk α) (c : Cursor) :
    (Walk.kind >>= q) c = q c.stream.kind c.looked := by
  rw [Stream.kind, ← c.current_eq]
  rfl

/-- A choice by the kind of the current token. -/
theorem FollowsAt.kind {q : TokenKind → Walk α} (h : ∀ k, K k → FollowsAt (· = k) (q k) f) :
    FollowsAt K (Walk.kind >>= q) f := by
  intro c safe hk
  rw [run_kind]
  exact (h _ hk c.looked safe.looked rfl).from rfl

theorem Agrees.unexpected {view : α → Cursor → γ} {c : Cursor} (expected : String) (safe : c.Safe) :
    Agrees view c (Walk.unexpected expected c) (.error (c.stream.unexpected expected)) := by
  have run : (Walk.unexpected expected : Walk α) c = some (.error (.atSpan
      (.unexpectedToken expected c.stream.current.display) c.stream.current.span), c.looked) := by
    rw [← c.current_eq]
    rfl
  rw [run]
  exact .error safe.looked rfl

theorem unexpected_follows (expected : String) :
    FollowsAt K (Walk.unexpected expected : Walk α) (fun s => .error (s.unexpected expected)) :=
  fun _ safe _ => .unexpected expected safe

theorem FollowsAt.advance {p : Walk α} (hp : Follows p f) (notEof : ∀ k, K k → k ≠ .eof) :
    FollowsAt K (do Walk.advance; p) (fun s => f s.advance) := by
  intro c safe hk
  obtain ⟨c', run, safe', same, stream⟩ := advance_safe safe (notEof _ hk)
  rw [run_bind, run]
  show Agrees behind c (p c') (f c.stream.advance)
  rw [← stream]
  exact (hp c' safe' trivial).from same

/-- What is done behind a keyword that was looked at before. -/
theorem FollowsAt.keyword {k : TokenKind} {p : Walk α} (hp : Follows p f) (hk : k ≠ .eof) :
    FollowsAt (· = k) (do Walk.advance; p) (fun s => f s.advance) :=
  .advance hp fun _ same => same ▸ hk

/-- Takes a token of a kind that was looked at before. -/
theorem FollowsAt.take {value : Token → α} (notEof : ∀ k, K k → k ≠ .eof) :
    FollowsAt K (do let t ← Walk.look; Walk.advance; return value t)
      (fun s => .ok (value s.current, s.advance)) :=
  .look (g := fun t s => .ok (value t, s.advance)) fun t => .advance (.pure (value t)) notEof

theorem expect_follows {k : TokenKind} (hk : k ≠ .eof) :
    FollowsAt K (Walk.expect k) (·.expect k) := by
  refine .kind fun kd _ => ?_
  split
  · next heq =>
    refine (FollowsAt.take (K := (· = kd)) (by rintro _ rfl; exact heq ▸ hk)).congr fun s hs => ?_
    exact if_pos (hs.trans heq)
  · next heq =>
    exact (unexpected_follows _).congr fun s hs => if_neg (hs ▸ heq)

theorem expectText_follows (what : String) :
    FollowsAt K (Walk.expectText what) (·.expectText what) := by
  refine .kind fun kd _ => ?_
  split
  · next name =>
    have notEof : kd ≠ .eof := by rcases name with rfl | rfl <;> decide
    refine (FollowsAt.take (K := (· = kd)) (by rintro _ rfl; exact notEof)).congr fun s hs => ?_
    exact if_pos (hs ▸ name)
  · next other =>
    exact (unexpected_follows _).congr fun s hs => if_neg (hs ▸ other)

/-! ## Loops -/

theorem rest_ne_nil {c : Cursor} (safe : c.Safe) (same : c.stream.kind = .sameLevel) :
    c.stream.rest ≠ [] := by
  intro none
  obtain ⟨_, hx, _⟩ := safe.ending (Stream.kind_of_nil none ▸ same)
  rw [none] at hx
  exact absurd hx List.not_mem_nil

theorem skipSameLevel_of_kind {s : Stream} (other : s.kind ≠ .sameLevel) :
    s.skipSameLevel = .ok s := by
  obtain ⟨rest, last⟩ := s
  cases rest with
  | nil =>
    have last : (last.kind == .sameLevel) = false := beq_eq_false_iff_ne.mpr other
    simp [Stream.skipSameLevel, last]
  | cons t rest =>
    have head : (t.kind == .sameLevel) = false := beq_eq_false_iff_ne.mpr other
    simp [Stream.skipSameLevel, head]

theorem skipSameLevel_advance {s : Stream} (same : s.kind = .sameLevel) (some : s.rest ≠ []) :
    s.skipSameLevel = s.advance.skipSameLevel := by
  obtain ⟨rest, last⟩ := s
  obtain ⟨t, rest, rfl⟩ := List.exists_cons_of_ne_nil some
  have head : t.kind = .sameLevel := same
  have next : Stream.advance ⟨t :: rest, last⟩ = ⟨rest, last⟩ :=
    Stream.advance_cons (by rw [head]; decide)
  rw [next, Stream.skipSameLevel, Stream.skipSameLevel]
  dsimp only
  rw [List.dropWhile_cons_of_pos (by simp [head])]

/-- What is done behind a token that is taken. -/
theorem run_advance_bind {c : Cursor} (safe : c.Safe) (notEof : c.stream.kind ≠ .eof) (q : Walk β) :
    ∃ c', (do advance; q : Walk β) c = q c' ∧ c'.Safe ∧ c'.tokens = c.tokens ∧
      c'.stream = c.stream.advance := by
  obtain ⟨c', run, rest⟩ := advance_safe safe notEof
  refine ⟨c', ?_, rest⟩
  rw [run_bind, run]

/-- By induction on what is left of the list. -/
theorem skipSameLevel_agrees {c : Cursor} (safe : c.Safe) :
    Agrees behind c (Walk.skipSameLevel c) (do let s ← c.stream.skipSameLevel; return ((), s)) := by
  induction hn : c.stream.rest.length using Nat.strongRecOn generalizing c with
  | ind n ih =>
    rw [Walk.skipSameLevel_eq, run_kind]
    by_cases same : c.stream.kind = .sameLevel
    · have some := rest_ne_nil safe same
      have notEof : c.stream.kind ≠ .eof := by simp [same]
      obtain ⟨c', run, safe', tokens, stream⟩ :=
        run_advance_bind safe.looked notEof Walk.skipSameLevel
      have stream : c'.stream = c.stream.advance := stream
      rw [if_pos same, run, skipSameLevel_advance same some, ← stream]
      refine (ih _ ?_ safe' rfl).from tokens
      rw [← hn, stream]
      exact (Stream.movesTo_advance notEof).shorter some
    · rw [if_neg same, skipSameLevel_of_kind same]
      exact .ok safe.looked rfl

/-- The reader puts the texts that it reads behind those that are there. -/
def moreTextsBehind (what : String) (texts : List String) (s : Stream) :
    Except ReadFault (List String × Stream) := do
  let (more, s) ← s.moreTexts what
  return (texts ++ more, s)

theorem moreTextsBehind_comma {what : String} (texts : List String) {s : Stream}
    (comma : s.kind = .comma) : moreTextsBehind what texts s = (do
      let (text, s) ← s.advance.expectText what
      moreTextsBehind what (texts ++ [text]) s) := by
  rw [moreTextsBehind, Stream.moreTexts_comma comma]
  simp only [moreTextsBehind, bind_assoc, pure_bind, List.append_assoc, List.singleton_append]

/-- By induction on what is left of the list. -/
theorem moreTexts_agrees (what : String) (texts : List String) {c : Cursor} (safe : c.Safe) :
    Agrees behind c (Walk.moreTexts what texts c) (moreTextsBehind what texts c.stream) := by
  induction hn : c.stream.rest.length using Nat.strongRecOn generalizing texts c with
  | ind n ih =>
    rw [Walk.moreTexts_eq, run_kind]
    by_cases comma : c.stream.kind = .comma
    · have notEof : c.stream.kind ≠ .eof := by simp [comma]
      obtain ⟨c', run, safe', tokens, stream⟩ := run_advance_bind safe.looked notEof (do
        let text ← Walk.expectText what
        Walk.moreTexts what (texts ++ [text]))
      have stream : c'.stream = c.stream.advance := stream
      have first : Agrees behind c' (Walk.expectText what c') (c.stream.advance.expectText what) :=
        stream ▸ expectText_follows (K := fun _ => True) what c' safe' trivial
      rw [if_pos comma, run, moreTextsBehind_comma texts comma]
      refine Agrees.from (first.bind fun text c₂ safe₂ read => ?_) tokens
      exact ih _ (hn ▸ Stream.shorter_of_comma comma read) (texts ++ [text]) safe₂ rfl
    · rw [if_neg comma, moreTextsBehind, Stream.moreTexts, if_neg comma]
      show Agrees behind c _ (.ok (texts ++ [], c.stream))
      rw [List.append_nil]
      exact .ok safe.looked rfl

theorem expectTexts_follows (what : String) :
    FollowsAt K (Walk.expectTexts what) (·.expectTexts what) :=
  (expectText_follows what).bind fun text _ safe _ => moreTexts_agrees what [text] safe

/-- What is done behind same-level tokens. -/
theorem Agrees.skip {view : α → Cursor → γ} {c : Cursor} {q : Walk α}
    {k : Stream → Except ReadFault γ} (safe : c.Safe)
    (hq : ∀ c', c'.Safe → c.stream.skipSameLevel = .ok c'.stream →
      Agrees view c' (q c') (k c'.stream)) :
    Agrees view c ((do Walk.skipSameLevel; q : Walk α) c) (c.stream.skipSameLevel >>= k) := by
  have first := skipSameLevel_agrees safe
  have joined : Agrees view c ((Walk.skipSameLevel >>= fun _ => q) c) _ :=
    first.bind (k := fun x => k x.2) fun _ c' safe' read => ?_
  · rwa [bind_assoc] at joined
  · refine hq c' safe' ?_
    cases skipped : c.stream.skipSameLevel with
    | error e =>
      rw [skipped] at read
      cases read
    | ok t =>
      rw [skipped] at read
      exact congrArg Except.ok (Prod.mk.inj (Except.ok.inj read)).2

theorem Agrees.atEnd {view : α → Cursor → γ} {c : Cursor} {q : Bool → Walk α}
    {y : Except ReadFault γ} (safe : c.Safe)
    (h : ∀ c' : Cursor, c'.Safe → c'.stream = c.stream →
      Agrees view c' (q c.stream.atEnd c') y) :
    Agrees view c ((Walk.atEnd >>= q) c) y := by
  rw [run_bind, run_atEnd]
  by_cases behind : c.tokens.length ≤ c.position
  · rw [if_pos behind]
    exact h c safe rfl
  · rw [if_neg behind]
    exact (h c.looked safe.looked rfl).from rfl

theorem Agrees.kind {view : α → Cursor → γ} {c : Cursor} {q : TokenKind → Walk α}
    {y : Except ReadFault γ} (h : Agrees view c.looked (q c.stream.kind c.looked) y) :
    Agrees view c ((Walk.kind >>= q) c) y := by
  rw [run_kind]
  exact h.from rfl

section

variable {item : σ → Walk σ} {item' : σ → Stream → Except ReadFault (σ × Stream)}

/-- By induction on what is left of the list. The readers of blocks go round as long as tokens are
taken, and they come to an end, so a line always takes one. -/
theorem blockLines_agrees (hitem : ∀ a, Follows (item a) (item' a))
    (proceeds : ∀ a, Proceeds (item' a)) (a : σ) {c : Cursor} (safe : c.Safe) :
    Agrees behind c (Walk.blockLines item a c) (Stream.blockLines item' a c.stream) := by
  induction hn : c.stream.rest.length using Nat.strongRecOn generalizing a c with
  | ind n ih =>
    have halts := (Stream.blockLines_lingers proceeds a safe.ending).ne_endless
    rw [Walk.blockLines_eq, Stream.blockLines_eq halts]
    refine .skip safe fun c₁ safe₁ skipped => .kind ?_
    by_cases close : c₁.stream.kind = .blockClose
    · rw [if_pos close, if_pos close]
      exact (FollowsAt.pure a).keyword (by decide) _ safe₁.looked close
    rw [if_neg close, if_neg close]
    by_cases eof : c₁.stream.kind = .eof
    · rw [if_pos eof, if_pos eof]
      exact .unexpected _ safe₁.looked
    rw [if_neg eof, if_neg eof]
    refine (hitem a _ safe₁.looked trivial).bind fun b c₂ safe₂ read => .kind ?_
    dsimp only
    by_cases ends : c₂.stream.kind = .sameLevel ∨ c₂.stream.kind = .blockClose
    · have shorter := Stream.blockLines_shorter halts skipped close eof read ends
      rw [if_pos ends, if_pos ends]
      exact ih _ (hn ▸ shorter) b safe₂.looked rfl
    · rw [if_neg ends, if_neg ends]
      exact .unexpected _ safe₂.looked

theorem block_follows (hitem : ∀ a, Follows (item a) (item' a)) (proceeds : ∀ a, Proceeds (item' a))
    (a : σ) : FollowsAt K (Walk.block item a) (Stream.block item' a) :=
  (expect_follows (k := .blockOpen) (by decide)).bind fun _ _ safe _ =>
    blockLines_agrees hitem proceeds a safe

theorem optionalBlock_follows (hitem : ∀ a, Follows (item a) (item' a))
    (proceeds : ∀ a, Proceeds (item' a)) (a : σ) :
    FollowsAt K (Walk.optionalBlock item a) (Stream.optionalBlock item' a) := by
  refine .kind fun k _ => ?_
  split
  · next opened =>
    exact (block_follows hitem proceeds a).congr fun s hs => if_pos (hs.trans opened)
  · next closed => exact (FollowsAt.pure a).congr fun s hs => if_neg (hs ▸ closed)

end

end ScrapeConfig
