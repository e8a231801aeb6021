import SchemaMerge.Token.Basic

/-!
# Parsers of token lists

A parser reads tokens from the front of a feed and gives a value and the feed that is left, or the
diagnostic that explains why it cannot. The first failure is final. No parser gives back more tokens
than it was given; this is part of the type, so that `loop`, which takes at least one token in each
round, ends on every feed.

Beside the tokens a feed knows where the last token ended, which decides whether a comment trails
what stands before it, and it holds the comments that were read too early and describe the next
definition.

A token that is wanted is taken by `expect` (`expect_name`, `expect_literal`), and one that may be
there by `takeIf` (`consume_if`). What was found in its place is reported by `unexpected`, and in
braces by `unexpectedInBraces`.

## Results

* `bind_run`, `pure_run`: what a sequence of parsers does to a feed.
* `expect_length_lt`: a parser that expects a token takes it.
* `loop_eq`: one round of a loop.
-/

namespace SchemaMerge

/-! ## Feeds -/

/-- The tokens that are still to be read. -/
structure Feed where
  /-- The file that the tokens come from. -/
  file : String
  tokens : List Token
  /-- Where the last token that was read ended. -/
  lastEnd : Option Position
  /-- Comments that describe the next definition. -/
  carried : List String
deriving DecidableEq, Inhabited

namespace Feed

/-- The feed of all tokens of a file. -/
def ofTokens (file : String) (tokens : List Token) : Feed := ⟨file, tokens, none, []⟩

/-- The next token. -/
def next? (feed : Feed) : Option Token := feed.tokens.head?

/-- Whether the next token is of the given kind. -/
def nextIs (feed : Feed) (kind : TokenKind) : Bool :=
  match feed.next? with
  | some token => token.kind = kind
  | none => false

/-- The feed behind the next token. -/
def advance (feed : Feed) : Feed :=
  match feed.tokens with
  | [] => feed
  | token :: tokens => { feed with tokens, lastEnd := some token.span.stop }

/-- The empty span behind the last token that was read. -/
def endSpan (feed : Feed) : Span :=
  let position := feed.lastEnd.getD .origin
  ⟨feed.file, position, position⟩

/-- The comment that comes next, if it starts on the line on which the last token ended. -/
def trailing? (feed : Feed) : Option String :=
  match feed.next?, feed.lastEnd with
  | some ⟨.comment text, span⟩, some stop => if span.start.line = stop.line then some text else none
  | _, _ => none

/-- No reading makes a feed longer, so every loop ends. -/
theorem length_advance_le (feed : Feed) : feed.advance.tokens.length ≤ feed.tokens.length := by
  unfold advance
  split <;> simp_all

end Feed

/-! ## Failures -/

/-- What was wanted, in words. -/
def expectedText : List String → String
  | [only] => only
  | expected => "one of " ++ String.intercalate ", " expected

/-- The text ends at a span where something was wanted. -/
def Diagnostic.unexpectedEnd (expected : List String) (span : Span) : Diagnostic :=
  .plain (.syntactic (.unexpectedEnd expected))
    ("expected " ++ expectedText expected ++ ", found end of input") span

/-- A token stands where something else was wanted. A fault token explains itself. -/
def Diagnostic.unexpectedToken (expected : List String) (token : Token) : Diagnostic :=
  match token.kind with
  | .fault cause message notes => ⟨.lexical cause, message, token.span, none, notes⟩
  | .endOfText => .unexpectedEnd expected token.span
  | kind =>
    .plain (.syntactic (.unexpectedToken expected kind.text))
      ("expected " ++ expectedText expected ++ ", found `" ++ kind.text ++ "`") token.span

/-- The next token is not what was wanted. -/
def Feed.unexpected (feed : Feed) (expected : List String) : Diagnostic :=
  match feed.next? with
  | some token => .unexpectedToken expected token
  | none => .unexpectedEnd expected feed.endSpan

/-- The next token is not what was wanted between braces. If the text ends there, a note points at
the brace that is still open. -/
def Feed.unexpectedInBraces (feed : Feed) (expected : List String) (opening : Span) : Diagnostic :=
  let diagnostic := feed.unexpected expected
  match diagnostic.cause with
  | .syntactic (.unexpectedEnd _) =>
    { diagnostic with notes := [.about "`\x7b` opened here" opening] }
  | _ => diagnostic

/-! ## Parsers -/

/-- A reader of tokens that never gives back more than it was given. -/
structure Parser (α : Type) where
  run : Feed → Except Diagnostic (α × Feed)
  length_le : ∀ {feed rest : Feed} {a : α},
    run feed = .ok (a, rest) → rest.tokens.length ≤ feed.tokens.length

namespace Parser

variable {α β σ τ : Type}

@[ext] theorem ext {p q : Parser α} (h : ∀ feed, p.run feed = q.run feed) : p = q := by
  cases p
  cases q
  congr
  exact funext h

/-- The parser that takes nothing. -/
protected def pure (a : α) : Parser α where
  run feed := .ok (a, feed)
  length_le h := by
    simp only [Except.ok.injEq, Prod.mk.injEq] at h
    exact h.2 ▸ Nat.le_refl _

/-- One parser, and then the one it chooses. -/
protected def bind (p : Parser α) (f : α → Parser β) : Parser β where
  run feed :=
    match p.run feed with
    | .ok (a, rest) => (f a).run rest
    | .error e => .error e
  length_le h := by
    split at h
    · next hp => exact Nat.le_trans ((f _).length_le h) (p.length_le hp)
    · simp at h

instance : Monad Parser where
  pure := Parser.pure
  bind := Parser.bind

@[simp] theorem pure_run (a : α) (feed : Feed) : (pure a : Parser α).run feed = .ok (a, feed) := rfl

@[simp] theorem bind_run (p : Parser α) (f : α → Parser β) (feed : Feed) :
    (p >>= f).run feed =
      match p.run feed with
      | .ok (a, rest) => (f a).run rest
      | .error e => .error e := rfl

/-- The parser that fails. -/
def fail (diagnostic : Diagnostic) : Parser α where
  run _ := .error diagnostic
  length_le h := by simp at h

/-- The feed as it stands. -/
def feed : Parser Feed where
  run feed := .ok (feed, feed)
  length_le h := by
    simp only [Except.ok.injEq, Prod.mk.injEq] at h
    exact h.2 ▸ Nat.le_refl _

/-- Takes the next token, whatever it is. -/
def advance : Parser Unit where
  run feed := .ok ((), feed.advance)
  length_le {feed rest _} h := by
    simp only [Except.ok.injEq, Prod.mk.injEq] at h
    exact h.2 ▸ feed.length_advance_le

/-- Replaces the comments that describe the next definition, and gives the old ones. -/
def swapCarried (comments : List String) : Parser (List String) where
  run feed := .ok (feed.carried, { feed with carried := comments })
  length_le h := by
    simp only [Except.ok.injEq, Prod.mk.injEq] at h
    exact h.2 ▸ Nat.le_refl _

@[simp] theorem fail_run (diagnostic : Diagnostic) (feed : Feed) :
    (fail diagnostic : Parser α).run feed = .error diagnostic := rfl

@[simp] theorem feed_run (feed : Feed) : Parser.feed.run feed = .ok (feed, feed) := rfl

@[simp] theorem advance_run (feed : Feed) : advance.run feed = .ok ((), feed.advance) := rfl

@[simp] theorem swapCarried_run (comments : List String) (feed : Feed) :
    (swapCarried comments).run feed = .ok (feed.carried, { feed with carried := comments }) := rfl

/-! ## Runs of tokens -/

/-- The longest run of tokens that `f` reads, and the feed behind it. -/
def splitRun (f : TokenKind → Option α) (feed : Feed) : List Token → List α × Feed
  | [] => ([], { feed with tokens := [] })
  | token :: tokens =>
    match f token.kind with
    | some a =>
      let (as, rest) := splitRun f { feed with lastEnd := some token.span.stop } tokens
      (a :: as, rest)
    | none => ([], { feed with tokens := token :: tokens })

theorem length_splitRun_le (f : TokenKind → Option α) (feed : Feed) (tokens : List Token) :
    (splitRun f feed tokens).2.tokens.length ≤ tokens.length := by
  induction tokens generalizing feed with
  | nil => simp [splitRun]
  | cons token tokens ih =>
    unfold splitRun
    split
    · exact Nat.le_succ_of_le (ih _)
    · simp

/-- Takes tokens as long as `f` reads them. -/
def takeRun (f : TokenKind → Option α) : Parser (List α) where
  run feed := .ok (splitRun f feed feed.tokens)
  length_le {feed rest as} h := by
    have h : (splitRun f feed feed.tokens).2 = rest := congrArg Prod.snd (Except.ok.inj h)
    exact h ▸ length_splitRun_le f feed feed.tokens

@[simp] theorem takeRun_run (f : TokenKind → Option α) (feed : Feed) :
    (takeRun f).run feed = .ok (splitRun f feed feed.tokens) := rfl

/-! ## Single tokens -/

/-- A kind of token that is wanted, and what to call it if something else stands there. -/
structure Want (α : Type) where
  read : Token → Option α
  expected : List String

namespace Want

/-- A mark. -/
def mark (mark : Punctuator) : Want Span where
  read token := if token.kind = .punctuator mark then some token.span else none
  expected := ["`" ++ mark.text ++ "`"]

/-- A keyword. -/
def keyword (word : Keyword) : Want Span where
  read token := if token.kind = .keyword word then some token.span else none
  expected := ["`" ++ word.text ++ "`"]

/-- A name, keywords included, that stands for `what`. -/
def name (what : String) : Want (String × Span) where
  read token := token.kind.name?.map fun name => (name, token.span)
  expected := [what]

/-- A literal. -/
def literal : Want String where
  read token := token.kind.literal?
  expected := ["value"]

end Want

/-- Takes the wanted token. -/
def expect (want : Want α) : Parser α where
  run feed :=
    match feed.next?.bind want.read with
    | some a => .ok (a, feed.advance)
    | none => .error (feed.unexpected want.expected)
  length_le {feed rest a} h := by
    split at h
    · simp only [Except.ok.injEq, Prod.mk.injEq] at h
      exact h.2 ▸ feed.length_advance_le
    · simp at h

@[simp] theorem expect_run (want : Want α) (feed : Feed) :
    (expect want).run feed =
      match feed.next?.bind want.read with
      | some a => .ok (a, feed.advance)
      | none => .error (feed.unexpected want.expected) := rfl

/-- A token that is expected and found is taken: the feed gets shorter, which is why loops end. -/
theorem expect_length_lt {want : Want α} {feed rest : Feed} {a : α}
    (h : (expect want).run feed = .ok (a, rest)) : rest.tokens.length < feed.tokens.length := by
  rw [expect_run] at h
  split at h
  · next ha =>
    simp only [Except.ok.injEq, Prod.mk.injEq] at h
    obtain ⟨-, rfl⟩ := h
    cases ht : feed.tokens with
    | nil => simp [Feed.next?, ht] at ha
    | cons => simp [Feed.advance, ht]
  · simp at h

/-- Whether the next token is of the given kind. -/
def nextIs (kind : TokenKind) : Parser Bool := do return (← feed).nextIs kind

/-- Takes the next token if it is of the given kind, and tells whether it was. -/
def takeIf (kind : TokenKind) : Parser Bool := do
  if ← nextIs kind then
    advance
    return true
  else return false

/-! ## Loops -/

section Loop

variable (turn : σ → Parser (α ⊕ τ)) (want : Want β) (body : τ → β → Parser σ)

/-- The rounds of a loop from a state and a feed. -/
def runLoop (state : σ) (feed : Feed) : Except Diagnostic (α × Feed) :=
  match _ : (turn state).run feed with
  | .error e => .error e
  | .ok (.inl result, rest₁) => .ok (result, rest₁)
  | .ok (.inr entry, rest₁) =>
    match _ : (expect want).run rest₁ with
    | .error e => .error e
    | .ok (b, rest₂) =>
      match _ : (body entry b).run rest₂ with
      | .error e => .error e
      | .ok (next, rest₃) => runLoop next rest₃
termination_by feed.tokens.length
decreasing_by
  have h₁ := (turn state).length_le ‹_›
  have h₂ := expect_length_lt ‹(expect want).run rest₁ = _›
  have h₃ := (body entry b).length_le ‹_›
  omega

/-- A loop leaves no more tokens than it finds. -/
theorem length_runLoop_le {state : σ} {feed rest : Feed} {result : α}
    (h : runLoop turn want body state feed = .ok (result, rest)) :
    rest.tokens.length ≤ feed.tokens.length := by
  fun_induction runLoop turn want body state feed with
  | case1 => simp at h
  | case2 _ _ _ _ h₁ =>
    simp only [Except.ok.injEq, Prod.mk.injEq] at h
    exact h.2 ▸ (turn _).length_le h₁
  | case3 => simp at h
  | case4 => simp at h
  | case5 _ _ _ _ h₁ _ _ h₂ _ _ h₃ ih =>
    have h₁ := (turn _).length_le h₁
    have h₂ := expect_length_lt h₂
    have h₃ := (body _ _).length_le h₃
    have := ih h
    omega

/-- Reads entries. In each round `turn` either ends the loop with a result or goes on to an entry,
which starts with the wanted token and is read by `body`. -/
def loop (state : σ) : Parser α where
  run feed := runLoop turn want body state feed
  length_le h := length_runLoop_le turn want body h

/-- The equation of loops: a turn either ends the loop, or the wanted token and the body follow and
the loop goes on. -/
theorem loop_eq (state : σ) :
    loop turn want body state =
      turn state >>= fun
        | .inl result => pure result
        | .inr entry => expect want >>= fun b => body entry b >>= loop turn want body := by
  ext feed
  show runLoop turn want body state feed = _
  rw [runLoop]
  simp only [bind_run]
  split <;> rename_i h <;> simp only [h, pure_run, bind_run]
  split <;> rename_i h <;> simp only [h]
  split <;> rename_i h <;> simp only [h]
  rfl

end Loop

end Parser

end SchemaMerge
