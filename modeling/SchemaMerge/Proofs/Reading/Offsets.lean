import SchemaMerge.Proofs.Reading.Rules
import SchemaMerge.Proofs.Token.Breaks
import SchemaMerge.Reading.Document

/-!
# Reading without offsets

Of a position a parser looks at its line alone, to see whether a comment trails what stands before
it. So it reads from tokens without offsets what it reads from the tokens, or fails alike, with no
offsets in the values and diagnostics (`Mirrors`).

Here are the rules for the parsers that others are made of; the last is that a loop mirrors if its
rounds do (`mirrors_loop`).
-/

namespace SchemaMerge

/-! ## Nodes, diagnostics and feeds -/

/-- The field with no offsets in its span. -/
def Field.withoutOffsets (a : Field) : Field := { a with span := a.span.withoutOffsets }

/-- The block with no offsets in its span. -/
def SchemaBlock.withoutOffsets (a : SchemaBlock) : SchemaBlock :=
  { a with span := a.span.withoutOffsets }

/-- The definition with no offsets in its spans. -/
def DirectiveDefinition.withoutOffsets (a : DirectiveDefinition) : DirectiveDefinition :=
  { a with span := a.span.withoutOffsets }

@[inherit_doc DirectiveDefinition.withoutOffsets]
def ScalarDefinition.withoutOffsets (a : ScalarDefinition) : ScalarDefinition :=
  { a with span := a.span.withoutOffsets }

@[inherit_doc DirectiveDefinition.withoutOffsets]
def EnumDefinition.withoutOffsets (a : EnumDefinition) : EnumDefinition :=
  { a with span := a.span.withoutOffsets }

@[inherit_doc DirectiveDefinition.withoutOffsets]
def FieldsDefinition.withoutOffsets (a : FieldsDefinition) : FieldsDefinition :=
  { a with fields := a.fields.map Field.withoutOffsets, span := a.span.withoutOffsets }

@[inherit_doc DirectiveDefinition.withoutOffsets]
def UnionDefinition.withoutOffsets (a : UnionDefinition) : UnionDefinition :=
  { a with span := a.span.withoutOffsets }

@[inherit_doc DirectiveDefinition.withoutOffsets]
def TypeDefinition.withoutOffsets (a : TypeDefinition) : TypeDefinition :=
  { a with fields := a.fields.map Field.withoutOffsets, span := a.span.withoutOffsets }

/-- The document with no offsets in its spans. -/
def Document.withoutOffsets (d : Document) : Document where
  schemaBlocks := d.schemaBlocks.map SchemaBlock.withoutOffsets
  directiveDefinitions := d.directiveDefinitions.map DirectiveDefinition.withoutOffsets
  scalars := d.scalars.map ScalarDefinition.withoutOffsets
  enums := d.enums.map EnumDefinition.withoutOffsets
  interfaces := d.interfaces.map FieldsDefinition.withoutOffsets
  unions := d.unions.map UnionDefinition.withoutOffsets
  inputs := d.inputs.map FieldsDefinition.withoutOffsets
  types := d.types.map TypeDefinition.withoutOffsets

/-- The diagnostic with no offsets in its spans. -/
def Diagnostic.withoutOffsets (diagnostic : Diagnostic) : Diagnostic :=
  { diagnostic with
    span := diagnostic.span.withoutOffsets
    related := diagnostic.related.map Span.withoutOffsets
    notes := diagnostic.notes.map Note.withoutOffsets }

/-- The feed with no offsets in its tokens. -/
def Feed.withoutOffsets (feed : Feed) : Feed :=
  { feed with
    tokens := feed.tokens.map Token.withoutOffsets
    lastEnd := feed.lastEnd.map Position.withoutOffset }

/-- The outcome with no offsets in its diagnostic, and with its value changed by `f`. -/
def forgetOffsets {α β : Type} (f : α → β) : Except Diagnostic α → Except Diagnostic β
  | .ok a => .ok (f a)
  | .error e => .error e.withoutOffsets

/-! ## What a parser sees -/

/-- Only the reports of faults hold offsets, so the kind of a proper token is recognized without
them. -/
theorem TokenKind.withoutOffsets_eq_iff {kind wanted : TokenKind} (h : wanted.isProper = true) :
    kind.withoutOffsets = wanted ↔ kind = wanted := by
  cases kind with
  | fault =>
    constructor <;>
    · rintro rfl
      cases h
  | _ => rfl

@[simp] theorem TokenKind.name?_withoutOffsets (kind : TokenKind) :
    kind.withoutOffsets.name? = kind.name? := by cases kind <;> rfl

@[simp] theorem TokenKind.literal?_withoutOffsets (kind : TokenKind) :
    kind.withoutOffsets.literal? = kind.literal? := by cases kind <;> rfl

@[simp] theorem TokenKind.description?_withoutOffsets (kind : TokenKind) :
    kind.withoutOffsets.description? = kind.description? := by cases kind <;> rfl

@[simp] theorem TokenKind.comment?_withoutOffsets (kind : TokenKind) :
    kind.withoutOffsets.comment? = kind.comment? := by cases kind <;> rfl

namespace Feed

variable (feed : Feed)

@[simp] theorem next?_withoutOffsets :
    feed.withoutOffsets.next? = feed.next?.map Token.withoutOffsets := List.head?_map ..

/-- Looking at the kind of the next token, a parser does not see offsets. -/
theorem nextIs_withoutOffsets {kind : TokenKind} (h : kind.isProper = true) :
    feed.withoutOffsets.nextIs kind = feed.nextIs kind := by
  rw [nextIs, nextIs, next?_withoutOffsets]
  cases feed.next? with
  | none => rfl
  | some token => exact decide_eq_decide.2 (TokenKind.withoutOffsets_eq_iff h)

@[simp] theorem advance_withoutOffsets :
    feed.withoutOffsets.advance = feed.advance.withoutOffsets := by
  obtain ⟨file, tokens, lastEnd, carried⟩ := feed
  cases tokens <;> rfl

/-- The end that a failure is reported at, if no token is left, loses its offsets. -/
theorem endSpan_withoutOffsets : feed.withoutOffsets.endSpan = feed.endSpan.withoutOffsets := by
  obtain ⟨file, tokens, lastEnd, carried⟩ := feed
  cases lastEnd <;> rfl

/-- Whether a comment trails depends on lines only. -/
@[simp] theorem trailing?_withoutOffsets : feed.withoutOffsets.trailing? = feed.trailing? := by
  obtain ⟨file, tokens, lastEnd, carried⟩ := feed
  cases tokens with
  | nil => rfl
  | cons token tokens =>
    obtain ⟨kind, span⟩ := token
    cases lastEnd <;> cases kind <;> rfl

/-- A failure at the next token is the same failure with no offsets in its span. -/
theorem unexpected_withoutOffsets (expected : List String) :
    feed.withoutOffsets.unexpected expected = (feed.unexpected expected).withoutOffsets := by
  rw [unexpected, unexpected, next?_withoutOffsets, endSpan_withoutOffsets]
  cases feed.next? with
  | none => rfl
  | some token =>
    obtain ⟨kind, span⟩ := token
    cases kind <;> rfl

/-- The note on the opening brace loses its offsets as well. -/
theorem unexpectedInBraces_withoutOffsets (expected : List String) (opening : Span) :
    feed.withoutOffsets.unexpectedInBraces expected opening.withoutOffsets =
      (feed.unexpectedInBraces expected opening).withoutOffsets := by
  simp only [unexpectedInBraces, unexpected_withoutOffsets]
  generalize feed.unexpected expected = diagnostic
  obtain ⟨cause, message, span, related, notes⟩ := diagnostic
  rcases cause with _ | (_ | _ | _ | _ | _) | _ <;> rfl

end Feed

/-! ## Parsers -/

namespace Parser

variable {α β σ τ : Type}

/-- Without offsets `q` has the outcomes of `p`, with `f` of each value. -/
def Mirrors (p q : Parser α) (f : α → α) : Prop :=
  ∀ feed, q.run feed.withoutOffsets = forgetOffsets (Prod.map f Feed.withoutOffsets) (p.run feed)

variable {p q : Parser α} {f : α → α}

theorem mirrors_pure {a b : α} (h : b = f a) : Mirrors (pure a) (pure b) f := fun _ => h ▸ rfl

theorem mirrors_fail (diagnostic : Diagnostic) :
    Mirrors (fail diagnostic) (fail diagnostic.withoutOffsets) f := fun _ => rfl

theorem mirrors_feed : Mirrors Parser.feed Parser.feed Feed.withoutOffsets := fun _ => rfl

theorem mirrors_advance : Mirrors advance advance id := fun feed => by
  rw [advance_run, advance_run, feed.advance_withoutOffsets]
  rfl

theorem mirrors_swapCarried (comments : List String) :
    Mirrors (swapCarried comments) (swapCarried comments) id := fun _ => rfl

theorem mirrors_ite {b : Bool} {p' q' : Parser α} (htrue : Mirrors p q f)
    (hfalse : Mirrors p' q' f) : Mirrors (if b then p else p') (if b then q else q') f := by
  cases b with
  | true => exact htrue
  | false => exact hfalse

/-- Parsers that mirror each other can be continued by parsers that do, value by value. -/
theorem Mirrors.bind {next next' : α → Parser β} {g : β → β} (hp : Mirrors p q f)
    (hnext : ∀ a, Mirrors (next a) (next' (f a)) g) : Mirrors (p >>= next) (q >>= next') g := by
  intro feed
  rw [bind_run, bind_run, hp feed]
  cases p.run feed with
  | error e => rfl
  | ok read => exact hnext read.1 read.2

/-! ## Tokens -/

/-- What is wanted is seen in a token without its offsets. -/
def Want.Mirrors (want : Want β) (f : β → β) : Prop :=
  ∀ token : Token, want.read token.withoutOffsets = (want.read token).map f

theorem Want.mirrors_mark (mark : Punctuator) : (Want.mark mark).Mirrors Span.withoutOffsets := by
  intro token
  have hkind := @TokenKind.withoutOffsets_eq_iff token.kind (.punctuator mark) rfl
  simp only [Want.mark, Token.withoutOffsets, hkind]
  split <;> rfl

theorem Want.mirrors_keyword (word : Keyword) :
    (Want.keyword word).Mirrors Span.withoutOffsets := by
  intro token
  have hkind := @TokenKind.withoutOffsets_eq_iff token.kind (.keyword word) rfl
  simp only [Want.keyword, Token.withoutOffsets, hkind]
  split <;> rfl

theorem Want.mirrors_name (what : String) :
    (Want.name what).Mirrors (Prod.map id Span.withoutOffsets) := by
  intro token
  simp [Want.name, Token.withoutOffsets, Function.comp_def]

theorem Want.mirrors_literal : Want.literal.Mirrors id := by
  intro token
  simp [Want.literal, Token.withoutOffsets]

/-- To take a token is to mirror, if what is read of the token is. -/
theorem mirrors_expect {want : Want α} (h : want.Mirrors f) :
    Mirrors (expect want) (expect want) f := by
  intro feed
  have hread : feed.withoutOffsets.next?.bind want.read = (feed.next?.bind want.read).map f := by
    rw [feed.next?_withoutOffsets]
    cases feed.next? with
    | none => rfl
    | some token => exact h token
  rw [expect_run, expect_run, hread, feed.unexpected_withoutOffsets, feed.advance_withoutOffsets]
  cases feed.next?.bind want.read <;> rfl

theorem mirrors_nextIs {kind : TokenKind} (h : kind.isProper = true) :
    Mirrors (nextIs kind) (nextIs kind) id :=
  mirrors_feed.bind fun feed => mirrors_pure (feed.nextIs_withoutOffsets h)

theorem mirrors_takeIf {kind : TokenKind} (h : kind.isProper = true) :
    Mirrors (takeIf kind) (takeIf kind) id :=
  (mirrors_nextIs h).bind fun _ => mirrors_ite
    (mirrors_advance.bind fun _ => mirrors_pure rfl) (mirrors_pure rfl)

/-- A run of tokens ends at the same token, since what is read of a token is not its place. -/
theorem splitRun_withoutOffsets {r : TokenKind → Option α}
    (hr : ∀ kind, r kind.withoutOffsets = r kind) (feed : Feed) (tokens : List Token) :
    splitRun r feed.withoutOffsets (tokens.map Token.withoutOffsets) =
      Prod.map id Feed.withoutOffsets (splitRun r feed tokens) := by
  induction tokens generalizing feed with
  | nil => rfl
  | cons token tokens ih =>
    have hkind : r token.withoutOffsets.kind = r token.kind := hr token.kind
    rw [List.map_cons, splitRun, splitRun, hkind]
    cases r token.kind with
    | none => rfl
    | some a =>
      have hrest := ih { feed with lastEnd := some token.span.stop }
      exact congrArg (fun split => (a :: split.1, split.2)) hrest

theorem mirrors_takeRun {r : TokenKind → Option α} (hr : ∀ kind, r kind.withoutOffsets = r kind) :
    Mirrors (takeRun r) (takeRun r) id := fun feed =>
  congrArg Except.ok (splitRun_withoutOffsets hr feed feed.tokens)

/-! ## Loops -/

theorem mirrors_loop {turn turn' : σ → Parser (α ⊕ τ)} {want : Want β}
    {body body' : τ → β → Parser σ} (changeState : σ → σ) (changeResult : α → α)
    (changeEntry : τ → τ) (changeWanted : β → β)
    (hturn : ∀ state, Mirrors (turn state) (turn' (changeState state))
      (Sum.map changeResult changeEntry))
    (hwant : want.Mirrors changeWanted)
    (hbody : ∀ entry b, Mirrors (body entry b) (body' (changeEntry entry) (changeWanted b))
      changeState) (state : σ) :
    Mirrors (loop turn want body state) (loop turn' want body' (changeState state))
      changeResult := by
  intro feed
  show _ = forgetOffsets _ (runLoop turn want body state feed)
  fun_induction runLoop turn want body state feed with
  | case1 state feed e h₁ =>
    rw [loop_eq, bind_run, hturn, h₁]
    rfl
  | case2 state feed result rest h₁ =>
    rw [loop_eq, bind_run, hturn, h₁]
    rfl
  | case3 state feed entry rest₁ h₁ e h₂ =>
    rw [loop_eq, bind_run, hturn, h₁]
    show (expect want >>= _).run rest₁.withoutOffsets = _
    rw [bind_run, mirrors_expect hwant, h₂]
    rfl
  | case4 state feed entry rest₁ h₁ b rest₂ h₂ e h₃ =>
    rw [loop_eq, bind_run, hturn, h₁]
    show (expect want >>= _).run rest₁.withoutOffsets = _
    rw [bind_run, mirrors_expect hwant, h₂]
    show (body' _ _ >>= _).run rest₂.withoutOffsets = _
    rw [bind_run, hbody, h₃]
    rfl
  | case5 state feed entry rest₁ h₁ b rest₂ h₂ next rest₃ h₃ ih =>
    rw [loop_eq, bind_run, hturn, h₁]
    show (expect want >>= _).run rest₁.withoutOffsets = _
    rw [bind_run, mirrors_expect hwant, h₂]
    show (body' _ _ >>= _).run rest₂.withoutOffsets = _
    rw [bind_run, hbody, h₃]
    exact ih

end Parser

end SchemaMerge
