import SchemaMerge.Proofs.RoundTrip.WellFormed
import SchemaMerge.Reading.Documentation

/-!
# What parsers can give

`Yields p good` says that whatever `p` gives on a feed of genuine tokens is good, and that the feed
behind it is still one of genuine tokens. There is one rule for each way to build a parser; the rule
for loops (`yields_loop`) takes an invariant of the state.
-/

namespace SchemaMerge

/-! ## Genuine tokens -/

namespace TokenKind

/-- What a genuine token stores is the text that spells it. -/
theorem Genuine.spells {kind : TokenKind} {text : String} (h : kind.Genuine)
    (htext : kind.literal? = some text ∨ kind.description? = some text) :
    Spells text.toList kind := by
  cases kind <;> rcases htext with htext | htext <;> cases htext <;> exact h

/-- What a genuine token names is a name. -/
theorem Genuine.isName {kind : TokenKind} {name : String} (h : kind.Genuine)
    (hname : kind.name? = some name) : IsName name := by
  cases kind with
  | keyword word =>
    cases hname
    exact isName_keyword word
  | name text =>
    cases hname
    exact isName_of_spells h
  | _ => cases hname

theorem Genuine.isLiteral {kind : TokenKind} {text : String} (h : kind.Genuine)
    (htext : kind.literal? = some text) : IsLiteral text := ⟨kind, h.spells (.inl htext), htext⟩

theorem Genuine.isDescription {kind : TokenKind} {text : String} (h : kind.Genuine)
    (htext : kind.description? = some text) : IsDescription text :=
  ⟨kind, h.spells (.inr htext), htext⟩

theorem Genuine.isComment {kind : TokenKind} {text : String} (h : kind.Genuine)
    (htext : kind.comment? = some text) : IsComment text := by
  cases kind with
  | comment =>
    cases htext
    exact h
  | _ => cases htext

end TokenKind

/-- A comment may be carried to a description. -/
theorem IsComment.isDescription {text : String} (h : IsComment text) : IsDescription text :=
  ⟨_, h, rfl⟩

/-- All tokens of the feed are genuine, and it carries comments. -/
structure Feed.Genuine (feed : Feed) : Prop where
  tokens : ∀ token ∈ feed.tokens, token.kind.Genuine
  carried : ∀ text ∈ feed.carried, IsComment text

namespace Feed.Genuine

variable {feed : Feed}

theorem next? (h : feed.Genuine) {token : Token} (ht : feed.next? = some token) :
    token.kind.Genuine := h.tokens token (List.mem_of_mem_head? ht)

theorem advance (h : feed.Genuine) : feed.advance.Genuine := by
  unfold Feed.advance
  split
  · exact h
  · next token tokens ht =>
    exact ⟨fun t hmem => h.tokens t (ht ▸ List.mem_cons_of_mem _ hmem), h.carried⟩

/-- What trails a token is a comment. -/
theorem trailing? (h : feed.Genuine) {text : String} (ht : feed.trailing? = some text) :
    IsComment text := by
  unfold Feed.trailing? at ht
  split at ht
  · next text' span stop hnext _ =>
    split at ht
    · cases ht
      exact (h.next? hnext).isComment rfl
    · cases ht
  · cases ht

end Feed.Genuine

namespace Parser

variable {α β σ τ : Type}

/-- What the parser gives on genuine tokens is good, and what it leaves is genuine. -/
def Yields (p : Parser α) (good : α → Prop) : Prop :=
  ∀ feed a rest, feed.Genuine → p.run feed = .ok (a, rest) → good a ∧ rest.Genuine

variable {p : Parser α} {f : α → Parser β} {good : α → Prop} {goodNext : β → Prop}

/-! ## Sequences -/

theorem yields_pure {a : α} (h : good a) : Yields (pure a) good := by
  rintro feed _ _ hfeed ⟨⟩
  exact ⟨h, hfeed⟩

theorem yields_fail (diagnostic : Diagnostic) : Yields (fail diagnostic) good := by
  rintro feed _ _ - ⟨⟩

/-- What is good of the first value may be used of the next. -/
theorem Yields.bind (hp : Yields p good) (hf : ∀ a, good a → Yields (f a) goodNext) :
    Yields (p >>= f) goodNext := by
  intro feed b rest hfeed hrun
  rw [bind_run] at hrun
  split at hrun
  · next a mid hmid =>
    obtain ⟨ha, hgenuine⟩ := hp feed a mid hfeed hmid
    exact hf a ha mid b rest hgenuine hrun
  · cases hrun

theorem Yields.mono {good' : α → Prop} (h : Yields p good) (hgood : ∀ a, good a → good' a) :
    Yields p good' := fun feed a rest hfeed hrun =>
  (h feed a rest hfeed hrun).imp_left (hgood a)

/-! ## Feeds and tokens -/

theorem yields_feed : Yields Parser.feed Feed.Genuine := by
  rintro feed _ _ hfeed ⟨⟩
  exact ⟨hfeed, hfeed⟩

theorem yields_advance : Yields advance fun _ => True := by
  rintro feed _ _ hfeed ⟨⟩
  exact ⟨trivial, hfeed.advance⟩

theorem yields_swapCarried {comments : List String} (h : ∀ text ∈ comments, IsComment text) :
    Yields (swapCarried comments) fun texts => ∀ text ∈ texts, IsComment text := by
  rintro feed _ _ hfeed ⟨⟩
  exact ⟨hfeed.carried, hfeed.tokens, h⟩

/-- A token that is expected gives what can be read of a genuine token. -/
theorem yields_expect {want : Want α}
    (h : ∀ token a, token.kind.Genuine → want.read token = some a → good a) :
    Yields (expect want) good := by
  intro feed a rest hfeed hrun
  rw [expect_run] at hrun
  split at hrun
  · next b hb =>
    obtain ⟨rfl, rfl⟩ : b = a ∧ feed.advance = rest := by simpa using hrun
    obtain ⟨token, hnext, hread⟩ := Option.bind_eq_some_iff.1 hb
    exact ⟨h token b (hfeed.next? hnext) hread, hfeed.advance⟩
  · cases hrun

theorem yields_mark (mark : Punctuator) : Yields (expect (.mark mark)) fun _ => True :=
  yields_expect fun _ _ _ _ => trivial

theorem yields_keyword (word : Keyword) : Yields (expect (.keyword word)) fun _ => True :=
  yields_expect fun _ _ _ _ => trivial

theorem yields_nextIs (kind : TokenKind) : Yields (nextIs kind) fun _ => True :=
  yields_feed.bind fun _ _ => yields_pure trivial

theorem yields_takeIf (kind : TokenKind) : Yields (takeIf kind) fun _ => True := by
  refine (yields_nextIs kind).bind fun found _ => ?_
  cases found with
  | true => exact yields_advance.bind fun _ _ => yields_pure trivial
  | false => exact yields_pure trivial

/-- What is expected by its name has one. -/
theorem yields_expect_name (what : String) :
    Yields (expect (.name what)) fun found => IsName found.1 := by
  refine yields_expect fun token found hgenuine hread => ?_
  obtain ⟨name, hname, rfl⟩ := Option.map_eq_some_iff.1 hread
  exact hgenuine.isName hname

/-- A run gives what can be read of genuine tokens. -/
theorem yields_takeRun {f : TokenKind → Option α}
    (h : ∀ kind a, kind.Genuine → f kind = some a → good a) :
    Yields (takeRun f) fun found => ∀ a ∈ found, good a := by
  have hsplit (feed : Feed) (tokens : List Token) (ht : ∀ token ∈ tokens, token.kind.Genuine)
      (hc : ∀ text ∈ feed.carried, IsComment text) :
      (∀ a ∈ (splitRun f feed tokens).1, good a) ∧ (splitRun f feed tokens).2.Genuine := by
    induction tokens generalizing feed with
    | nil => exact ⟨List.forall_mem_nil _, ht, hc⟩
    | cons token tokens ih =>
      rw [splitRun]
      rw [List.forall_mem_cons] at ht
      cases hf : f token.kind with
      | none => exact ⟨List.forall_mem_nil _, List.forall_mem_cons.2 ht, hc⟩
      | some a =>
        obtain ⟨has, hrest⟩ := ih { feed with lastEnd := some token.span.stop } ht.2 hc
        exact ⟨List.forall_mem_cons.2 ⟨h _ _ ht.1 hf, has⟩, hrest⟩
  intro feed found rest hfeed hrun
  have hfound := hsplit feed feed.tokens hfeed.tokens hfeed.carried
  rwa [show splitRun f feed feed.tokens = (found, rest) from Except.ok.inj hrun] at hfound

/-! ## Loops -/

/-- **What a loop gives**, if each round keeps an invariant of the state. -/
theorem yields_loop {turn : σ → Parser (α ⊕ τ)} {want : Want β} {body : τ → β → Parser σ}
    (good : α → Prop) (inv : σ → Prop) (mid : τ → Prop) (taken : β → Prop)
    (hturn : ∀ state, inv state → Yields (turn state) (Sum.elim good mid))
    (hwant : Yields (expect want) taken)
    (hbody : ∀ entry b, mid entry → taken b → Yields (body entry b) inv) {state : σ}
    (h : inv state) : Yields (loop turn want body state) good := by
  intro feed a rest hfeed hrun
  change runLoop turn want body state feed = .ok (a, rest) at hrun
  fun_induction runLoop turn want body state feed with
  | case1 => cases hrun
  | case2 state feed result rest₁ h₁ =>
    cases hrun
    exact hturn state h feed _ _ hfeed h₁
  | case3 => cases hrun
  | case4 => cases hrun
  | case5 state feed entry rest₁ h₁ b rest₂ h₂ next rest₃ h₃ ih =>
    obtain ⟨hmid, hrest₁⟩ := hturn state h feed _ _ hfeed h₁
    obtain ⟨hb, hrest₂⟩ := hwant rest₁ _ _ hrest₁ h₂
    obtain ⟨hnext, hrest₃⟩ := hbody entry b hmid hb rest₂ _ _ hrest₂ h₃
    exact ih hnext hrest₃ hrun

end Parser

end SchemaMerge
