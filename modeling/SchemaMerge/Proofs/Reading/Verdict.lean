import SchemaMerge.Proofs.Reading.Seam

/-!
# When the verdict of a parser is settled

A parser takes plain tokens only: neither faults nor the end of the text. So what it reads of a list
of tokens is a part of the plain tokens in front, and what it can complain of is one of these, or
what stops them (`Blames`).

`Settles tokens more p` says that `p`, standing in `tokens`, has settled its verdict when it has not
run out of tokens: with `more` tokens behind it gives the same value, or fails alike. A parser that
fails without a look at the next token can do so where no token is left. One that is `Careful` does
not: without tokens it fails for their want only. Every parser behind a careful one that is to be
settled has to be careful (`Careful.bind`), but for those that stand behind a token that was wanted,
which is there (`careful_expect_bind`).
-/

namespace SchemaMerge

/-! ## Plain tokens -/

/-- The token is neither a fault nor the end of the text. -/
def Token.isPlain (token : Token) : Bool := token.kind.isProper && decide (token.kind ≠ .endOfText)

theorem Token.isPlain_iff {token : Token} :
    token.isPlain = true ↔ token.kind.isProper = true ∧ token.kind ≠ .endOfText := by
  simp [isPlain]

/-- The diagnostic says that the text ends too early. -/
def Diagnostic.AtEnd (diagnostic : Diagnostic) : Prop :=
  ∃ expected, diagnostic.cause = .syntactic (.unexpectedEnd expected)

theorem Diagnostic.atEnd_unexpectedEnd (expected : List String) (span : Span) :
    (Diagnostic.unexpectedEnd expected span).AtEnd := ⟨expected, rfl⟩

/-- The failure that a fault stands for. -/
def Token.failure? (token : Token) : Option Diagnostic :=
  match token.kind with
  | .fault cause message notes => some ⟨.lexical cause, message, token.span, none, notes⟩
  | _ => none

/-- The failure of a fault is the lexer's. -/
theorem Token.exists_lexical_of_failure? {token : Token} {e : Diagnostic}
    (h : token.failure? = some e) : ∃ cause, e.cause = .lexical cause := by
  unfold failure? at h
  split at h
  · cases h
    exact ⟨_, rfl⟩
  · cases h

/-- What the diagnostic complains of in the tokens: a plain token in front of all others, the fault
that stops these, or that nothing more follows them. -/
inductive Blames (tokens : List Token) (e : Diagnostic) : Prop
  | plain (token : Token) (cause : SyntacticCause)
    (hmem : token ∈ tokens.takeWhile Token.isPlain) (hspan : e.span = token.span)
    (hcause : e.cause = .syntactic cause) (hend : ¬e.AtEnd)
  | fault (token : Token) (hhead : (tokens.dropWhile Token.isPlain).head? = some token)
    (hfailure : token.failure? = some e)
  | ended (hend : e.AtEnd)
    (hhead : ∀ token ∈ (tokens.dropWhile Token.isPlain).head?,
      token.kind = .endOfText ∧ e.span = token.span)

namespace Feed

/-! ## Feeds that stand in a list of tokens -/

/-- The feed stands in the list, behind plain tokens. -/
def Within (tokens : List Token) (feed : Feed) : Prop :=
  ∃ done, tokens = done ++ feed.tokens ∧ ∀ token ∈ done, token.isPlain = true

/-- The feed with more tokens behind it. -/
def followedBy (feed : Feed) (more : List Token) : Feed :=
  { feed with tokens := feed.tokens ++ more }

variable {tokens more : List Token} {feed : Feed}

/-- What is plain in front of a feed is plain in front of the whole list. -/
theorem Within.mem_takeWhile (h : feed.Within tokens) {token : Token}
    (hmem : token ∈ feed.tokens.takeWhile Token.isPlain) :
    token ∈ tokens.takeWhile Token.isPlain := by
  obtain ⟨done, htokens, hdone⟩ := h
  rw [htokens, List.takeWhile_append_of_pos hdone]
  exact List.mem_append_right _ hmem

/-- What stops the plain tokens is the same for the feed as for the whole list. -/
theorem Within.dropWhile_eq (h : feed.Within tokens) :
    tokens.dropWhile Token.isPlain = feed.tokens.dropWhile Token.isPlain := by
  obtain ⟨done, htokens, hdone⟩ := h
  rw [htokens, List.dropWhile_append_of_pos hdone]

theorem Within.advance (h : feed.Within tokens) {token : Token} (hnext : feed.next? = some token)
    (hplain : token.isPlain = true) : feed.advance.Within tokens := by
  obtain ⟨done, htokens, hdone⟩ := h
  obtain ⟨behind, hbehind⟩ := List.head?_eq_some_iff.1 hnext
  refine ⟨done ++ [token], ?_, List.forall_mem_append.2 ⟨hdone, List.forall_mem_singleton.2 hplain⟩⟩
  rw [htokens, hbehind, Feed.advance, hbehind, List.append_assoc, List.singleton_append]

theorem tokens_ne_nil_of_next? {token : Token} (h : feed.next? = some token) :
    feed.tokens ≠ [] := by
  intro hnil
  rw [next?, hnil] at h
  cases h

theorem exists_next?_of_nextIs {kind : TokenKind} (h : feed.nextIs kind = true) :
    ∃ token, feed.next? = some token ∧ token.kind = kind := by
  unfold nextIs at h
  split at h
  · next token hnext => exact ⟨token, hnext, of_decide_eq_true h⟩
  · cases h

section

variable (h : feed.tokens ≠ [])

include h

theorem next?_followedBy : (feed.followedBy more).next? = feed.next? :=
  List.head?_append_of_ne_nil _ h

theorem nextIs_followedBy (kind : TokenKind) :
    (feed.followedBy more).nextIs kind = feed.nextIs kind := by
  rw [nextIs, next?_followedBy h, nextIs]

theorem advance_followedBy : (feed.followedBy more).advance = feed.advance.followedBy more := by
  obtain ⟨token, behind, htokens⟩ := List.exists_cons_of_ne_nil h
  simp [advance, followedBy, htokens]

theorem trailing?_followedBy : (feed.followedBy more).trailing? = feed.trailing? := by
  rw [trailing?, next?_followedBy h]
  rfl

/-- While there are tokens, what is unexpected is the first of them, whatever follows. -/
theorem unexpected_followedBy (expected : List String) :
    (feed.followedBy more).unexpected expected = feed.unexpected expected := by
  obtain ⟨token, behind, htokens⟩ := List.exists_cons_of_ne_nil h
  rw [unexpected, next?_followedBy h, unexpected, next?, htokens]
  rfl

theorem unexpectedInBraces_followedBy (expected : List String) (opening : Span) :
    (feed.followedBy more).unexpectedInBraces expected opening =
      feed.unexpectedInBraces expected opening := by
  rw [unexpectedInBraces, unexpected_followedBy h, unexpectedInBraces]

end

/-! ## What is not what was wanted -/

/-- Without tokens the failure is the end of the text. -/
theorem atEnd_unexpected (h : feed.tokens = []) (expected : List String) :
    (feed.unexpected expected).AtEnd := by
  rw [unexpected, next?, h]
  exact Diagnostic.atEnd_unexpectedEnd ..

/-- A token that was not wanted is plain, a fault, or the end of the text. -/
theorem Within.blames_unexpected (h : feed.Within tokens) (expected : List String) :
    Blames tokens (feed.unexpected expected) := by
  have hdrop := h.dropWhile_eq
  cases htokens : feed.tokens with
  | nil =>
    refine .ended (atEnd_unexpected htokens expected) ?_
    rw [hdrop, htokens]
    rintro _ ⟨⟩
  | cons token behind =>
    have hmem (hplain : token.isPlain = true) : token ∈ tokens.takeWhile Token.isPlain := by
      refine h.mem_takeWhile ?_
      rw [htokens, List.takeWhile_cons_of_pos hplain]
      exact List.mem_cons_self
    have hhead (hplain : token.isPlain = false) :
        (tokens.dropWhile Token.isPlain).head? = some token := by
      rw [hdrop, htokens, List.dropWhile_cons_of_neg (by simp [hplain]), List.head?_cons]
    have hunexpected : feed.unexpected expected = .unexpectedToken expected token := by
      rw [unexpected, next?, htokens, List.head?_cons]
    rw [hunexpected, Diagnostic.unexpectedToken]
    split
    · next cause message notes hkind =>
      refine .fault token (hhead ?_) ?_
      · simp [Token.isPlain, hkind, TokenKind.isProper]
      · simp [Token.failure?, hkind]
    · next hkind =>
      refine .ended (Diagnostic.atEnd_unexpectedEnd ..) fun other hother => ?_
      rw [hhead (by simp [Token.isPlain, hkind])] at hother
      cases hother
      exact ⟨hkind, rfl⟩
    · next hfault hend =>
      refine .plain token _ (hmem ?_) rfl rfl ?_
      · refine Token.isPlain_iff.2 ⟨?_, hend⟩
        cases hkind : token.kind <;> first | rfl | exact absurd hkind (hfault _ _ _)
      · rintro ⟨_, ⟨⟩⟩

theorem Within.blames_unexpectedInBraces (h : feed.Within tokens) (expected : List String)
    (opening : Span) : Blames tokens (feed.unexpectedInBraces expected opening) := by
  have hblames := h.blames_unexpected expected
  rw [unexpectedInBraces]
  split
  · next wanted hcause =>
    cases hblames with
    | plain _ _ _ _ _ hend => exact absurd ⟨wanted, hcause⟩ hend
    | fault token _ hfailure =>
      obtain ⟨cause, hlexical⟩ := Token.exists_lexical_of_failure? hfailure
      cases hcause.symm.trans hlexical
    | ended hend hhead => exact .ended hend hhead
  · exact hblames

end Feed

namespace Parser

variable {α β σ τ : Type}

/-! ## Verdicts -/

/-- On a feed the parser gives a value and stays in the tokens, or blames one of them; unless it has
run out of tokens it does the same with more tokens behind. -/
structure SettlesAt (tokens more : List Token) (p : Parser α) (feed : Feed) : Prop where
  ok : ∀ {a rest}, p.run feed = .ok (a, rest) → rest.Within tokens ∧
    (rest.tokens ≠ [] → p.run (feed.followedBy more) = .ok (a, rest.followedBy more))
  error : ∀ {e}, p.run feed = .error e → Blames tokens e ∧
    (¬e.AtEnd → p.run (feed.followedBy more) = .error e)

/-- The verdict of the parser is settled wherever it stands in the tokens. -/
def Settles (tokens more : List Token) (p : Parser α) : Prop :=
  ∀ feed, feed.Within tokens → SettlesAt tokens more p feed

/-- Without tokens the parser fails for their want only. -/
def Ends (p : Parser α) : Prop :=
  ∀ feed e, feed.tokens = [] → p.run feed = .error e → e.AtEnd

/-- The parser settles its verdict and looks at the next token before it fails. -/
structure Careful (tokens more : List Token) (p : Parser α) : Prop where
  settles : Settles tokens more p
  ends : Ends p

variable {tokens more : List Token} {p : Parser α} {next : α → Parser β} {want : Want α}
  {feed : Feed}

/-- What is left is not less than what a second parser leaves of it. -/
theorem tokens_ne_nil_of_run {rest : Feed} {a : α} (h : p.run feed = .ok (a, rest))
    (hrest : rest.tokens ≠ []) : feed.tokens ≠ [] := by
  have hlength := p.length_le h
  have hpos := List.length_pos_iff.2 hrest
  exact List.length_pos_iff.1 (Nat.lt_of_lt_of_le hpos hlength)

theorem tokens_eq_nil_of_run {rest : Feed} {a : α} (h : p.run feed = .ok (a, rest))
    (hfeed : feed.tokens = []) : rest.tokens = [] :=
  of_not_not fun hrest => tokens_ne_nil_of_run h hrest hfeed

/-! ## Sequences -/

theorem ends_pure (a : α) : Ends (pure a) := by rintro _ _ - ⟨⟩

theorem careful_pure (a : α) : Careful tokens more (pure a) where
  settles feed hfeed := by
    constructor
    · rintro _ _ ⟨⟩
      exact ⟨hfeed, fun _ => rfl⟩
    · rintro _ ⟨⟩
  ends := ends_pure a

theorem settles_fail {diagnostic : Diagnostic} (h : Blames tokens diagnostic) :
    Settles tokens more (fail diagnostic : Parser α) := by
  intro feed _
  constructor
  · rintro _ _ ⟨⟩
  · rintro _ ⟨⟩
    exact ⟨h, fun _ => rfl⟩

/-- What is read next is settled where it starts. It must end in want of tokens, since the first
part may have taken them all. -/
theorem SettlesAt.bind (hp : SettlesAt tokens more p feed)
    (hnext : ∀ a rest, p.run feed = .ok (a, rest) → rest.Within tokens →
      SettlesAt tokens more (next a) rest)
    (hends : ∀ a, Ends (next a)) : SettlesAt tokens more (p >>= next) feed := by
  constructor
  · intro b rest hrun
    rw [bind_run] at hrun
    split at hrun
    · next a mid hmid =>
      obtain ⟨hwithin, hmore⟩ := hp.ok hmid
      obtain ⟨hrest, hsame⟩ := (hnext a mid hmid hwithin).ok hrun
      refine ⟨hrest, fun hne => ?_⟩
      rw [bind_run, hmore (tokens_ne_nil_of_run hrun hne)]
      exact hsame hne
    · cases hrun
  · intro e hrun
    rw [bind_run] at hrun
    split at hrun
    · next a mid hmid =>
      obtain ⟨hwithin, hmore⟩ := hp.ok hmid
      obtain ⟨hblames, hsame⟩ := (hnext a mid hmid hwithin).error hrun
      refine ⟨hblames, fun hend => ?_⟩
      rw [bind_run, hmore fun hnil => hend (hends a mid e hnil hrun)]
      exact hsame hend
    · next e' hfailed =>
      cases hrun
      obtain ⟨hblames, hsame⟩ := hp.error hfailed
      refine ⟨hblames, fun hend => ?_⟩
      rw [bind_run, hsame hend]

theorem Ends.bind (hp : Ends p) (hnext : ∀ a, Ends (next a)) : Ends (p >>= next) := by
  intro feed e hfeed hrun
  rw [bind_run] at hrun
  split at hrun
  · next a mid hmid => exact hnext a mid e (tokens_eq_nil_of_run hmid hfeed) hrun
  · next hfailed =>
    cases hrun
    exact hp feed e hfeed hfailed

theorem Settles.bind (hp : Settles tokens more p) (hnext : ∀ a, Careful tokens more (next a)) :
    Settles tokens more (p >>= next) := fun feed hfeed =>
  (hp feed hfeed).bind (fun a rest _ hrest => (hnext a).settles rest hrest) fun a => (hnext a).ends

/-- Careful parsers in a row are careful. -/
theorem Careful.bind (hp : Careful tokens more p) (hnext : ∀ a, Careful tokens more (next a)) :
    Careful tokens more (p >>= next) where
  settles := hp.settles.bind hnext
  ends := hp.ends.bind fun a => (hnext a).ends

theorem careful_ite {b : Bool} {q : Parser α} (hp : Careful tokens more p)
    (hq : Careful tokens more q) : Careful tokens more (if b then p else q) := by
  cases b with
  | true => exact hp
  | false => exact hq

/-- What a parser does with the feed may depend on its next token, and not on what is behind. -/
theorem careful_feed_bind {next : Feed → Parser β}
    (hnext : ∀ feed, feed.Within tokens → SettlesAt tokens more (next feed) feed)
    (hends : ∀ feed, feed.tokens = [] → Ends (next feed))
    (hsame : ∀ feed : Feed, feed.tokens ≠ [] → next (feed.followedBy more) = next feed) :
    Careful tokens more (Parser.feed >>= next) where
  settles feed hfeed := by
    constructor
    · intro b rest hrun
      obtain ⟨hrest, hmore⟩ := (hnext feed hfeed).ok hrun
      refine ⟨hrest, fun hne => ?_⟩
      rw [← hmore hne, ← hsame feed (tokens_ne_nil_of_run hrun hne)]
      rfl
    · intro e hrun
      obtain ⟨hblames, hmore⟩ := (hnext feed hfeed).error hrun
      refine ⟨hblames, fun hend => ?_⟩
      have hne : feed.tokens ≠ [] := fun hnil => hend (hends feed hnil feed e hnil hrun)
      rw [← hmore hend, ← hsame feed hne]
      rfl
  ends feed e hfeed hrun := hends feed hfeed feed e hfeed hrun

/-- A parser may look at the feed, if it sees no more of it than its next token. -/
theorem Careful.feed_bind {next : Feed → Parser β}
    (hnext : ∀ feed, Careful tokens more (next feed))
    (hsame : ∀ feed : Feed, feed.tokens ≠ [] → next (feed.followedBy more) = next feed) :
    Careful tokens more (Parser.feed >>= next) :=
  careful_feed_bind (fun feed hfeed => (hnext feed).settles feed hfeed)
    (fun feed _ => (hnext feed).ends) hsame

/-- A plain token may be taken where it is seen to come next. -/
theorem settlesAt_advance (hfeed : feed.Within tokens) {token : Token}
    (hnext : feed.next? = some token) (hplain : token.isPlain = true) :
    SettlesAt tokens more advance feed := by
  constructor
  · rintro _ _ ⟨⟩
    refine ⟨hfeed.advance hnext hplain, fun _ => ?_⟩
    rw [advance_run, Feed.advance_followedBy (Feed.tokens_ne_nil_of_next? hnext)]
  · rintro _ ⟨⟩

theorem careful_swapCarried (comments : List String) :
    Careful tokens more (swapCarried comments) where
  settles feed hfeed := by
    constructor
    · rintro _ _ ⟨⟩
      exact ⟨hfeed, fun _ => rfl⟩
    · rintro _ ⟨⟩
  ends := by rintro _ _ - ⟨⟩

/-! ## Single tokens -/

/-- Only plain tokens are wanted. -/
def Want.Plain (want : Want α) : Prop :=
  ∀ token a, want.read token = some a → token.isPlain = true

/-- A want that is the same of a token in another place is a want of a plain token. -/
theorem Want.plain_of_moves {ρ : Relocation} {f : α → α} (h : Seam.Moves ρ want f) :
    want.Plain := by
  intro token a hread
  obtain ⟨hproper, hend, -⟩ := h token a hread
  exact Token.isPlain_iff.2 ⟨hproper, hend⟩

theorem ends_expect_bind (want : Want α) (next : α → Parser β) : Ends (expect want >>= next) := by
  intro feed e hfeed hrun
  rw [bind_run, expect_run, Feed.next?, hfeed, List.head?_nil] at hrun
  cases hrun
  exact Feed.atEnd_unexpected hfeed _

/-- A token that is wanted is there or not, whatever follows it. So the parser behind it need not be
careful. -/
theorem settlesAt_expect_bind (hplain : want.Plain) (hfeed : feed.Within tokens)
    (hnext : ∀ token a rest, token ∈ tokens.takeWhile Token.isPlain → want.read token = some a →
      (expect want).run feed = .ok (a, rest) → rest.Within tokens →
      SettlesAt tokens more (next a) rest) : SettlesAt tokens more (expect want >>= next) feed := by
  cases htoken : feed.next?.bind want.read with
  | none =>
    have hrun : (expect want).run feed = .error (feed.unexpected want.expected) := by
      rw [expect_run, htoken]
    constructor
    · intro b rest h
      rw [bind_run, hrun] at h
      cases h
    · intro e h
      rw [bind_run, hrun] at h
      cases h
      refine ⟨hfeed.blames_unexpected _, fun hend => ?_⟩
      have hne : feed.tokens ≠ [] := fun hnil => hend (Feed.atEnd_unexpected hnil _)
      rw [bind_run, expect_run, Feed.next?_followedBy hne, htoken, Feed.unexpected_followedBy hne]
  | some a =>
    obtain ⟨token, hhead, hread⟩ := Option.bind_eq_some_iff.1 htoken
    have hne := Feed.tokens_ne_nil_of_next? hhead
    have hrun : (expect want).run feed = .ok (a, feed.advance) := by rw [expect_run, htoken]
    have hmore : (expect want).run (feed.followedBy more) =
        .ok (a, feed.advance.followedBy more) := by
      rw [expect_run, Feed.next?_followedBy hne, htoken, Feed.advance_followedBy hne]
    have hmem : token ∈ tokens.takeWhile Token.isPlain := by
      obtain ⟨behind, hbehind⟩ := List.head?_eq_some_iff.1 hhead
      refine hfeed.mem_takeWhile ?_
      rw [hbehind, List.takeWhile_cons_of_pos (hplain token a hread)]
      exact List.mem_cons_self
    have hsettles := hnext token a _ hmem hread hrun (hfeed.advance hhead (hplain token a hread))
    constructor
    · intro b rest h
      rw [bind_run, hrun] at h
      rw [bind_run, hmore]
      exact hsettles.ok h
    · intro e h
      rw [bind_run, hrun] at h
      rw [bind_run, hmore]
      exact hsettles.error h

/-- Behind a token that was wanted, a parser need not be careful: the token is there. -/
theorem careful_expect_bind (hplain : want.Plain)
    (hnext : ∀ token a, token ∈ tokens.takeWhile Token.isPlain → want.read token = some a →
      Settles tokens more (next a)) : Careful tokens more (expect want >>= next) where
  settles _ hfeed := settlesAt_expect_bind hplain hfeed fun token a rest hmem hread _ hrest =>
    hnext token a hmem hread rest hrest
  ends := ends_expect_bind want next

theorem expect_bind_pure (want : Want α) : expect want >>= pure = expect want := by
  ext feed
  rw [bind_run]
  cases (expect want).run feed <;> rfl

theorem careful_expect (hplain : want.Plain) : Careful tokens more (expect want) :=
  expect_bind_pure want ▸ careful_expect_bind hplain fun _ a _ _ => (careful_pure a).settles

theorem careful_nextIs (kind : TokenKind) : Careful tokens more (nextIs kind) :=
  Careful.feed_bind (fun _ => careful_pure _) fun feed hne => by rw [feed.nextIs_followedBy hne]

theorem takeIf_eq (kind : TokenKind) :
    takeIf kind = Parser.feed >>= fun feed =>
      if feed.nextIs kind then advance >>= fun _ => pure true else pure false := rfl

theorem careful_takeIf {kind : TokenKind} (hproper : kind.isProper = true)
    (hend : kind ≠ .endOfText) : Careful tokens more (takeIf kind) := by
  rw [takeIf_eq]
  refine careful_feed_bind (fun feed hfeed => ?_) (fun feed hfeed => ?_) fun feed hne => ?_
  · cases hnext : feed.nextIs kind with
    | true =>
      obtain ⟨token, hhead, rfl⟩ := Feed.exists_next?_of_nextIs hnext
      have hplain := Token.isPlain_iff.2 ⟨hproper, hend⟩
      exact (settlesAt_advance hfeed hhead hplain).bind
        (fun _ rest _ hrest => (careful_pure true).settles rest hrest) fun _ => ends_pure true
    | false => exact (careful_pure false).settles feed hfeed
  · cases hnext : feed.nextIs kind with
    | true =>
      obtain ⟨token, hhead, -⟩ := Feed.exists_next?_of_nextIs hnext
      exact absurd hfeed (Feed.tokens_ne_nil_of_next? hhead)
    | false => exact ends_pure false
  · rw [Feed.nextIs_followedBy hne]

/-! ## Runs of tokens -/

/-- A run that has not used up all tokens ends at the same token with more behind them. -/
theorem careful_takeRun {r : TokenKind → Option α} (hr : Seam.Proper r) :
    Careful tokens more (takeRun r) where
  settles feed hfeed := by
    constructor
    · intro as rest hrun
      rw [takeRun_run, Seam.splitRun_eq] at hrun
      obtain ⟨rfl, rfl⟩ := Prod.mk.inj (Except.ok.inj hrun)
      obtain ⟨done, htokens, hdone⟩ := hfeed
      constructor
      · refine ⟨done ++ feed.tokens.takeWhile (Seam.inRun r), ?_, ?_⟩
        · rw [htokens, List.append_assoc, List.takeWhile_append_dropWhile]
        · refine List.forall_mem_append.2 ⟨hdone, fun token hmem => ?_⟩
          have hread : Seam.inRun r token = true := List.mem_takeWhile_imp hmem
          obtain ⟨a, ha⟩ := Option.isSome_iff_exists.1 hread
          exact Token.isPlain_iff.2 (hr _ a ha)
      · intro hne
        -- The run has stopped at a token, where it stops also with more tokens behind.
        obtain ⟨htake, hdrop⟩ := @takeWhile_append_of_stops _ (Seam.inRun r) feed.tokens more
          fun hnil => absurd hnil hne
        rw [takeRun_run, Seam.splitRun_eq]
        simp only [Feed.followedBy, htake, hdrop]
    · intro e hrun
      cases hrun
  ends := by rintro _ _ - ⟨⟩

/-! ## Loops -/

section Loop

variable {turn : σ → Parser (α ⊕ τ)} {want : Want β} {body : τ → β → Parser σ}

/-- A loop ends as its turns do. -/
theorem ends_loop (hturn : ∀ state, Ends (turn state)) (state : σ) :
    Ends (loop turn want body state) := by
  rw [loop_eq]
  refine (hturn state).bind fun turned => ?_
  cases turned with
  | inl result => exact ends_pure result
  | inr entry => exact ends_expect_bind want _

/-- **The verdict of a loop is settled if that of its rounds is**, by induction on the number of
tokens left. -/
theorem careful_loop (hturn : ∀ state, Careful tokens more (turn state)) (hplain : want.Plain)
    (hbody : ∀ entry token b, token ∈ tokens.takeWhile Token.isPlain → want.read token = some b →
      Settles tokens more (body entry b)) (state : σ) :
    Careful tokens more (loop turn want body state) where
  settles feed hfeed := by
    have hends := @ends_loop _ _ _ _ turn want body fun state => (hturn state).ends
    induction hlength : feed.tokens.length using Nat.strong_induction_on
      generalizing state feed with
    | _ length ih =>
    rw [loop_eq]
    refine ((hturn state).settles feed hfeed).bind (fun turned rest₁ h₁ hrest₁ => ?_)
      fun turned => ?_
    · cases turned with
      | inl result => exact (careful_pure result).settles rest₁ hrest₁
      | inr entry =>
        refine settlesAt_expect_bind hplain hrest₁ fun token b rest₂ hmem hread h₂ hrest₂ => ?_
        refine (hbody entry token b hmem hread rest₂ hrest₂).bind (fun state rest₃ h₃ hrest₃ => ?_)
          hends
        refine ih rest₃.tokens.length ?_ state rest₃ hrest₃ rfl
        have h₁ := (turn _).length_le h₁
        have h₂ := expect_length_lt h₂
        have h₃ := (body _ _).length_le h₃
        omega
    · cases turned with
      | inl result => exact ends_pure result
      | inr entry => exact ends_expect_bind want _
  ends := ends_loop (fun state => (hturn state).ends) state

end Loop

end Parser

end SchemaMerge
