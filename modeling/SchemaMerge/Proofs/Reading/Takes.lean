import SchemaMerge.Proofs.Reading.Settled

/-!
# Which tokens a parser takes

A feed stands `Behind` the tokens that have been taken from a list, and knows where the last of them
ended. `Takes tokens done p post` says of a parser that carries no comments over which tokens it
takes behind those of `done`, together with the value it gives for them; there is one rule for each
way to build a parser. Of parsers that end in documentation it is said what they take token by
token: the rounds of loops between brackets (`exists_turnInParens_run`, `exists_turnInBraces_run`).
-/

namespace SchemaMerge

/-! ## Documentation and commas -/

/-- The comments among the tokens. -/
def commentsOf (tokens : List Token) : List String :=
  tokens.filterMap fun token => token.kind.comment?

/-- The documentation among the tokens. -/
def descriptionsOf (tokens : List Token) : List String :=
  tokens.filterMap fun token => token.kind.description?

@[simp] theorem commentsOf_nil : commentsOf [] = [] := rfl

@[simp] theorem commentsOf_append (tokens more : List Token) :
    commentsOf (tokens ++ more) = commentsOf tokens ++ commentsOf more := List.filterMap_append

@[simp] theorem descriptionsOf_nil : descriptionsOf [] = [] := rfl

@[simp] theorem descriptionsOf_append (tokens more : List Token) :
    descriptionsOf (tokens ++ more) = descriptionsOf tokens ++ descriptionsOf more :=
  List.filterMap_append

/-- All tokens are comments. -/
def AllComments (tokens : List Token) : Prop := ∀ token ∈ tokens, token.kind.comment?.isSome

/-- All tokens are documentation: strings, block strings or comments. -/
def AllDescriptions (tokens : List Token) : Prop :=
  ∀ token ∈ tokens, token.kind.description?.isSome

/-- All tokens are commas. -/
def AllCommas (tokens : List Token) : Prop :=
  ∀ token ∈ tokens, token.kind = .punctuator .comma

/-- Comments may stand among descriptions. -/
theorem AllComments.descriptions {tokens : List Token} (h : AllComments tokens) :
    AllDescriptions tokens := fun token ht => Seam.isSome_description? (h token ht)

theorem AllComments.descriptionsOf_eq {tokens : List Token} (h : AllComments tokens) :
    descriptionsOf tokens = commentsOf tokens :=
  List.filterMap_congr fun token ht => Seam.description?_of_comment? (h token ht)

theorem AllCommas.commentsOf_eq {tokens : List Token} (h : AllCommas tokens) :
    commentsOf tokens = [] :=
  List.filterMap_eq_nil_iff.2 fun token ht => by rw [h token ht]; rfl

/-- The token is neither a comma nor a comment. -/
def Token.IsSolid (token : Token) : Prop :=
  token.kind ≠ .punctuator .comma ∧ token.kind.comment? = none

/-- A name is neither a comma nor documentation. -/
theorem Token.isSolid_of_name? {token : Token} {name : String} (h : token.kind.name? = some name) :
    token.IsSolid := by
  unfold IsSolid
  cases hkind : token.kind <;> simp_all [TokenKind.name?, TokenKind.comment?]

theorem Token.isSolid_of_literal? {token : Token} {text : String}
    (h : token.kind.literal? = some text) : token.IsSolid := by
  unfold IsSolid
  cases hkind : token.kind <;>
    simp_all [TokenKind.literal?, TokenKind.name?, TokenKind.comment?]

/-! ## Feeds behind tokens -/

/-- The feed stands in a list of tokens behind those of `done`, and carries the comments of `handed`
over. -/
structure Feed.Behind (tokens done handed : List Token) (feed : Feed) : Prop where
  tokens_eq : tokens = done ++ feed.tokens
  lastEnd_eq : feed.lastEnd = done.getLast?.map fun token => token.span.stop
  carried_eq : feed.carried = commentsOf handed

/-- Behind a run stands no token that would go on with it. -/
theorem Parser.next?_of_splitRun {α : Type} {r : TokenKind → Option α} {feed rest : Feed}
    {found : List α} (h : splitRun r feed feed.tokens = (found, rest)) :
    ∀ token ∈ rest.next?, r token.kind = none := by
  intro token ht
  rw [Seam.splitRun_eq] at h
  rw [← (Prod.mk.inj h).2] at ht
  have hnot := List.head?_dropWhile_not (Seam.inRun r) feed.tokens
  rw [show (feed.tokens.dropWhile (Seam.inRun r)).head? = some token from ht] at hnot
  simpa [Seam.inRun] using hnot

namespace Feed.Behind

variable {tokens done handed : List Token} {feed : Feed}

theorem ofTokens (file : String) (tokens : List Token) :
    (Feed.ofTokens file tokens).Behind tokens [] [] := ⟨rfl, rfl, rfl⟩

theorem mem (h : feed.Behind tokens done handed) {token : Token} (ht : token ∈ done) :
    token ∈ tokens := by
  rw [h.tokens_eq]
  exact List.mem_append_left _ ht

/-- Taking a token moves it behind the feed. -/
theorem advance (h : feed.Behind tokens done handed) {token : Token}
    (hnext : feed.next? = some token) : feed.advance.Behind tokens (done ++ [token]) handed := by
  obtain ⟨left, hleft⟩ := List.head?_eq_some_iff.1 hnext
  constructor
  · rw [h.tokens_eq, hleft, Feed.advance, hleft, List.append_assoc, List.singleton_append]
  · simp [Feed.advance, hleft]
  · rw [← h.carried_eq, Feed.advance, hleft]

/-- Other comments may be handed over in place of those that were. -/
theorem swapCarried (h : feed.Behind tokens done handed) (others : List Token) :
    Feed.Behind tokens done others { feed with carried := commentsOf others } :=
  ⟨h.tokens_eq, h.lastEnd_eq, rfl⟩

/-- A run takes the tokens that it reads, up to one that it does not. -/
theorem exists_splitRun (h : feed.Behind tokens done handed) {α : Type} {r : TokenKind → Option α}
    {found : List α} {rest : Feed}
    (hrun : Parser.splitRun r feed feed.tokens = (found, rest)) :
    ∃ used, rest.Behind tokens (done ++ used) handed ∧
      found = used.filterMap (fun token => r token.kind) ∧
      (∀ token ∈ used, (r token.kind).isSome) ∧ ∀ token ∈ rest.next?, r token.kind = none := by
  have hnext := Parser.next?_of_splitRun hrun
  rw [Seam.splitRun_eq] at hrun
  obtain ⟨rfl, rfl⟩ := Prod.mk.inj hrun
  refine ⟨feed.tokens.takeWhile (Seam.inRun r), ⟨?_, ?_, h.carried_eq⟩, rfl, fun token ht => ?_,
    hnext⟩
  · rw [List.append_assoc, List.takeWhile_append_dropWhile]
    exact h.tokens_eq
  · rw [List.getLast?_append, Option.map_or, ← h.lastEnd_eq]
  · have hread : Seam.inRun r token = true := List.mem_takeWhile_imp ht
    exact hread

/-- What is taken between two places of a list stands between them. -/
theorem tokens_eq_append {used others : List Token} {rest : Feed}
    (h : feed.Behind tokens done handed) (hrest : rest.Behind tokens (done ++ used) others) :
    feed.tokens = used ++ rest.tokens := by
  have htokens := h.tokens_eq
  rw [hrest.tokens_eq, List.append_assoc] at htokens
  exact (List.append_cancel_left htokens).symm

end Feed.Behind

namespace Parser

variable {α β σ τ : Type} {tokens done : List Token}

/-! ## Parsers that take tokens -/

/-- Of what is taken from the tokens behind those of `done`, and the value that is given for it,
`post` holds. -/
def Takes (tokens done : List Token) (p : Parser α) (post : List Token → α → Prop) : Prop :=
  ∀ feed a rest, feed.Behind tokens done [] → p.run feed = .ok (a, rest) →
    ∃ used, rest.Behind tokens (done ++ used) [] ∧ post used a

variable {p : Parser α} {next : α → Parser β} {first post : List Token → α → Prop}
  {then_ : List Token → β → Prop}

theorem takes_pure {a : α} (h : post [] a) : Takes tokens done (pure a) post := by
  rintro feed _ _ hfeed ⟨⟩
  exact ⟨[], by rwa [List.append_nil], h⟩

theorem takes_fail (diagnostic : Diagnostic) : Takes tokens done (fail diagnostic) post := by
  rintro feed _ _ - ⟨⟩

/-- What two parsers take is what the first takes and then the second. -/
theorem Takes.bind (hp : Takes tokens done p first)
    (hnext : ∀ used a, first used a →
      Takes tokens (done ++ used) (next a) fun more b => then_ (used ++ more) b) :
    Takes tokens done (p >>= next) then_ := by
  intro feed b rest hfeed hrun
  rw [bind_run] at hrun
  split at hrun
  · next a mid hmid =>
    obtain ⟨used, hbehind, ha⟩ := hp feed a mid hfeed hmid
    obtain ⟨more, hrest, hb⟩ := hnext used a ha mid b rest hbehind hrun
    exact ⟨used ++ more, by rwa [← List.append_assoc], hb⟩
  · cases hrun

theorem Takes.mono {post' : List Token → α → Prop} (h : Takes tokens done p post)
    (hpost : ∀ used a, post used a → post' used a) : Takes tokens done p post' := by
  intro feed a rest hfeed hrun
  obtain ⟨used, hrest, ha⟩ := h feed a rest hfeed hrun
  exact ⟨used, hrest, hpost used a ha⟩

/-- What is taken are tokens of the list. -/
theorem Takes.mem (h : Takes tokens done p post) :
    Takes tokens done p fun used a => post used a ∧ ∀ token ∈ used, token ∈ tokens := by
  intro feed a rest hfeed hrun
  obtain ⟨used, hrest, ha⟩ := h feed a rest hfeed hrun
  exact ⟨used, hrest, ha, fun token ht => hrest.mem (List.mem_append_right _ ht)⟩

theorem takes_ite {b : Bool} {q : Parser α} (hp : b = true → Takes tokens done p post)
    (hq : b = false → Takes tokens done q post) : Takes tokens done (if b then p else q) post := by
  cases b with
  | true => exact hp rfl
  | false => exact hq rfl

/-! ## Single tokens -/

/-- One token is taken. -/
theorem takes_expect {want : Want α}
    (h : ∀ token a, want.read token = some a → post [token] a) :
    Takes tokens done (expect want) post := by
  intro feed a rest hfeed hrun
  rw [expect_run] at hrun
  split at hrun
  · next b hread =>
    obtain ⟨rfl, rfl⟩ : b = a ∧ feed.advance = rest := by simpa using hrun
    obtain ⟨token, hnext, hread⟩ := Option.bind_eq_some_iff.1 hread
    exact ⟨[token], hfeed.advance hnext, h token b hread⟩
  · cases hrun

/-- A look takes nothing. -/
theorem takes_nextIs {post : List Token → Bool → Prop} (kind : TokenKind) (h : ∀ b, post [] b) :
    Takes tokens done (nextIs kind) post := by
  rintro feed _ _ hfeed ⟨⟩
  exact ⟨[], by rwa [List.append_nil], h _⟩

theorem takes_takeIf {post : List Token → Bool → Prop} {kind : TokenKind} (hfalse : post [] false)
    (htrue : ∀ token : Token, token.kind = kind → post [token] true) :
    Takes tokens done (takeIf kind) post := by
  intro feed a rest hfeed hrun
  rw [takeIf_eq, bind_run, feed_run] at hrun
  cases hnext : feed.nextIs kind with
  | false =>
    simp only [hnext, Bool.false_eq_true, if_false, pure_run] at hrun
    cases hrun
    exact ⟨[], by rwa [List.append_nil], hfalse⟩
  | true =>
    simp only [hnext, if_true, bind_run, advance_run, pure_run] at hrun
    cases hrun
    obtain ⟨token, hhead, hkind⟩ := Feed.exists_next?_of_nextIs hnext
    exact ⟨[token], hfeed.advance hhead, htrue token hkind⟩

/-- No comment is wanted. -/
def Want.Silent (want : Want α) : Prop :=
  ∀ token a, want.read token = some a → token.kind.comment? = none

/-- Only solid tokens are wanted. -/
def Want.Solid (want : Want α) : Prop := ∀ token a, want.read token = some a → token.IsSolid

theorem Want.Solid.silent {want : Want α} (h : want.Solid) : want.Silent :=
  fun token a hread => (h token a hread).2

theorem Want.silent_mark (mark : Punctuator) : (Want.mark mark).Silent := by
  intro token a hread
  simp only [Want.mark, Option.ite_none_right_eq_some] at hread
  rw [hread.1]
  rfl

theorem Want.solid_mark {mark : Punctuator} (h : mark ≠ .comma) : (Want.mark mark).Solid := by
  intro token a hread
  simp only [Want.mark, Option.ite_none_right_eq_some] at hread
  exact ⟨by simpa [hread.1] using h, Want.silent_mark mark token a (by simp [Want.mark, hread])⟩

theorem Want.solid_keyword (word : Keyword) : (Want.keyword word).Solid := by
  intro token a hread
  simp only [Want.keyword, Option.ite_none_right_eq_some] at hread
  exact ⟨by simp [hread.1], by rw [hread.1]; rfl⟩

theorem Want.solid_name (what : String) : (Want.name what).Solid := by
  intro token a hread
  obtain ⟨name, hname, -⟩ := Option.map_eq_some_iff.1 hread
  exact Token.isSolid_of_name? hname

theorem Want.solid_literal : Want.literal.Solid := fun _ _ hread =>
  Token.isSolid_of_literal? hread

theorem Want.solid_listItem : Want.listItem.Solid := by
  intro token a hread
  simp only [Want.listItem] at hread
  split at hread
  · next hkind => exact ⟨by simp [hkind], by rw [hkind]; rfl⟩
  · obtain ⟨text, htext, -⟩ := Option.map_eq_some_iff.1 hread
    exact Token.isSolid_of_literal? htext

theorem Want.solid_definition : Want.definition.Solid := by
  intro token a hread
  obtain ⟨word, hword, -⟩ := Option.map_eq_some_iff.1 hread
  have hkind : token.kind = .keyword word.keyword := by simpa using List.find?_some hword
  exact ⟨by simp [hkind], by rw [hkind]; rfl⟩

/-! ## Runs of tokens -/

/-- A run takes tokens that belong to it. -/
theorem takes_takeRun {r : TokenKind → Option α} {post : List Token → List α → Prop}
    (h : ∀ used : List Token, (∀ token ∈ used, (r token.kind).isSome) →
      post used (used.filterMap fun token => r token.kind)) :
    Takes tokens done (takeRun r) post := by
  intro feed found rest hfeed hrun
  obtain ⟨used, hbehind, rfl, hused, -⟩ := hfeed.exists_splitRun (Except.ok.inj hrun)
  exact ⟨used, hbehind, h used hused⟩

/-! ## Loops -/

/-- What holds of the feed behind a loop, if every round keeps an invariant. -/
theorem of_loop_run {turn : σ → Parser (α ⊕ τ)} {want : Want β} {body : τ → β → Parser σ}
    (inv : σ → Feed → Prop) (final : α → Feed → Prop)
    (hend : ∀ state feed a rest, inv state feed → (turn state).run feed = .ok (.inl a, rest) →
      final a rest)
    (hround : ∀ state feed entry rest₁ next rest₂, inv state feed →
      (turn state).run feed = .ok (.inr entry, rest₁) →
        (expect want >>= body entry).run rest₁ = .ok (next, rest₂) → inv next rest₂)
    {state : σ} {feed rest : Feed} {a : α} (h : inv state feed)
    (hrun : (loop turn want body state).run feed = .ok (a, rest)) : final a rest := by
  change runLoop turn want body state feed = .ok (a, rest) at hrun
  fun_induction runLoop turn want body state feed with
  | case1 => cases hrun
  | case2 state feed result rest₁ h₁ =>
    cases hrun
    exact hend state feed _ _ h h₁
  | case3 => cases hrun
  | case4 => cases hrun
  | case5 state feed entry rest₁ h₁ b rest₂ h₂ next rest₃ h₃ ih =>
    refine ih (hround state feed entry rest₁ next rest₃ h h₁ ?_) hrun
    rw [bind_run, h₂]
    exact h₃

/-- **What a loop takes**, if every round keeps an invariant of the tokens taken and the state. -/
theorem takes_loop {turn : σ → Parser (α ⊕ τ)} {want : Want β} {body : τ → β → Parser σ}
    (inv : List Token → σ → Prop) (mid : List Token → τ → Prop) {post : List Token → α → Prop}
    (hturn : ∀ used state, inv used state → Takes tokens (done ++ used) (turn state)
      fun more turned => Sum.elim (post (used ++ more)) (mid (used ++ more)) turned)
    (hbody : ∀ used entry, mid used entry → Takes tokens (done ++ used)
      (expect want >>= body entry) fun more state => inv (used ++ more) state)
    {state : σ} (h : inv [] state) : Takes tokens done (loop turn want body state) post := by
  intro feed a rest hfeed hrun
  refine of_loop_run
    (fun state feed => ∃ used, feed.Behind tokens (done ++ used) [] ∧ inv used state)
    (fun a rest => ∃ used, rest.Behind tokens (done ++ used) [] ∧ post used a)
    (fun state feed a rest hinv h₁ => ?_) (fun state feed entry rest₁ next rest₂ hinv h₁ h₂ => ?_)
    ⟨[], by rwa [List.append_nil], h⟩ hrun
  · obtain ⟨used, hbehind, hstate⟩ := hinv
    obtain ⟨more, hrest, ha⟩ := hturn used state hstate feed _ rest hbehind h₁
    exact ⟨used ++ more, by rwa [← List.append_assoc], ha⟩
  · obtain ⟨used, hbehind, hstate⟩ := hinv
    obtain ⟨more, hbehind₁, hmid⟩ := hturn used state hstate feed _ rest₁ hbehind h₁
    rw [List.append_assoc] at hbehind₁
    obtain ⟨taken, hbehind₂, hnext⟩ := hbody (used ++ more) entry hmid rest₁ next rest₂ hbehind₁ h₂
    exact ⟨used ++ more ++ taken, by simpa only [List.append_assoc] using hbehind₂, hnext⟩

/-! ## Documentation -/

section

variable {done handed : List Token} {feed rest : Feed}

/-- Commas are taken up to the next token of another kind. -/
theorem exists_skipCommas_run (h : feed.Behind tokens done handed)
    (hrun : skipCommas.run feed = .ok ((), rest)) :
    ∃ commas, rest.Behind tokens (done ++ commas) handed ∧ AllCommas commas ∧
      ∀ token ∈ rest.next?, token.kind ≠ .punctuator .comma := by
  simp only [skipCommas, bind_run, takeRun_run, pure_run, Except.ok.injEq, Prod.mk.injEq,
    true_and] at hrun
  subst hrun
  obtain ⟨commas, hbehind, -, hcommas, hnext⟩ := h.exists_splitRun rfl
  exact ⟨commas, hbehind, fun token ht => by simpa using hcommas token ht,
    fun token ht => by simpa using hnext token ht⟩

/-- Descriptions start with those that are carried over. -/
theorem exists_lead_of_descriptions_run {texts : List String} (h : feed.Behind tokens done handed)
    (hrun : descriptions.run feed = .ok (texts, rest)) :
    ∃ lead, rest.Behind tokens (done ++ lead) [] ∧ AllDescriptions lead ∧
      texts = commentsOf handed ++ descriptionsOf lead := by
  simp only [descriptions, bind_run, swapCarried_run, takeRun_run, pure_run, Except.ok.injEq,
    Prod.mk.injEq] at hrun
  obtain ⟨rfl, rfl⟩ := hrun
  obtain ⟨lead, hbehind, hfound, hlead, -⟩ := (h.swapCarried []).exists_splitRun rfl
  exact ⟨lead, hbehind, hlead, congrArg₂ (· ++ ·) h.carried_eq hfound⟩

end

theorem takes_skipCommas {post : List Token → Unit → Prop}
    (h : ∀ commas, AllCommas commas → post commas ()) : Takes tokens done skipCommas post := by
  intro feed _ rest hfeed hrun
  obtain ⟨commas, hbehind, hcommas, -⟩ := exists_skipCommas_run hfeed hrun
  exact ⟨commas, hbehind, h commas hcommas⟩

theorem takes_descriptions {post : List Token → List String → Prop}
    (h : ∀ lead, AllDescriptions lead → post lead (descriptionsOf lead)) :
    Takes tokens done descriptions post := by
  intro feed texts rest hfeed hrun
  obtain ⟨lead, hbehind, hlead, rfl⟩ := exists_lead_of_descriptions_run hfeed hrun
  exact ⟨lead, hbehind, h lead hlead⟩

theorem takes_innerComments {post : List Token → List String → Prop}
    (h : ∀ comments, AllComments comments → post comments (commentsOf comments)) :
    Takes tokens done innerComments post := takes_takeRun h

/-! ## Rounds between brackets -/

section Turn

variable {done : List Token} {feed rest : Feed} {stop : List String → α} {go : List String → τ}
  {turned : α ⊕ τ}

/-- A round takes commas and documentation, and ends the loop in front of the closing bracket. -/
theorem exists_turnInParens_run (h : feed.Behind tokens done [])
    (hrun : (turnInParens stop go).run feed = .ok (turned, rest)) :
    ∃ before lead after, rest.Behind tokens (done ++ before ++ lead ++ after) [] ∧
      AllCommas before ∧ AllDescriptions lead ∧ AllCommas after ∧
      (turned = .inr (go (descriptionsOf lead)) ∨ turned = .inl (stop (descriptionsOf lead)) ∧
        ∃ closer ∈ rest.next?, closer.kind = .punctuator .parenClose) := by
  simp only [turnInParens, bind_run] at hrun
  split at hrun
  · next _ rest₁ h₁ =>
    split at hrun
    · next texts rest₂ h₂ =>
      split at hrun
      · next _ rest₃ h₃ =>
        obtain ⟨before, hbehind₁, hbefore, -⟩ := exists_skipCommas_run h h₁
        obtain ⟨lead, hbehind₂, hlead, rfl⟩ := exists_lead_of_descriptions_run hbehind₁ h₂
        obtain ⟨after, hbehind₃, hafter, -⟩ := exists_skipCommas_run hbehind₂ h₃
        refine ⟨before, lead, after, ?_⟩
        cases hclose : rest₃.nextIs (.punctuator .parenClose) with
        | false =>
          simp only [nextIs, bind_run, feed_run, pure_run, hclose, Bool.false_eq_true,
            if_false] at hrun
          obtain ⟨rfl, rfl⟩ := Prod.mk.inj (Except.ok.inj hrun)
          exact ⟨hbehind₃, hbefore, hlead, hafter, .inl rfl⟩
        | true =>
          simp only [nextIs, bind_run, feed_run, pure_run, hclose, if_true] at hrun
          obtain ⟨rfl, rfl⟩ := Prod.mk.inj (Except.ok.inj hrun)
          exact ⟨hbehind₃, hbefore, hlead, hafter, .inr ⟨rfl, Feed.exists_next?_of_nextIs hclose⟩⟩
      · cases hrun
    · cases hrun
  · cases hrun

/-- The look for the brace takes nothing. -/
theorem closesBraces_run {expected : List String} {opening : Span} {closes : Bool}
    (hrun : (closesBraces expected opening).run feed = .ok (closes, rest)) :
    rest = feed ∧
      (closes = true → ∃ closer ∈ rest.next?, closer.kind = .punctuator .braceClose) := by
  simp only [closesBraces, bind_run, feed_run] at hrun
  split at hrun
  · cases hrun
    exact ⟨rfl, by simp⟩
  · next token hnext =>
    split at hrun
    · next hclose =>
      cases hrun
      exact ⟨rfl, fun _ => ⟨token, hnext, hclose⟩⟩
    · split at hrun
      · cases hrun
        exact ⟨rfl, by simp⟩
      · cases hrun

/-- A turn takes commas and documentation, and ends the body in front of its brace. -/
theorem exists_turnInBraces_run {expected : List String} {opening : Span}
    (h : feed.Behind tokens done [])
    (hrun : (turnInBraces stop go expected opening).run feed = .ok (turned, rest)) :
    ∃ before lead, rest.Behind tokens (done ++ before ++ lead) [] ∧
      AllCommas before ∧ AllDescriptions lead ∧
      (turned = .inr (go (descriptionsOf lead)) ∨ turned = .inl (stop (descriptionsOf lead)) ∧
        ∃ closer ∈ rest.next?, closer.kind = .punctuator .braceClose) := by
  simp only [turnInBraces, bind_run] at hrun
  split at hrun
  · next _ rest₁ h₁ =>
    split at hrun
    · next texts rest₂ h₂ =>
      split at hrun
      · next closes rest₃ h₃ =>
        obtain ⟨before, hbehind₁, hbefore, -⟩ := exists_skipCommas_run h h₁
        obtain ⟨lead, hbehind₂, hlead, rfl⟩ := exists_lead_of_descriptions_run hbehind₁ h₂
        obtain ⟨rfl, hcloser⟩ := closesBraces_run h₃
        refine ⟨before, lead, ?_⟩
        cases closes with
        | false =>
          simp only [Bool.false_eq_true, if_false, pure_run] at hrun
          obtain ⟨rfl, rfl⟩ := Prod.mk.inj (Except.ok.inj hrun)
          exact ⟨hbehind₂, hbefore, hlead, .inl rfl⟩
        | true =>
          simp only [if_true, pure_run] at hrun
          obtain ⟨rfl, rfl⟩ := Prod.mk.inj (Except.ok.inj hrun)
          exact ⟨hbehind₂, hbefore, hlead, .inr ⟨rfl, hcloser rfl⟩⟩
      · cases hrun
    · cases hrun
  · cases hrun

end Turn

end Parser

end SchemaMerge
