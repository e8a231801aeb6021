import SchemaMerge.Proofs.Reading.Feed
import SchemaMerge.Reading.Member

/-!
# What parsers read from a text

`Leads p pre post` says that `p` succeeds on every feed with `pre` and leaves value and feed with
`post`. Mostly a parser is run in front of a known text: `Reads p cs good rest` says that `p` takes
all of `cs` up to `rest` and gives a good value. There is one rule for each way to build a parser;
`leads_loop` is the one for loops, which follows a list of entries. The rounds that several loops
share have names (`turnInParens`, `turnInBraces`).
-/

namespace SchemaMerge.Parser

variable {α β σ τ ε : Type}

/-- The parser succeeds on every feed with `pre`, and what it leaves has `post`. -/
def Leads (p : Parser α) (pre : Feed → Prop) (post : α → Feed → Prop) : Prop :=
  ∀ feed, pre feed → ∃ a rest, p.run feed = .ok (a, rest) ∧ post a rest

/-- In front of the text `cs` the parser gives a good value and stops in front of `rest`. -/
def Reads (p : Parser α) (cs : List Char) (good : α → Prop) (rest : List Char) : Prop :=
  Leads p (fun feed => feed.At cs) fun a feed => good a ∧ feed.At rest

/-! ## Sequences -/

theorem leads_pure {pre : Feed → Prop} {post : α → Feed → Prop} {a : α}
    (h : ∀ feed, pre feed → post a feed) : Leads (pure a) pre post :=
  fun feed hfeed => ⟨a, feed, rfl, h feed hfeed⟩

/-- A parser leads on from where the one before it stops. -/
theorem Leads.bind {p : Parser α} {f : α → Parser β} {pre : Feed → Prop}
    {mid : α → Feed → Prop} {post : β → Feed → Prop} (hp : Leads p pre mid)
    (hf : ∀ a, Leads (f a) (mid a) post) : Leads (p >>= f) pre post := by
  intro feed hfeed
  obtain ⟨a, feed₁, hrun, hmid⟩ := hp feed hfeed
  obtain ⟨b, feed₂, hrun₂, hpost⟩ := hf a feed₁ hmid
  exact ⟨b, feed₂, by rw [bind_run, hrun]; exact hrun₂, hpost⟩

theorem Leads.mono {p : Parser α} {pre : Feed → Prop} {post post' : α → Feed → Prop}
    (h : Leads p pre post) (hpost : ∀ a feed, post a feed → post' a feed) : Leads p pre post' := by
  intro feed hfeed
  obtain ⟨a, rest, hrun, ha⟩ := h feed hfeed
  exact ⟨a, rest, hrun, hpost a rest ha⟩

section

variable {p : Parser α} {f : α → Parser β} {cs mid rest : List Char} {good good' : α → Prop}
  {goodNext : β → Prop}

theorem reads_pure {a : α} (h : good a) : Reads (pure a) cs good cs :=
  leads_pure fun _ hfeed => ⟨h, hfeed⟩

/-- A text is read in two parts, one behind the other. -/
theorem Reads.bind (hp : Reads p cs good mid) (hf : ∀ a, good a → Reads (f a) mid goodNext rest) :
    Reads (p >>= f) cs goodNext rest :=
  Leads.bind hp fun a feed hfeed => hf a hfeed.1 feed hfeed.2

theorem Reads.bind_eq {a : α} (hp : Reads p cs (· = a) mid)
    (hf : Reads (f a) mid goodNext rest) : Reads (p >>= f) cs goodNext rest :=
  hp.bind fun _ ha => ha ▸ hf

/-- What is read is followed by a parser that need not stop in front of a text. -/
theorem Reads.leads {post : β → Feed → Prop} (hp : Reads p cs good mid)
    (hf : ∀ a, good a → Leads (f a) (fun feed => feed.At mid) post) :
    Leads (p >>= f) (fun feed => feed.At cs) post :=
  Leads.bind hp fun a feed hfeed => hf a hfeed.1 feed hfeed.2

theorem Reads.leads_eq {post : β → Feed → Prop} {a : α} (hp : Reads p cs (· = a) mid)
    (hf : Leads (f a) (fun feed => feed.At mid) post) :
    Leads (p >>= f) (fun feed => feed.At cs) post :=
  hp.leads fun _ ha => ha ▸ hf

theorem Reads.mono (h : Reads p cs good rest) (hgood : ∀ a, good a → good' a) :
    Reads p cs good' rest :=
  Leads.mono h fun a _ ha => ⟨hgood a ha.1, ha.2⟩

end

/-! ## Single tokens -/

section

variable {cs rest : List Char} {kind wanted : TokenKind} {mark : Punctuator}

/-- An expected token that the text begins with is taken. -/
theorem leads_expect {want : Want α} {good : α → Prop} (hcs : Begins cs kind rest)
    (hgood : ∀ span, ∃ a, want.read ⟨kind, span⟩ = some a ∧ good a) :
    Leads (expect want) (fun feed => feed.Before cs) fun a feed => good a ∧ feed.At rest := by
  intro feed hfeed
  obtain ⟨span, hnext⟩ := hfeed.next? hcs.next
  obtain ⟨a, hread, ha⟩ := hgood span
  refine ⟨a, feed.advance, ?_, ha, hfeed.advance hcs⟩
  rw [expect_run, hnext, Option.bind_some, hread]

theorem reads_expect {want : Want α} {good : α → Prop} (hcs : Begins cs kind rest)
    (hgood : ∀ span, ∃ a, want.read ⟨kind, span⟩ = some a ∧ good a) :
    Reads (expect want) cs good rest :=
  fun feed hfeed => leads_expect hcs hgood feed hfeed.before

theorem reads_mark (hcs : Begins cs (.punctuator mark) rest) :
    Reads (expect (.mark mark)) cs (fun _ => True) rest :=
  reads_expect hcs fun span => ⟨span, by simp [Want.mark], trivial⟩

theorem reads_keyword {word : Keyword} (hcs : Begins cs (.keyword word) rest) :
    Reads (expect (.keyword word)) cs (fun _ => True) rest :=
  reads_expect hcs fun span => ⟨span, by simp [Want.keyword], trivial⟩

/-- A name is read with some span. -/
theorem reads_name {name what : String} (hcs : Begins cs kind rest)
    (hname : kind.name? = some name) :
    Reads (expect (.name what)) cs (fun found => found.1 = name) rest :=
  reads_expect hcs fun span => ⟨(name, span), by simp [Want.name, hname], rfl⟩

/-- A look at the next token takes nothing. -/
theorem reads_nextIs (hk : Next cs kind) :
    Reads (nextIs wanted) cs (· = decide (kind = wanted)) cs := fun feed hfeed =>
  ⟨_, feed, rfl, hfeed.before.nextIs_of_next hk wanted, hfeed⟩

theorem reads_nextIs_self (hk : Next cs kind) : Reads (nextIs kind) cs (· = true) cs :=
  (reads_nextIs hk).mono fun _ ha => ha.trans (decide_eq_true rfl)

theorem reads_nextIs_ne (hk : Next cs kind) (hne : kind ≠ wanted) :
    Reads (nextIs wanted) cs (· = false) cs :=
  (reads_nextIs hk).mono fun _ ha => ha.trans (decide_eq_false hne)

theorem reads_nextIs_of_not_next (hm : ¬Next cs (.punctuator mark)) :
    Reads (nextIs (.punctuator mark)) cs (· = false) cs := fun feed hfeed =>
  ⟨_, feed, rfl, hfeed.nextIs_punctuator_of_not_next hm, hfeed⟩

/-- A token that is there is taken. -/
theorem reads_takeIf_self (hcs : Begins cs kind rest) :
    Reads (takeIf kind) cs (· = true) rest :=
  (reads_nextIs_self hcs.next).bind_eq fun feed hfeed =>
    ⟨true, feed.advance, rfl, rfl, hfeed.before.advance hcs⟩

/-- A token that is not there is left out. -/
theorem reads_takeIf_of_not (h : Reads (nextIs wanted) cs (· = false) cs) :
    Reads (takeIf wanted) cs (· = false) cs :=
  h.bind_eq (reads_pure rfl)

end

/-! ## Runs of tokens -/

section

variable {f : TokenKind → Option α} {cs mid rest : List Char} {kind : TokenKind}

/-- A run of which the next token is no part takes nothing. -/
theorem takeRun_run_of_next? {feed : Feed} {token : Token} (h : feed.next? = some token)
    (hf : f token.kind = none) : (takeRun f).run feed = .ok ([], feed) := by
  obtain ⟨tokens, htokens⟩ : ∃ tokens, feed.tokens = token :: tokens := List.head?_eq_some_iff.1 h
  rw [takeRun_run, htokens, splitRun]
  simp only [hf, ← htokens]

/-- A run is empty if the next token does not belong to it. -/
theorem reads_takeRun_nil (hk : Next cs kind) (hf : f kind = none) :
    Reads (takeRun f) cs (· = []) cs := by
  intro feed hfeed
  obtain ⟨span, hnext⟩ := hfeed.next? hk
  exact ⟨[], feed, takeRun_run_of_next? hnext hf, rfl, hfeed⟩

theorem splitRun_with_tokens (feed : Feed) (others tokens : List Token) :
    splitRun f { feed with tokens := others } tokens = splitRun f feed tokens := by
  induction tokens generalizing feed with
  | nil => rfl
  | cons token tokens ih =>
    unfold splitRun
    cases f token.kind with
    | none => rfl
    | some a => simp only [ih { feed with lastEnd := some token.span.stop }]

/-- A run is its first token and the run behind it. -/
theorem leads_takeRun_cons {a : α} {as : List α} (hcs : Begins cs kind mid) (hf : f kind = some a)
    (h : Reads (takeRun f) mid (· = as) rest) :
    Leads (takeRun f) (fun feed => feed.Before cs) fun found feed =>
      found = a :: as ∧ feed.At rest := by
  intro feed hfeed
  obtain ⟨span, tokens, htokens, hmid⟩ := hfeed.tokens_eq hcs
  obtain ⟨bs, feed', hrun, rfl, hrest⟩ := h _ hmid
  refine ⟨a :: bs, feed', ?_, rfl, hrest⟩
  have hsplit : splitRun f { feed with lastEnd := some span.stop } tokens = (bs, feed') := by
    rw [← splitRun_with_tokens _ tokens]
    exact Except.ok.inj hrun
  rw [takeRun_run, htokens, splitRun]
  simp only [hf, hsplit]

theorem reads_takeRun_cons {a : α} {as : List α} (hcs : Begins cs kind mid) (hf : f kind = some a)
    (h : Reads (takeRun f) mid (· = as) rest) : Reads (takeRun f) cs (· = a :: as) rest :=
  fun feed hfeed => leads_takeRun_cons hcs hf h feed hfeed.before

end

/-! ## Loops -/

section Loop

variable (turn : σ → Parser (α ⊕ τ)) (want : Want β) (body : τ → β → Parser σ)

/-- One round of a loop, which ends the loop with a result or leads to the next state. -/
def round (state : σ) : Parser (α ⊕ σ) :=
  turn state >>= fun
    | .inl result => pure (.inl result)
    | .inr entry => expect want >>= fun b => body entry b >>= fun next => pure (.inr next)

/-- A loop is its first round and the loop from there on. -/
theorem loop_eq_round (state : σ) :
    loop turn want body state =
      round turn want body state >>= fun
        | .inl result => pure result
        | .inr next => loop turn want body next := by
  rw [loop_eq]
  ext feed
  simp only [round, bind_run]
  cases (turn state).run feed with
  | error => rfl
  | ok turned =>
    obtain ⟨result | entry, rest⟩ := turned
    · rfl
    · simp only [bind_run]
      cases (expect want).run rest with
      | error => rfl
      | ok found =>
        simp only
        cases (body entry found.1).run found.2 <;> rfl

variable {turn want body}

/-- **A loop follows a list of entries**, if each round takes one of them and the round behind them
ends it. -/
theorem leads_loop {inv : List ε → σ → Feed → Prop} {post : α → Feed → Prop}
    (hend : ∀ state, Leads (turn state) (inv [] state) fun turned feed =>
      ∃ result, turned = .inl result ∧ post result feed)
    (hstep : ∀ entry entries state, Leads (round turn want body state)
      (inv (entry :: entries) state) fun turned feed =>
        ∃ next, turned = .inr next ∧ inv entries next feed)
    (entries : List ε) (state : σ) :
    Leads (loop turn want body state) (inv entries state) post := by
  induction entries generalizing state with
  | nil =>
    rw [loop_eq]
    refine (hend state).bind fun turned feed => ?_
    rintro ⟨result, rfl, hpost⟩
    exact ⟨result, feed, rfl, hpost⟩
  | cons entry entries ih =>
    rw [loop_eq_round]
    refine (hstep entry entries state).bind fun turned feed => ?_
    rintro ⟨next, rfl, hinv⟩
    exact ih next feed hinv

/-- A loop reads entry by entry; the invariant tells which entries are still to come. -/
theorem reads_loop {inv : List ε → σ → List Char → Prop} {good : α → Prop} {rest : List Char}
    (hend : ∀ state cs, inv [] state cs → Reads (turn state) cs
      (fun turned => ∃ result, turned = .inl result ∧ good result) rest)
    (hstep : ∀ entry entries state cs, inv (entry :: entries) state cs →
      ∃ mid, Reads (round turn want body state) cs
        (fun turned => ∃ next, turned = .inr next ∧ inv entries next mid) mid)
    {entries : List ε} {state : σ} {cs : List Char} (h : inv entries state cs) :
    Reads (loop turn want body state) cs good rest := by
  intro feed hfeed
  have hloop := @leads_loop α β σ τ ε turn want body
    (fun entries state feed => ∃ cs, inv entries state cs ∧ feed.At cs)
    (fun result feed => good result ∧ feed.At rest) ?_ ?_ entries state
  · exact hloop feed ⟨cs, h, hfeed⟩
  · rintro state feed ⟨cs, hinv, hfeed⟩
    obtain ⟨_, feed', hrun, ⟨result, rfl, hgood⟩, hrest⟩ := hend state cs hinv feed hfeed
    exact ⟨_, feed', hrun, result, rfl, hgood, hrest⟩
  · rintro entry entries state feed ⟨cs, hinv, hfeed⟩
    obtain ⟨mid, hround⟩ := hstep entry entries state cs hinv
    obtain ⟨_, feed', hrun, ⟨next, rfl, hnext⟩, hmid⟩ := hround feed hfeed
    exact ⟨_, feed', hrun, next, rfl, mid, hnext, hmid⟩

theorem leads_round (entry : τ) {state : σ} {pre mid : Feed → Prop} {post : σ → Feed → Prop}
    (hturn : Leads (turn state) pre fun turned feed => turned = .inr entry ∧ mid feed)
    (hbody : Leads (expect want >>= body entry) mid post) :
    Leads (round turn want body state) pre fun turned feed =>
      ∃ next, turned = .inr next ∧ post next feed := by
  refine hturn.bind fun turned feed hfeed => ?_
  obtain ⟨rfl, hmid⟩ := hfeed
  obtain ⟨next, feed', hrun, hnext⟩ := hbody feed hmid
  refine ⟨.inr next, feed', ?_, next, rfl, hnext⟩
  simp only [bind_run] at hrun ⊢
  split at hrun
  · simp only [hrun, pure_run]
  · cases hrun

/-- A round is a turn that goes on, the wanted token and the body. -/
theorem reads_round (good : σ → Prop) (entry : τ) (mid : List Char) {state : σ}
    {cs rest : List Char}
    (hturn : Reads (turn state) cs (· = .inr entry) mid)
    (hbody : Reads (expect want >>= body entry) mid good rest) :
    Reads (round turn want body state) cs (fun turned => ∃ next, turned = .inr next ∧ good next)
      rest :=
  Leads.mono (leads_round entry hturn hbody) fun _ _ ⟨next, hnext, hgood, hrest⟩ =>
    ⟨⟨next, hnext, hgood⟩, hrest⟩

end Loop

/-! ## Rounds between brackets -/

section Turn

variable (stop : List String → α) (go : List String → τ)

/-- A round between parentheses, past commas and descriptions: it stops at the closing parenthesis,
or goes on to an entry that the descriptions describe. -/
def turnInParens : Parser (α ⊕ τ) := do
  skipCommas
  let texts ← descriptions
  skipCommas
  if ← nextIs (.punctuator .parenClose) then return .inl (stop texts) else return .inr (go texts)

/-- A round between braces, past commas and descriptions: it stops at the closing brace, or goes on
to an entry that the descriptions describe. -/
def turnInBraces (expected : List String) (opening : Span) : Parser (α ⊕ τ) := do
  skipCommas
  let texts ← descriptions
  if ← closesBraces expected opening then return .inl (stop texts) else return .inr (go texts)

end Turn

end SchemaMerge.Parser
