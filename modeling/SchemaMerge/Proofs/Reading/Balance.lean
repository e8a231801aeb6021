import SchemaMerge.Proofs.Reading.Remarks

/-!
# Parsers keep the comments that they read

`Saves tokens p base kept` balances the comments that `p` reads against those of what it gives.
Comments may have been read before, and given to `p` to keep: they are `base`. With those among the
tokens that `p` takes they are the ones that its value has (`kept`), and those that are dropped,
which dangle. There is one rule for each way to build a parser and one lemma for each production. A
definition whose header is followed by no body hands comments over, which are balanced with the next
one: `Accounts` leaves them open.
-/

namespace SchemaMerge

/-! ## Balanced comments -/

/-- The comments read before and those among the tokens that are taken are those that are kept and
those that are dropped, which dangle. -/
def Balances (tokens used : List Token) (base kept : Multiset String) : Prop :=
  ∃ dropped : List Token, dropped.Sublist used ∧
    (∀ comment ∈ dropped, comment.kind.comment?.isSome ∧ Dangles tokens comment) ∧
      base + commentsOf used = kept + commentsOf dropped

section

variable {tokens used more : List Token} {base mid kept : Multiset String}

theorem balances_keep (h : mid = base + commentsOf used) : Balances tokens used base mid :=
  ⟨[], List.nil_sublist _, List.forall_mem_nil _, by simp [h]⟩

/-- Tokens without comments leave the balance as it is. -/
theorem balances_silent (h : commentsOf used = []) : Balances tokens used base base :=
  balances_keep (by simp [h])

/-- What the first tokens leave is what the next ones start with. -/
theorem Balances.append (h : Balances tokens used base mid)
    (hmore : Balances tokens more mid kept) : Balances tokens (used ++ more) base kept := by
  obtain ⟨dropped, hsub, hdangles, hsum⟩ := h
  obtain ⟨dropped', hsub', hdangles', hsum'⟩ := hmore
  refine ⟨dropped ++ dropped', hsub.append hsub',
    List.forall_mem_append.2 ⟨hdangles, hdangles'⟩, ?_⟩
  rw [commentsOf_append, commentsOf_append, ← Multiset.coe_add, ← Multiset.coe_add, ← add_assoc,
    hsum, add_right_comm, hsum']
  abel

theorem Balances.add (h : Balances tokens used base kept) (others : Multiset String) :
    Balances tokens used (base + others) (kept + others) := by
  obtain ⟨dropped, hsub, hdangles, hsum⟩ := h
  exact ⟨dropped, hsub, hdangles, by rw [add_right_comm, hsum, add_right_comm]⟩

/-- Documentation that dangles may be dropped. -/
theorem balances_drop (h : ∀ token ∈ used, token.kind.comment?.isSome → Dangles tokens token) :
    Balances tokens used base base := by
  refine ⟨used.filter fun token => token.kind.comment?.isSome, List.filter_sublist,
    fun token ht => ?_, ?_⟩
  · rw [List.mem_filter] at ht
    exact ⟨ht.2, h token ht.1 ht.2⟩
  · rw [commentsOf, commentsOf, List.filterMap_filter]
    congr 3
    funext token
    cases token.kind.comment? <;> rfl

end

namespace Parser

variable {α β σ τ : Type} {tokens : List Token} {base : Multiset String}

/-! ## Rules -/

/-- All comments that the parser reads in the tokens of a text are kept or dangle. -/
def Saves (tokens : List Token) (p : Parser α) (base : Multiset String)
    (kept : α → Multiset String) : Prop :=
  (∀ token ∈ tokens, token.kind.Genuine) →
    ∀ done, Takes tokens done p fun used a => Balances tokens used base (kept a)

variable {p q : Parser α} {next : α → Parser β} {mid kept : α → Multiset String}
  {keptNext : β → Multiset String}

theorem saves_pure {a : α} (h : kept a = base) : Saves tokens (pure a) base kept :=
  fun _ _ => takes_pure (balances_keep (by simp [h]))

theorem saves_fail (diagnostic : Diagnostic) : Saves tokens (fail diagnostic) base kept :=
  fun _ _ => takes_fail diagnostic

/-- A parser goes on with the comments that the first one has kept. -/
theorem Saves.bind (hp : Saves tokens p base mid)
    (hnext : ∀ a, Saves tokens (next a) (mid a) keptNext) :
    Saves tokens (p >>= next) base keptNext := fun hgenuine done =>
  (hp hgenuine done).bind fun _ a ha => (hnext a hgenuine _).mono fun _ _ hb => ha.append hb

theorem saves_ite {b : Bool} (hp : Saves tokens p base kept) (hq : Saves tokens q base kept) :
    Saves tokens (if b then p else q) base kept := fun hgenuine done =>
  takes_ite (fun _ => hp hgenuine done) fun _ => hq hgenuine done

/-- Wanted tokens are no comments. -/
theorem saves_expect {want : Want α} (h : want.Silent) :
    Saves tokens (expect want) base fun _ => base := fun _ _ =>
  takes_expect fun token a hread => balances_silent (by simp [commentsOf, h token a hread])

theorem saves_nextIs (kind : TokenKind) : Saves tokens (nextIs kind) base fun _ => base :=
  fun _ _ => takes_nextIs kind fun _ => balances_silent rfl

theorem saves_takeIf {kind : TokenKind} (h : kind.comment? = none) :
    Saves tokens (takeIf kind) base fun _ => base := fun _ _ =>
  takes_takeIf (balances_silent rfl) fun token hkind =>
    balances_silent (by simp [commentsOf, hkind, h])

/-- **A loop saves comments** if each of its rounds does. -/
theorem saves_loop {turn : σ → Parser (α ⊕ τ)} {want : Want β} {body : τ → β → Parser σ}
    (held : σ → Multiset String) (pending : τ → Multiset String)
    (hturn : ∀ state, Saves tokens (turn state) (held state) (Sum.elim kept pending))
    (hwant : want.Silent) (hbody : ∀ entry b, Saves tokens (body entry b) (pending entry) held)
    (state : σ) (h : held state = base) : Saves tokens (loop turn want body state) base kept := by
  intro hgenuine done
  refine takes_loop (fun used state => Balances tokens used base (held state))
    (fun used entry => Balances tokens used base (pending entry)) (fun used state hinv => ?_)
    (fun used entry hmid => ?_) (balances_keep (by simp [h]))
  · refine (hturn state hgenuine _).mono fun more turned hturned => ?_
    cases turned <;> exact hinv.append hturned
  · refine ((saves_expect hwant).bind (hbody entry) hgenuine _).mono fun more state hstate => ?_
    exact hmid.append hstate

/-! ## Documentation -/

theorem saves_skipCommas : Saves tokens skipCommas base fun _ => base :=
  fun _ _ => takes_skipCommas fun _ hcommas => balances_silent hcommas.commentsOf_eq

/-- Comments among descriptions are kept as descriptions. -/
theorem saves_descriptions :
    Saves tokens descriptions base fun texts => base + remarksIn texts := by
  intro hgenuine done
  have htexts : Takes tokens done descriptions fun used texts => texts = descriptionsOf used :=
    takes_descriptions fun _ _ => rfl
  refine htexts.mem.mono fun used texts ⟨htexts, hmem⟩ => balances_keep ?_
  simp only [htexts, remarksIn_descriptionsOf fun token ht => hgenuine token (hmem token ht)]

/-- Comments that are read as such are all kept. -/
theorem saves_comments {p : Parser (List String)}
    (h : ∀ done, Takes tokens done p fun used texts => texts = commentsOf used) :
    Saves tokens p base fun texts => base + remarksIn texts := by
  intro hgenuine done
  refine (h done).mem.mono fun used texts ⟨htexts, hmem⟩ => balances_keep ?_
  simp only [htexts, remarksIn_commentsOf fun token ht => hgenuine token (hmem token ht)]

theorem saves_innerComments :
    Saves tokens innerComments base fun texts => base + remarksIn texts :=
  saves_comments fun _ => takes_innerComments fun _ _ => rfl

theorem saves_trailingComment :
    Saves tokens trailingComment base fun texts => base + remarksIn texts :=
  saves_comments fun _ => takes_trailingComment fun commas trail hcommas _ => by
    rw [commentsOf_append, hcommas.commentsOf_eq, List.nil_append]

/-- What a round between brackets reads is kept, or dropped in front of the closing bracket. -/
theorem balances_turn {done before lead after : List Token} {rest : Feed} {kept : Multiset String}
    (hgenuine : ∀ token ∈ tokens, token.kind.Genuine)
    (hrest : rest.Behind tokens (done ++ before ++ lead ++ after) []) (hbefore : AllCommas before)
    (hlead : AllDescriptions lead) (hafter : AllCommas after)
    (h : kept = base + remarksIn (descriptionsOf lead) ∨ kept = base ∧ ∃ closer ∈ rest.next?,
      closer.kind ∈ [.punctuator .braceClose, .punctuator .parenClose, .endOfText]) :
    Balances tokens (before ++ lead ++ after) base kept := by
  have hmem : ∀ token ∈ lead, token.kind.Genuine := fun token ht =>
    hgenuine token (hrest.mem (by simp [ht]))
  rcases h with rfl | ⟨rfl, closer, hnext, hcloser⟩
  · refine balances_keep ?_
    rw [remarksIn_descriptionsOf hmem, commentsOf_append, commentsOf_append,
      hbefore.commentsOf_eq, hafter.commentsOf_eq, List.nil_append, List.append_nil]
  · refine balances_drop fun comment ht hcomment => ?_
    obtain ⟨behind, hbehind⟩ := List.head?_eq_some_iff.1 hnext
    have hcomma : ∀ token ∈ before ++ after, token.kind = .punctuator .comma :=
      List.forall_mem_append.2 ⟨hbefore, hafter⟩
    refine dangles_of_closer (hbehind ▸ hrest.tokens_eq) hlead hafter ?_ hcloser
    have hnot : comment ∉ before ++ after := fun hmem =>
      ne_comma_of_comment hcomment (hcomma comment hmem)
    simp only [List.mem_append, not_or] at ht hnot
    exact (ht.resolve_right hnot.2).resolve_left hnot.1

/-- A round between parentheses keeps the documentation that it reads, or drops it in front of the
closing parenthesis. -/
theorem saves_turnInParens {stop : List String → α} {go : List String → τ}
    {pending : τ → Multiset String}
    (hstop : ∀ texts, kept (stop texts) = base + remarksIn texts ∨ kept (stop texts) = base)
    (hgo : ∀ texts, pending (go texts) = base + remarksIn texts) :
    Saves tokens (turnInParens stop go) base (Sum.elim kept pending) := by
  intro hgenuine done feed turned rest hfeed hrun
  obtain ⟨before, lead, after, hrest, hbefore, hlead, hafter, hturned⟩ :=
    exists_turnInParens_run hfeed hrun
  refine ⟨before ++ lead ++ after, by simpa using hrest,
    balances_turn hgenuine hrest hbefore hlead hafter ?_⟩
  rcases hturned with rfl | ⟨rfl, closer, hnext, hcloser⟩
  · exact .inl (hgo _)
  · exact (hstop _).imp_right fun hdropped => ⟨hdropped, closer, hnext, by simp [hcloser]⟩

/-- A turn that ends a body may drop comments in front of the brace, which dangle there. -/
theorem saves_turnInBraces {stop : List String → α} {go : List String → τ}
    {pending : τ → Multiset String} {expected : List String} {opening : Span}
    (hstop : ∀ texts, kept (stop texts) = base + remarksIn texts ∨ kept (stop texts) = base)
    (hgo : ∀ texts, pending (go texts) = base + remarksIn texts) :
    Saves tokens (turnInBraces stop go expected opening) base (Sum.elim kept pending) := by
  intro hgenuine done feed turned rest hfeed hrun
  obtain ⟨before, lead, hrest, hbefore, hlead, hturned⟩ := exists_turnInBraces_run hfeed hrun
  suffices hbalance :
      Balances tokens (before ++ lead ++ []) base (Sum.elim kept pending turned) from
    ⟨before ++ lead, by simpa using hrest, by simpa using hbalance⟩
  refine balances_turn hgenuine (by rwa [List.append_nil]) hbefore hlead (List.forall_mem_nil _) ?_
  rcases hturned with rfl | ⟨rfl, closer, hnext, hcloser⟩
  · exact .inl (hgo _)
  · exact (hstop _).imp_right fun hdropped => ⟨hdropped, closer, hnext, by simp [hcloser]⟩

/-! ## Values, types and directives -/

theorem saves_mark (mark : Punctuator) :
    Saves tokens (expect (.mark mark)) base fun _ => base := saves_expect (Want.silent_mark mark)

theorem saves_keyword (word : Keyword) :
    Saves tokens (expect (.keyword word)) base fun _ => base :=
  saves_expect (Want.solid_keyword word).silent

theorem saves_name (what : String) : Saves tokens (name what) base fun _ => base :=
  (saves_expect (Want.solid_name what).silent).bind fun _ => saves_pure rfl

/-- A list literal has no comments in it, by induction on how deep lists may be nested. -/
theorem saves_listTail (separator : String) (depth : Nat) (opening : Span) :
    Saves tokens (listTail separator depth opening) base fun _ => base := by
  induction depth generalizing opening with
  | zero => exact saves_fail _
  | succ depth ih =>
    refine (saves_loop (fun _ => base) (fun _ => base) (fun values => ?_) Want.solid_listItem.silent
      (fun values item => ?_) [] rfl).bind fun values =>
        (saves_mark _).bind fun _ => saves_pure rfl
    · exact saves_skipCommas.bind fun _ => (saves_nextIs _).bind fun close =>
        saves_ite (saves_pure rfl) (saves_pure rfl)
    · cases item with
      | inl opening => exact (ih opening).bind fun nested => saves_pure rfl
      | inr value => exact saves_pure rfl

/-- A value is made of literals and brackets. -/
theorem saves_value (separator : String) : Saves tokens (value separator) base fun _ => base := by
  refine (saves_nextIs _).bind fun bracket => saves_ite ?_ ?_
  · exact (saves_mark _).bind fun opening => (saves_listTail separator _ opening).bind
      fun values => saves_pure rfl
  · exact (saves_expect Want.solid_literal.silent).bind fun _ => saves_pure rfl

theorem saves_optionalDefault : Saves tokens optionalDefault base fun _ => base :=
  (saves_takeIf rfl).bind fun _ => saves_ite
    ((saves_value _).bind fun _ => saves_pure rfl) (saves_pure rfl)

theorem saves_typeRef : Saves tokens typeRef base fun _ => base := by
  refine (saves_takeIf rfl).bind fun bracket => saves_ite ?_ ?_
  · exact (saves_name _).bind fun name => (saves_takeIf rfl).bind fun bang =>
      (saves_mark _).bind fun _ => (saves_takeIf rfl).bind fun listBang => saves_pure rfl
  · exact (saves_name _).bind fun name => (saves_takeIf rfl).bind fun bang => saves_pure rfl

theorem saves_directiveArguments : Saves tokens directiveArguments base
    fun found => base + remarksIn found.2 := by
  refine (saves_takeIf rfl).bind fun paren => saves_ite ?_ (saves_pure (by simp))
  refine (saves_loop (fun found => base + remarksIn found.2) (fun found => base + remarksIn found.2)
    (fun found => ?_) (Want.solid_name _).silent (fun found name => ?_) ([], []) (by simp)).bind
      fun found => (saves_mark _).bind fun _ => saves_pure rfl
  · exact saves_turnInParens (fun texts => .inl (by simp [add_assoc]))
      fun texts => by simp [add_assoc]
  · exact (saves_mark _).bind fun _ => (saves_value _).bind fun value => saves_pure rfl

/-- Comments between directives describe the directive behind them. -/
theorem saves_directives : Saves tokens directives base fun found => base + remarksOf found := by
  refine saves_loop (fun found => base + remarksOf found) (fun found => base + remarksOf found)
    (fun found => ?_) (Want.silent_mark _) (fun found _ => ?_) [] (by simp)
  · exact (saves_nextIs _).bind fun sign => saves_ite (saves_pure rfl) (saves_pure rfl)
  · refine saves_descriptions.bind fun before => (saves_name _).bind fun name =>
      saves_directiveArguments.bind fun inner => saves_pure ?_
    simp [remarks_directive, add_assoc]

/-! ## Members -/

theorem saves_argumentTail (texts : List String) (name : String) :
    Saves tokens (argumentTail texts name) (base + remarksIn texts)
      fun argument => base + remarks argument := by
  refine (saves_mark _).bind fun _ => saves_innerComments.bind fun inner =>
    saves_typeRef.bind fun type => saves_optionalDefault.bind fun default =>
      saves_directives.bind fun directives => saves_pure ?_
  simp [remarks_argument, add_assoc]

theorem saves_optionalArguments :
    Saves tokens optionalArguments base fun found => base + remarksOf found := by
  refine (saves_takeIf rfl).bind fun paren => saves_ite ?_ (saves_pure (by simp))
  refine (saves_loop (fun found => base + remarksOf found)
    (fun entry : List Argument × List String => base + remarksOf entry.1 + remarksIn entry.2)
    (fun found => ?_) (Want.solid_name _).silent (fun entry name => ?_) [] (by simp)).bind
      fun found => (saves_mark _).bind fun _ => saves_pure rfl
  · exact saves_turnInParens (fun texts => .inr rfl) fun texts => rfl
  · refine (saves_argumentTail _ _).bind fun argument => saves_pure ?_
    simp [add_assoc]

/-- Members save comments if each of them does. -/
theorem saves_optionalMembers [Documented α] {what : String}
    {member : List String → String × Span → Parser α}
    (h : ∀ base texts name, Saves tokens (member texts name) (base + remarksIn texts)
      fun a => base + remarks a) :
    Saves tokens (optionalMembers what member) base fun found => base + remarksOf found := by
  refine (saves_nextIs _).bind fun brace => saves_ite ?_ (saves_pure (by simp))
  refine (saves_mark _).bind fun opening => ?_
  refine (saves_loop (fun found => base + remarksOf found)
    (fun entry : List α × List String => base + remarksOf entry.1 + remarksIn entry.2)
    (fun found => ?_) (Want.solid_name _).silent (fun entry name => ?_) [] (by simp)).bind
      fun found => (saves_mark _).bind fun _ => saves_pure rfl
  · exact saves_turnInBraces (fun texts => .inr rfl) fun texts => rfl
  · refine (h _ _ _).bind fun a => saves_pure ?_
    simp [add_assoc]

/-- A field keeps the comments that describe it, those of its arguments and the one that trails it.
-/
theorem saves_fieldTail (base : Multiset String) (texts : List String) (name : String × Span) :
    Saves tokens (fieldTail texts name) (base + remarksIn texts)
      fun field => base + remarks field := by
  refine saves_optionalArguments.bind fun arguments => (saves_mark _).bind fun _ =>
    saves_innerComments.bind fun inner => saves_typeRef.bind fun type =>
      saves_optionalDefault.bind fun default => saves_directives.bind fun directives =>
        saves_trailingComment.bind fun trailing => saves_pure ?_
  simp only [remarks_field, remarksIn_append]
  abel

theorem saves_enumValueTail (base : Multiset String) (texts : List String) (name : String × Span) :
    Saves tokens (enumValueTail texts name) (base + remarksIn texts)
      fun value => base + remarks value := by
  refine saves_directives.bind fun directives => saves_trailingComment.bind fun comments =>
    saves_pure ?_
  simp only [remarks_enumValue]
  abel

theorem saves_separatedNames (separator : Punctuator) (what : String) :
    Saves tokens (separatedNames separator what) base fun _ => base := by
  refine (saves_takeIf rfl).bind fun _ => ?_
  refine saves_loop (fun _ => base) (fun _ => base) (fun state => ?_) (Want.solid_name what).silent
    (fun names name => ?_) ([], true) rfl
  · exact saves_pure (by cases state.2 <;> rfl)
  · exact (saves_takeIf rfl).bind fun more => saves_pure rfl

theorem saves_optionalInterfaces : Saves tokens optionalInterfaces base fun _ => base :=
  (saves_takeIf rfl).bind fun _ => saves_ite
    ((saves_separatedNames _ _).bind fun _ => saves_pure rfl) (saves_pure rfl)

theorem saves_optionalUnionMembers : Saves tokens optionalUnionMembers base fun _ => base :=
  (saves_takeIf rfl).bind fun _ => saves_ite (saves_separatedNames _ _) (saves_pure rfl)

/-! ## Definitions that keep all that they read -/

theorem remarks_setRootType (block : SchemaBlock) (type : String) (operation : RootOperation) :
    remarks (block.setRootType type operation) = remarks block := by
  simp only [remarks_schemaBlock]
  cases operation <;> rfl

theorem remarks_addDescriptions (block : SchemaBlock) (texts : List String) :
    remarks (addDescriptions block texts) = remarks block + remarksIn texts := by
  simp only [remarks_schemaBlock, addDescriptions, remarksIn_append]

/-- A schema block keeps the comments of its entries. -/
theorem saves_schemaEntryTail (block : SchemaBlock) (key : String × Span) :
    Saves tokens (schemaEntryTail block key) (base + remarks block)
      fun block => base + remarks block := by
  rw [schemaEntryTail]
  cases RootOperation.ofKey? key.1 with
  | none => exact saves_fail _
  | some operation =>
    refine (saves_mark _).bind fun _ => saves_innerComments.bind fun inner =>
      (saves_name _).bind fun type => saves_ite (saves_fail _) (saves_pure ?_)
    rw [remarks_setRootType, remarks_addDescriptions, add_assoc]

theorem saves_schemaBlockTail (texts : List String) (span : Span) :
    Saves tokens (schemaBlockTail texts span) (base + remarksIn texts)
      fun block => base + remarks block := by
  refine saves_innerComments.bind fun inner => (saves_mark _).bind fun opening => ?_
  refine (saves_loop (fun block => base + remarks block) (fun block => base + remarks block)
    (fun block => ?_) (Want.solid_name _).silent saves_schemaEntryTail _ ?_).bind fun block =>
      (saves_mark _).bind fun _ => saves_pure rfl
  · exact saves_turnInBraces
      (fun texts => .inl (by rw [remarks_addDescriptions, add_assoc]))
      fun texts => by rw [remarks_addDescriptions, add_assoc]
  · rw [remarks_schemaBlock, remarksIn_append, add_assoc]

theorem saves_directiveDefinitionTail (texts : List String) :
    Saves tokens (directiveDefinitionTail texts) (base + remarksIn texts)
      fun definition => base + remarks definition := by
  refine (saves_mark _).bind fun _ => (saves_expect (Want.solid_name _).silent).bind fun _ =>
    saves_optionalArguments.bind fun arguments => (saves_takeIf rfl).bind fun repeatable =>
      (saves_keyword _).bind fun _ => (saves_separatedNames _ _).bind fun locations =>
        saves_trailingComment.bind fun comments => saves_pure ?_
  simp only [remarks_directiveDefinition]
  abel

theorem saves_scalarTail (texts : List String) :
    Saves tokens (scalarTail texts) (base + remarksIn texts)
      fun definition => base + remarks definition := by
  refine (saves_expect (Want.solid_name _).silent).bind fun _ => saves_directives.bind fun _ =>
    saves_trailingComment.bind fun comments => saves_pure ?_
  simp only [remarks_scalar]
  abel

theorem saves_unionTail (texts : List String) :
    Saves tokens (unionTail texts) (base + remarksIn texts)
      fun definition => base + remarks definition := by
  refine (saves_expect (Want.solid_name _).silent).bind fun _ => saves_directives.bind fun _ =>
    saves_optionalUnionMembers.bind fun members => saves_trailingComment.bind fun comments =>
      saves_pure ?_
  simp only [remarks_union]
  abel

/-! ## Definitions that may hand comments over -/

/-- All comments that the parser reads in the tokens of a text are kept or dangle, but for those
that it hands over. -/
def Accounts (tokens : List Token) (p : Parser α) (base : Multiset String)
    (kept : α → Multiset String) : Prop :=
  (∀ token ∈ tokens, token.kind.Genuine) → ∀ done feed a rest, feed.Behind tokens done [] →
    p.run feed = .ok (a, rest) → ∃ (used : List Token) (tail : Tail) (inside : Multiset String),
      rest.Behind tokens (done ++ used ++ tail.tokens) tail.handed ∧ tail.Fits ∧
        Balances tokens used base inside ∧ kept a = inside + commentsOf tail.kept

/-- A parser that saves all comments hands none over. -/
theorem Saves.accounts (h : Saves tokens p base kept) : Accounts tokens p base kept := by
  intro hgenuine done feed a rest hfeed hrun
  obtain ⟨used, hrest, hbalance⟩ := h hgenuine done feed a rest hfeed hrun
  refine ⟨used, .none, kept a, ?_, Tail.fits_none, hbalance, ?_⟩
  · simpa [Tail.none, Tail.tokens] using hrest
  · simp [Tail.none, Tail.kept]

/-- Only the last of several parsers may hand comments over. -/
theorem Saves.bind_accounts (hp : Saves tokens p base mid)
    (hnext : ∀ a, Accounts tokens (next a) (mid a) keptNext) :
    Accounts tokens (p >>= next) base keptNext := by
  intro hgenuine done feed b rest hfeed hrun
  rw [bind_run] at hrun
  split at hrun
  · next a between hmid =>
    obtain ⟨used, hbehind, ha⟩ := hp hgenuine done feed a between hfeed hmid
    obtain ⟨more, tail, inside, hrest, hfits, hb, hkept⟩ :=
      hnext a hgenuine (done ++ used) between b rest hbehind hrun
    exact ⟨used ++ more, tail, inside, by rwa [← List.append_assoc], hfits, ha.append hb, hkept⟩
  · cases hrun

theorem Accounts.map {finish : α → β} (hp : Accounts tokens p base kept)
    (h : ∀ a, keptNext (finish a) = kept a) :
    Accounts tokens (p >>= fun a => pure (finish a)) base keptNext := by
  intro hgenuine done feed b rest hfeed hrun
  rw [bind_run] at hrun
  split at hrun
  · next a between hmid =>
    obtain ⟨rfl, rfl⟩ := Prod.mk.inj (Except.ok.inj hrun)
    rw [h a]
    exact hp hgenuine done feed a between hfeed hmid
  · cases hrun

/-- The comments behind a header are kept with the definition, or handed over. -/
theorem accounts_bodyTail [Documented β] {what : String}
    {member : List String → String × Span → Parser β}
    (hmembers : Saves tokens (optionalMembers what member) base
      fun found => base + remarksOf found)
    {finish : List String → List β → List String → α}
    (hfinish : ∀ inner members trailing, kept (finish inner members trailing) =
      base + remarksOf members + (remarksIn inner + remarksIn trailing)) :
    Accounts tokens (Seam.bodyTail (optionalMembers what member) finish) base kept := by
  intro hgenuine done feed a rest hfeed hrun
  have hcompletes : Completes tokens done (Seam.bodyTail (optionalMembers what member) finish)
      fun used tail a => ∃ inner body members, used = inner ++ body ∧
        Balances tokens body base (base + remarksOf members) ∧
        a = finish (commentsOf (inner ++ tail.own)) members (commentsOf tail.trail) := by
    refine completes_bodyTail (fun _ => hmembers hgenuine _)
      (fun inner body members tail _ hbody _ _ hown _ => ⟨inner, body, members, rfl, hbody, ?_⟩)
      fun tail _ => ⟨[], [], [], rfl, balances_keep (by simp), rfl⟩
    rw [hown, List.append_nil]
  obtain ⟨used, tail, hrest, hfits, -, inner, body, members, rfl, hbody, rfl⟩ :=
    hcompletes feed a rest hfeed hrun
  have hinner : Balances tokens inner base (base + commentsOf inner) := balances_keep rfl
  refine ⟨inner ++ body, tail, _, hrest, hfits, hinner.append (hbody.add (commentsOf inner)), ?_⟩
  have hmem : ∀ token ∈ inner ++ tail.own ++ tail.trail, token.kind.Genuine := fun token ht => by
    refine hgenuine token (hrest.mem ?_)
    simp only [Tail.tokens, List.mem_append] at ht ⊢
    tauto
  rw [List.forall_mem_append] at hmem
  rw [hfinish, remarksIn_commentsOf hmem.1, remarksIn_commentsOf hmem.2, Tail.kept,
    commentsOf_append, commentsOf_append, ← Multiset.coe_add, ← Multiset.coe_add]
  abel

theorem accounts_enumTail (texts : List String) :
    Accounts tokens (enumTail texts) (base + remarksIn texts)
      fun definition => base + remarks definition := by
  refine (saves_expect (Want.solid_name _).silent).bind_accounts fun _ =>
    saves_directives.bind_accounts fun directives =>
      accounts_bodyTail (saves_optionalMembers saves_enumValueTail) fun inner values trailing => ?_
  simp only [remarks_enum, remarksIn_append]
  abel

theorem accounts_fieldsDefinitionTail (what : String) (texts : List String) :
    Accounts tokens (fieldsDefinitionTail what texts) (base + remarksIn texts)
      fun definition => base + remarks definition := by
  refine (saves_expect (Want.solid_name _).silent).bind_accounts fun _ =>
    saves_directives.bind_accounts fun directives =>
      accounts_bodyTail (saves_optionalMembers saves_fieldTail) fun inner fields trailing => ?_
  simp only [remarks_fieldsDefinition, remarksIn_append]
  abel

/-- Comments between a type's header and what follows are kept or handed over. -/
theorem accounts_typeTail (isExtension : Bool) (texts : List String) :
    Accounts tokens (typeTail isExtension texts) (base + remarksIn texts)
      fun definition => base + remarks definition := by
  refine (saves_expect (Want.solid_name _).silent).bind_accounts fun _ =>
    saves_optionalInterfaces.bind_accounts fun _ => saves_directives.bind_accounts fun directives =>
      accounts_bodyTail (saves_optionalMembers saves_fieldTail) fun inner fields trailing => ?_
  simp only [remarks_type, remarksIn_append]
  abel

/-- A document keeps the comments of each definition. -/
theorem accounts_definitionTail (document : Document) (texts : List String)
    (word : DefinitionWord × Span) :
    Accounts tokens (definitionTail document texts word) (remarks document + remarksIn texts)
      remarks := by
  obtain ⟨word, span⟩ := word
  cases word with
  | schema =>
    refine (saves_schemaBlockTail texts span).accounts.map fun block => ?_
    simp only [remarks_document, remarksOf_append, remarksOf_singleton]
    abel
  | directive =>
    refine (saves_directiveDefinitionTail texts).accounts.map fun definition => ?_
    simp only [remarks_document, remarksOf_append, remarksOf_singleton]
    abel
  | scalar =>
    refine (saves_scalarTail texts).accounts.map fun definition => ?_
    simp only [remarks_document, remarksOf_append, remarksOf_singleton]
    abel
  | enum =>
    refine (accounts_enumTail texts).map fun definition => ?_
    simp only [remarks_document, remarksOf_append, remarksOf_singleton]
    abel
  | interface =>
    refine (accounts_fieldsDefinitionTail _ texts).map fun definition => ?_
    simp only [remarks_document, remarksOf_append, remarksOf_singleton]
    abel
  | union =>
    refine (saves_unionTail texts).accounts.map fun definition => ?_
    simp only [remarks_document, remarksOf_append, remarksOf_singleton]
    abel
  | input =>
    refine (accounts_fieldsDefinitionTail _ texts).map fun definition => ?_
    simp only [remarks_document, remarksOf_append, remarksOf_singleton]
    abel
  | type =>
    refine (accounts_typeTail false texts).map fun definition => ?_
    simp only [remarks_document, remarksOf_append, remarksOf_singleton]
    abel
  | extend =>
    refine (saves_keyword _).bind_accounts fun _ =>
      (accounts_typeTail true texts).map fun definition => ?_
    simp only [remarks_document, remarksOf_append, remarksOf_singleton]
    abel

end Parser

end SchemaMerge
