import SchemaMerge.Proofs.Reading.Balance

/-!
# No comment of a text is lost

The comments of a text that forms a document are those of the nodes of the document, and those that
dangle and are dropped (`Document.comments_ofText`). Read definition by definition, the comments up
to the last one are balanced, but for those behind its header that it hands over (`Accounted`); they
are kept with the next definition, or dropped at the end.
-/

namespace SchemaMerge

variable {tokens before lead : List Token} {tail : Tail} {feed rest : Feed}
  {document : Document}

/-- Up to the feed all comments are kept in the document or dropped, but for those that are handed
over. -/
structure Accounted (tokens : List Token) (document : Document) (feed : Feed) : Prop where
  exists_tail : ∃ (before : List Token) (tail : Tail) (inside : Multiset String),
    feed.Behind tokens (before ++ tail.tokens) tail.handed ∧ tail.Fits ∧
      Balances tokens before 0 inside ∧ remarks document = inside + commentsOf tail.kept

theorem Accounted.ofTokens (file : String) (tokens : List Token) :
    Accounted tokens .empty (.ofTokens file tokens) :=
  ⟨[], .none, 0, .ofTokens file tokens, Tail.fits_none, balances_silent rfl, rfl⟩

/-- The comments of a tail are kept, but for those that are handed over. -/
theorem balances_tail (h : tail.Fits) {base kept : Multiset String}
    (hhanded : Balances tokens tail.handed base kept) :
    Balances tokens tail.tokens base (kept + commentsOf tail.kept) := by
  have hown : Balances tokens tail.own base (base + commentsOf tail.own) := balances_keep rfl
  have hcommas : Balances tokens tail.commas (kept + commentsOf tail.own) _ :=
    balances_silent h.commas.commentsOf_eq
  refine ((hown.append (hhanded.add _)).append hcommas).append (balances_keep ?_)
  rw [Tail.kept, commentsOf_append, ← Multiset.coe_add, add_assoc]

namespace Parser

/-- A definition is balanced with the comments that have been handed over to it. -/
theorem accounted_of_round (hgenuine : ∀ token ∈ tokens, token.kind.Genuine)
    (h : Accounted tokens document feed) {entry : Document × List String} {mid : Feed}
    {next : Document} (hturn : (documentTurn document).run feed = .ok (.inr entry, mid))
    (hbody : (expect Want.definition >>= fun word =>
      definitionTail entry.1 entry.2 word).run mid = .ok (next, rest)) :
    Accounted tokens next rest := by
  obtain ⟨before, tail, inside, hbehind, hfits, hbalance, hremarks⟩ := h.exists_tail
  obtain ⟨lead, hmid, hlead, hentry | ⟨⟨⟩, -⟩⟩ := exists_lead_of_documentTurn_run hbehind hturn
  obtain rfl := Sum.inr.inj hentry
  obtain ⟨used, tail', inside', hrest, hfits', hbalance', hremarks'⟩ :=
    (saves_expect Want.solid_definition.silent).bind_accounts
      (fun word => accounts_definitionTail document _ word) hgenuine _ _ _ _ hmid hbody
  refine ⟨before ++ tail.tokens ++ lead ++ used, tail', inside', hrest, hfits', ?_, hremarks'⟩
  have hmem : ∀ token ∈ tail.handed ++ lead, token.kind.Genuine := fun token ht => by
    refine hgenuine token (hmid.mem ?_)
    simp only [Tail.tokens, List.mem_append] at ht ⊢
    tauto
  rw [List.forall_mem_append] at hmem
  have hhanded : Balances tokens tail.handed inside (inside + commentsOf tail.handed) :=
    balances_keep rfl
  refine ((hbalance.append (balances_tail hfits hhanded)).append
    (balances_keep ?_)).append hbalance'
  simp only [hremarks, remarksIn_append, remarksIn_commentsOf hmem.1,
    remarksIn_descriptionsOf hmem.2]
  abel

/-- At the end of the text comments that are still to describe something dangle. -/
theorem balances_of_end (h : Accounted tokens document feed) {d : Document}
    (hturn : (documentTurn document).run feed = .ok (.inl d, rest)) :
    ∃ done last, rest.Behind tokens done [] ∧ last ∈ rest.next? ∧ last.kind = .endOfText ∧
      Balances tokens done 0 (remarks d) := by
  obtain ⟨before, tail, inside, hbehind, hfits, hbalance, hremarks⟩ := h.exists_tail
  obtain ⟨lead, hrest, hlead, ⟨⟨⟩⟩ | ⟨hd, last, hnext, hlast⟩⟩ :=
    exists_lead_of_documentTurn_run hbehind hturn
  obtain rfl := Sum.inl.inj hd
  obtain ⟨behind, htokens⟩ := List.head?_eq_some_iff.1 hnext
  have hsplit : tokens = before ++ tail.tokens ++ lead ++ last :: behind :=
    htokens ▸ hrest.tokens_eq
  refine ⟨before ++ tail.tokens ++ lead, last, hrest, hnext, hlast, ?_⟩
  have hlate : tokens = before ++ tail.own ++ tail.handed ++ tail.commas ++ (tail.trail ++ lead) ++
      last :: behind := by simpa [Tail.tokens] using hsplit
  have hclosed : tokens = before ++ tail.tokens ++ lead ++ [] ++ last :: behind := by
    simpa using hsplit
  have hhanded : Balances tokens tail.handed inside inside := balances_drop fun comment ht _ =>
    dangles_of_endOfText hlate hfits.handed.descriptions hfits.commas
      (List.forall_mem_append.2 ⟨hfits.trail.descriptions, hlead⟩) ht hlast
  have hdropped : Balances tokens lead (remarks d) (remarks d) := balances_drop fun comment ht _ =>
    dangles_of_closer hclosed hlead (List.forall_mem_nil _) ht (by simp [hlast])
  rw [hremarks] at hdropped ⊢
  exact (hbalance.append (balances_tail hfits hhanded)).append hdropped

end Parser

/-- Nothing follows the end of a text. -/
theorem eq_nil_of_endOfText {file text : String} {done behind : List Token} {last : Token}
    (h : Token.ofText file text = done ++ last :: behind) (hlast : last.kind = .endOfText) :
    behind = [] := by
  obtain ⟨front, stop, hfront, -, hne⟩ := exists_tokensFrom_eq_concat file .start text.toList
  rcases List.eq_nil_or_concat behind with rfl | ⟨others, other, rfl⟩
  · rfl
  · have hsame : front ++ [stop] = (done ++ last :: others) ++ [other] :=
      (hfront.symm.trans h).trans (by simp)
    obtain ⟨rfl, -⟩ := List.append_inj' hsame rfl
    exact absurd hlast (hne last (by simp))

namespace Document

/-- **Every comment is kept or dangles.** The comments of a text that forms a document are those in
the descriptions and comments of its nodes, each as often, and others that dangle. -/
theorem comments_ofText {file text : String} {d : Document} (h : ofText file text = .ok d) :
    ∃ dropped : List Token, dropped.Sublist (Token.ofText file text) ∧
      (∀ comment ∈ dropped,
        comment.kind.comment?.isSome ∧ Dangles (Token.ofText file text) comment) ∧
      (commentsOf (Token.ofText file text) : Multiset String) =
        remarks d + commentsOf dropped := by
  obtain ⟨rest, hrun⟩ := exists_run_of_ofTokens h
  obtain ⟨done, last, hrest, hnext, hlast, dropped, hsub, hdangles, hsum⟩ :=
    Parser.of_loop_run (Accounted (Token.ofText file text)) (fun d rest => ∃ done last,
      rest.Behind (Token.ofText file text) done [] ∧ last ∈ rest.next? ∧ last.kind = .endOfText ∧
        Balances (Token.ofText file text) done 0 (remarks d))
      (fun document feed d rest hinv hturn => Parser.balances_of_end hinv hturn)
      (fun document feed entry mid next rest hinv hturn hbody =>
        Parser.accounted_of_round genuine_of_mem_tokensFrom hinv hturn hbody)
      (.ofTokens file _) hrun
  obtain ⟨behind, hbehind⟩ := List.head?_eq_some_iff.1 hnext
  have htokens : Token.ofText file text = done ++ last :: behind := hbehind ▸ hrest.tokens_eq
  obtain rfl := eq_nil_of_endOfText htokens hlast
  have hcomments : commentsOf (Token.ofText file text) = commentsOf done := by
    rw [htokens, commentsOf_append]
    simp [commentsOf, hlast, TokenKind.comment?]
  refine ⟨dropped, ?_, hdangles, by rw [hcomments, ← hsum, zero_add]⟩
  rw [htokens]
  exact hsub.trans (List.sublist_append_left _ _)

theorem comments_ofText_header :
    let text := "type A # a\n# b\n\"c\""
    let a := { Document.empty with
      types := [⟨"A", [], [], [], [], ["# a"], false, ⟨"a.graphql", ⟨0, 5, 5⟩, ⟨0, 6, 6⟩⟩⟩] }
    let tokens := Token.ofText "a.graphql" text
    ofText "a.graphql" text = .ok a ∧ ∃ dropped : List Token, dropped.Sublist tokens ∧
      (∀ comment ∈ dropped, comment.kind.comment?.isSome ∧ Dangles tokens comment) ∧
      (commentsOf tokens : Multiset String) = remarks a + commentsOf dropped := by
  intro text a tokens
  have hread : ofText "a.graphql" text = .ok a := by decide +kernel
  exact ⟨hread, comments_ofText hread⟩

/-- A comment that is handed over may be dropped with commas and more comments behind it, so its
run need not end in front of a closing bracket or the end of the text. -/
theorem dropped_in_front_of_comments :
    let text := "type A\n# c\n,\n# d"
    let a := { Document.empty with
      types := [⟨"A", [], [], [], [], [], false, ⟨"a.graphql", ⟨0, 5, 5⟩, ⟨0, 6, 6⟩⟩⟩] }
    let tokens := Token.ofText "a.graphql" text
    ofText "a.graphql" text = .ok a ∧ ¬∃ dropped : List Token, dropped.Sublist tokens ∧
      (∀ comment ∈ dropped, comment.kind.comment?.isSome ∧
        ∃ before after, tokens = before ++ comment :: after ∧ Closes after) ∧
      (commentsOf tokens : Multiset String) = remarks a + commentsOf dropped := by
  intro text a tokens
  refine ⟨by decide +kernel, ?_⟩
  rintro ⟨dropped, -, hdropped, hsum⟩
  have hkept : "# c" ∉ remarks a := by decide +kernel
  have hcomment : "# c" ∈ (commentsOf tokens : Multiset String) := by decide +kernel
  have hopen : ∀ i < tokens.length, ∀ comment ∈ tokens[i]?, comment.kind.comment? = some "# c" →
      ¬Closes (tokens.drop (i + 1)) := by decide +kernel
  rw [hsum, Multiset.mem_add] at hcomment
  obtain ⟨comment, hmem, hc⟩ := List.mem_filterMap.1 (hcomment.resolve_left hkept)
  obtain ⟨-, before, after, htokens, hcloses⟩ := hdropped comment hmem
  refine hopen before.length (by simp [htokens]) comment (by simp [htokens]) hc ?_
  simpa [htokens] using hcloses

end Document

end SchemaMerge
