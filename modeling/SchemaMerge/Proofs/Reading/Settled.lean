import SchemaMerge.Proofs.Reading.Continued
import SchemaMerge.Proofs.Reading.Verdict

/-!
# The verdict on a document is settled

Every parser of the language settles its verdict, from the literals up to whole documents
(`settles_document`). Most are careful; a list that is nested too deep and a schema block with a
wrong key fail at a token that is already taken.

So what follows the tokens that a document has been read from, or that have made it fail, is
irrelevant (`ofTokens_append`).
-/

namespace SchemaMerge

namespace Parser

variable {α β τ : Type} {tokens more : List Token}

/-! ## Failures at a token that is taken -/

/-- The span is that of a plain token in front of all others. -/
def IsTaken (tokens : List Token) (span : Span) : Prop :=
  ∃ token ∈ tokens.takeWhile Token.isPlain, span = token.span

/-- A failure at a token that is taken blames a plain token. -/
theorem IsTaken.blames {span : Span} (h : IsTaken tokens span) {cause : SyntacticCause}
    (hcause : ∀ expected, cause ≠ .unexpectedEnd expected) (message : String) :
    Blames tokens (.plain (.syntactic cause) message span) := by
  obtain ⟨token, hmem, hspan⟩ := h
  refine .plain token cause hmem hspan rfl ?_
  rintro ⟨expected, hend⟩
  exact hcause expected (Cause.syntactic.inj hend)

theorem span_of_read_mark {mark : Punctuator} {token : Token} {span : Span}
    (h : (Want.mark mark).read token = some span) : span = token.span := by
  simp only [Want.mark, Option.ite_none_right_eq_some, Option.some.injEq] at h
  exact h.2.symm

theorem span_of_read_name {what : String} {token : Token} {found : String × Span}
    (h : (Want.name what).read token = some found) : found.2 = token.span := by
  obtain ⟨name, -, rfl⟩ := Option.map_eq_some_iff.1 h
  rfl

theorem span_of_read_listItem {token : Token} {opening : Span}
    (h : Want.listItem.read token = some (.inl opening)) : opening = token.span := by
  simp only [Want.listItem] at h
  split at h
  · cases h
    rfl
  · obtain ⟨text, -, ⟨⟩⟩ := Option.map_eq_some_iff.1 h

/-! ## Descriptions and comments -/

theorem careful_skipCommas : Careful tokens more skipCommas :=
  (careful_takeRun Seam.proper_comma).bind fun _ => careful_pure _

theorem careful_descriptions : Careful tokens more descriptions :=
  (careful_swapCarried []).bind fun _ =>
    (careful_takeRun Seam.proper_description?).bind fun _ => careful_pure _

theorem careful_innerComments : Careful tokens more innerComments :=
  careful_takeRun Seam.proper_comment?

theorem trailingComment_eq :
    trailingComment = skipCommas >>= fun _ => Parser.feed >>= fun feed =>
      match feed.trailing? with
      | some comment => advance >>= fun _ => pure [comment]
      | none => pure [] := rfl

/-- A comment that trails is taken; it is a plain token. -/
theorem careful_trailingComment : Careful tokens more trailingComment := by
  rw [trailingComment_eq]
  refine careful_skipCommas.bind fun _ =>
    careful_feed_bind (fun feed hfeed => ?_) (fun feed hfeed => ?_) fun feed hne => ?_
  · cases htrailing : feed.trailing? with
    | none => exact (careful_pure []).settles feed hfeed
    | some comment =>
      obtain ⟨span, hnext⟩ := Feed.exists_next?_of_trailing? htrailing
      exact (settlesAt_advance hfeed hnext rfl).bind
        (fun _ rest _ hrest => (careful_pure [comment]).settles rest hrest) fun _ => ends_pure _
  · cases htrailing : feed.trailing? with
    | none => exact ends_pure []
    | some comment =>
      obtain ⟨span, hnext⟩ := Feed.exists_next?_of_trailing? htrailing
      exact absurd hfeed (Feed.tokens_ne_nil_of_next? hnext)
  · rw [Feed.trailing?_followedBy hne]

/-- Comments in a header depend on what follows them, and a parser looks at it. -/
theorem careful_headerComments : Careful tokens more headerComments := by
  refine Careful.feed_bind (fun feed => ?_) fun feed hne => ?_
  · exact careful_innerComments.bind fun comments => (careful_nextIs _).bind fun brace =>
      careful_ite (careful_pure _) ((careful_swapCarried _).bind fun _ => careful_pure _)
  · rw [feed.trailing?_followedBy hne]

/-! ## Values, types and directives -/

theorem careful_mark (mark : Punctuator) : Careful tokens more (expect (.mark mark)) :=
  careful_expect (Want.plain_of_moves (Seam.moves_mark .refl mark))

theorem careful_keyword (word : Keyword) : Careful tokens more (expect (.keyword word)) :=
  careful_expect (Want.plain_of_moves (Seam.moves_keyword .refl word))

theorem plain_name (what : String) : (Want.name what).Plain :=
  Want.plain_of_moves (Seam.moves_name .refl what)

theorem careful_name (what : String) : Careful tokens more (name what) :=
  (careful_expect (plain_name what)).bind fun _ => careful_pure _

theorem careful_takeMark (mark : Punctuator) :
    Careful tokens more (takeIf (.punctuator mark)) := careful_takeIf rfl nofun

theorem careful_takeKeyword (word : Keyword) :
    Careful tokens more (takeIf (.keyword word)) := careful_takeIf rfl nofun

/-- A list literal settles, by induction on how deep lists may be nested in it. -/
theorem settles_listTail (separator : String) (depth : Nat) {opening : Span}
    (h : IsTaken tokens opening) : Settles tokens more (listTail separator depth opening) := by
  induction depth generalizing opening with
  | zero => exact settles_fail (h.blames (by simp) _)
  | succ depth ih =>
    refine Careful.settles ((careful_loop (fun values => ?_)
      (Want.plain_of_moves (Seam.moves_listItem .refl)) (fun values token item hmem hread => ?_)
      []).bind fun values => (careful_mark _).bind fun _ => careful_pure _)
    · exact careful_skipCommas.bind fun _ => (careful_nextIs _).bind fun close =>
        careful_ite (careful_pure _) (careful_pure _)
    · cases item with
      | inl opening =>
        exact (ih ⟨token, hmem, span_of_read_listItem hread⟩).bind fun nested => careful_pure _
      | inr value => exact (careful_pure _).settles

/-- A value ends with its last token. -/
theorem careful_value (separator : String) : Careful tokens more (value separator) := by
  refine (careful_nextIs _).bind fun bracket => careful_ite ?_ ?_
  · refine careful_expect_bind (Want.plain_of_moves (Seam.moves_mark .refl _))
      fun token opening hmem hread => ?_
    exact (settles_listTail separator maxListDepth
      ⟨token, hmem, span_of_read_mark hread⟩).bind fun values => careful_pure _
  · exact (careful_expect (Want.plain_of_moves (Seam.moves_literal .refl))).bind fun _ =>
      careful_pure _

theorem careful_optionalDefault : Careful tokens more optionalDefault :=
  (careful_takeMark _).bind fun _ => careful_ite
    ((careful_value _).bind fun _ => careful_pure _) (careful_pure _)

theorem careful_typeRef : Careful tokens more typeRef := by
  refine (careful_takeMark _).bind fun bracket => careful_ite ?_ ?_
  · exact (careful_name _).bind fun name => (careful_takeMark _).bind fun bang =>
      (careful_mark _).bind fun _ => (careful_takeMark _).bind fun listBang => careful_pure _
  · exact (careful_name _).bind fun name => (careful_takeMark _).bind fun bang => careful_pure _

theorem careful_turnInParens (stop : List String → α) (go : List String → τ) :
    Careful tokens more (turnInParens stop go) :=
  careful_skipCommas.bind fun _ => careful_descriptions.bind fun _ =>
    careful_skipCommas.bind fun _ => (careful_nextIs _).bind fun _ =>
      careful_ite (careful_pure _) (careful_pure _)

theorem careful_directiveArguments : Careful tokens more directiveArguments := by
  refine (careful_takeMark _).bind fun paren => careful_ite ?_ (careful_pure _)
  refine (careful_loop (fun found => ?_) (plain_name _) (fun found _ name _ _ => ?_)
    ([], [])).bind fun found => (careful_mark _).bind fun _ => careful_pure _
  · exact careful_turnInParens (fun texts => (found.1, found.2 ++ texts)) fun texts =>
      (found.1, found.2 ++ texts)
  · exact ((careful_mark _).bind fun _ => (careful_value _).bind fun value =>
      careful_pure _).settles

theorem careful_directives : Careful tokens more directives := by
  refine careful_loop (fun found => ?_) (Want.plain_of_moves (Seam.moves_mark .refl _))
    (fun found _ _ _ _ => ?_) []
  · exact (careful_nextIs _).bind fun sign => careful_ite (careful_pure _) (careful_pure _)
  · exact (careful_descriptions.bind fun before => (careful_name _).bind fun name =>
      careful_directiveArguments.bind fun inner => careful_pure _).settles

/-! ## Members -/

theorem careful_argumentTail (texts : List String) (name : String) :
    Careful tokens more (argumentTail texts name) :=
  (careful_mark _).bind fun _ => careful_innerComments.bind fun _ =>
    careful_typeRef.bind fun _ => careful_optionalDefault.bind fun _ =>
      careful_directives.bind fun _ => careful_pure _

theorem careful_optionalArguments : Careful tokens more optionalArguments := by
  refine (careful_takeMark _).bind fun paren => careful_ite ?_ (careful_pure _)
  refine (careful_loop (fun found => ?_) (plain_name _) (fun entry _ name _ _ => ?_)
    []).bind fun found => (careful_mark _).bind fun _ => careful_pure _
  · exact careful_turnInParens (fun _ => found) fun texts => (found, texts)
  · exact ((careful_argumentTail _ _).bind fun a => careful_pure _).settles

/-- Where neither a name nor a closing brace stands, what stands there is blamed. -/
theorem careful_closesBraces (expected : List String) (opening : Span) :
    Careful tokens more (closesBraces expected opening) := by
  refine careful_feed_bind (fun feed hfeed => ?_) (fun feed hfeed => ?_) fun feed hne => ?_
  · cases feed.next? with
    | none => exact (careful_pure false).settles feed hfeed
    | some token =>
      simp only
      split
      · exact (careful_pure true).settles feed hfeed
      · split
        · exact (careful_pure false).settles feed hfeed
        · exact settles_fail (hfeed.blames_unexpectedInBraces _ opening) feed hfeed
  · rw [Feed.next?, hfeed, List.head?_nil]
    exact ends_pure false
  · rw [Feed.next?_followedBy hne, Feed.unexpectedInBraces_followedBy hne]

/-- In a body, a turn looks at the next token before it goes on. -/
theorem careful_turnInBraces (stop : List String → α) (go : List String → τ)
    (expected : List String) (opening : Span) :
    Careful tokens more (turnInBraces stop go expected opening) :=
  careful_skipCommas.bind fun _ => careful_descriptions.bind fun _ =>
    (careful_closesBraces expected opening).bind fun _ =>
      careful_ite (careful_pure _) (careful_pure _)

theorem careful_optionalMembers {what : String} {member : List String → String × Span → Parser α}
    (h : ∀ texts name, Careful tokens more (member texts name)) :
    Careful tokens more (optionalMembers what member) := by
  refine (careful_nextIs _).bind fun brace => careful_ite ?_ (careful_pure _)
  refine (careful_mark _).bind fun opening => ?_
  refine (careful_loop (fun found => ?_) (plain_name _) (fun entry _ name _ _ => ?_)
    []).bind fun found => (careful_mark _).bind fun _ => careful_pure _
  · exact careful_turnInBraces (fun _ => found) (fun texts => (found, texts)) _ opening
  · exact ((h entry.2 name).bind fun a => careful_pure _).settles

theorem careful_fieldTail (texts : List String) (name : String × Span) :
    Careful tokens more (fieldTail texts name) :=
  careful_optionalArguments.bind fun _ => (careful_mark _).bind fun _ =>
    careful_innerComments.bind fun _ => careful_typeRef.bind fun _ =>
      careful_optionalDefault.bind fun _ => careful_directives.bind fun _ =>
        careful_trailingComment.bind fun _ => careful_pure _

theorem careful_optionalFields : Careful tokens more optionalFields :=
  careful_optionalMembers careful_fieldTail

theorem careful_enumValueTail (texts : List String) (name : String × Span) :
    Careful tokens more (enumValueTail texts name) :=
  careful_directives.bind fun _ => careful_trailingComment.bind fun _ => careful_pure _

theorem careful_optionalEnumValues : Careful tokens more optionalEnumValues :=
  careful_optionalMembers careful_enumValueTail

theorem careful_separatedNames (separator : Punctuator) (what : String) :
    Careful tokens more (separatedNames separator what) := by
  refine (careful_takeMark _).bind fun _ => ?_
  refine careful_loop (fun state => ?_) (plain_name _) (fun names _ name _ _ => ?_) ([], true)
  · exact careful_pure _
  · exact ((careful_takeMark _).bind fun more => careful_pure _).settles

theorem careful_optionalInterfaces : Careful tokens more optionalInterfaces :=
  (careful_takeKeyword _).bind fun _ => careful_ite
    ((careful_separatedNames _ _).bind fun _ => careful_pure _) (careful_pure _)

theorem careful_optionalUnionMembers : Careful tokens more optionalUnionMembers :=
  (careful_takeMark _).bind fun _ => careful_ite (careful_separatedNames _ _) (careful_pure _)

/-! ## Definitions -/

theorem name_bind (what : String) (next : String → Parser β) :
    name what >>= next = expect (.name what) >>= fun found => next found.1 := by
  ext feed
  simp only [name, bind_run]
  cases (expect (.name what)).run feed <;> rfl

/-- A key that is unknown, or there for the second time, is a token that is taken. -/
theorem settles_schemaEntryTail (block : SchemaBlock) {key : String × Span}
    (h : IsTaken tokens key.2) : Settles tokens more (schemaEntryTail block key) := by
  rw [schemaEntryTail]
  cases RootOperation.ofKey? key.1 with
  | none => exact settles_fail (h.blames (by simp) _)
  | some operation =>
    refine Careful.settles ((careful_mark _).bind fun _ =>
      careful_innerComments.bind fun inner => ?_)
    rw [name_bind]
    refine careful_expect_bind (plain_name _) fun _ type _ _ => ?_
    split
    · exact settles_fail (h.blames (by simp) _)
    · exact (careful_pure _).settles

/-- A key that is none, or that was there before, is a failure at a token that is taken. -/
theorem careful_schemaBlockTail (texts : List String) (span : Span) :
    Careful tokens more (schemaBlockTail texts span) := by
  refine careful_innerComments.bind fun inner => (careful_mark _).bind fun opening => ?_
  refine (careful_loop (fun block => ?_) (plain_name _) (fun block token key hmem hread => ?_)
    _).bind fun block => (careful_mark _).bind fun _ => careful_pure _
  · exact careful_turnInBraces (addDescriptions block) (addDescriptions block) _ opening
  · exact settles_schemaEntryTail block ⟨token, hmem, span_of_read_name hread⟩

theorem careful_directiveDefinitionTail (texts : List String) :
    Careful tokens more (directiveDefinitionTail texts) :=
  (careful_mark _).bind fun _ => (careful_expect (plain_name _)).bind fun _ =>
    careful_optionalArguments.bind fun _ => (careful_takeKeyword _).bind fun _ =>
      (careful_keyword _).bind fun _ => (careful_separatedNames _ _).bind fun _ =>
        careful_trailingComment.bind fun _ => careful_pure _

theorem careful_scalarTail (texts : List String) : Careful tokens more (scalarTail texts) :=
  (careful_expect (plain_name _)).bind fun _ => careful_directives.bind fun _ =>
    careful_trailingComment.bind fun _ => careful_pure _

theorem careful_enumTail (texts : List String) : Careful tokens more (enumTail texts) :=
  (careful_expect (plain_name _)).bind fun _ => careful_directives.bind fun _ =>
    careful_headerComments.bind fun _ => careful_optionalEnumValues.bind fun _ =>
      careful_trailingComment.bind fun _ => careful_pure _

theorem careful_fieldsDefinitionTail (what : String) (texts : List String) :
    Careful tokens more (fieldsDefinitionTail what texts) :=
  (careful_expect (plain_name _)).bind fun _ => careful_directives.bind fun _ =>
    careful_headerComments.bind fun _ => careful_optionalFields.bind fun _ =>
      careful_trailingComment.bind fun _ => careful_pure _

theorem careful_unionTail (texts : List String) : Careful tokens more (unionTail texts) :=
  (careful_expect (plain_name _)).bind fun _ => careful_directives.bind fun _ =>
    careful_optionalUnionMembers.bind fun _ => careful_trailingComment.bind fun _ =>
      careful_pure _

theorem careful_typeTail (isExtension : Bool) (texts : List String) :
    Careful tokens more (typeTail isExtension texts) :=
  (careful_expect (plain_name _)).bind fun _ => careful_optionalInterfaces.bind fun _ =>
    careful_directives.bind fun _ => careful_headerComments.bind fun _ =>
      careful_optionalFields.bind fun _ => careful_trailingComment.bind fun _ => careful_pure _

/-! ## Documents -/

theorem careful_definitionTail (document : Document) (texts : List String)
    (word : DefinitionWord × Span) :
    Careful tokens more (definitionTail document texts word) := by
  obtain ⟨word, span⟩ := word
  cases word with
  | schema => exact (careful_schemaBlockTail texts span).bind fun _ => careful_pure _
  | directive => exact (careful_directiveDefinitionTail texts).bind fun _ => careful_pure _
  | scalar => exact (careful_scalarTail texts).bind fun _ => careful_pure _
  | enum => exact (careful_enumTail texts).bind fun _ => careful_pure _
  | interface => exact (careful_fieldsDefinitionTail _ texts).bind fun _ => careful_pure _
  | union => exact (careful_unionTail texts).bind fun _ => careful_pure _
  | input => exact (careful_fieldsDefinitionTail _ texts).bind fun _ => careful_pure _
  | type => exact (careful_typeTail false texts).bind fun _ => careful_pure _
  | extend =>
    exact (careful_keyword _).bind fun _ =>
      (careful_typeTail true texts).bind fun _ => careful_pure _

/-- So the verdict on a document is settled, but for want of tokens. -/
theorem careful_document : Careful tokens more document := by
  refine careful_loop (fun document => ?_) (Want.plain_of_moves (Seam.moves_definition .refl))
    (fun (entry : Document × List String) _ word _ _ =>
      (careful_definitionTail entry.1 entry.2 word).settles) .empty
  exact careful_descriptions.bind fun texts => (careful_nextIs _).bind fun close =>
    careful_ite (careful_pure _) (careful_pure _)

/-! ## The end of a document -/

/-- What a loop gives one of its rounds has ended with. -/
theorem exists_turn_of_loop_run {σ : Type} {turn : σ → Parser (α ⊕ τ)} {want : Want β}
    {body : τ → β → Parser σ} {state : σ} {feed rest : Feed} {a : α}
    (h : (loop turn want body state).run feed = .ok (a, rest)) :
    ∃ last before, (turn last).run before = .ok (.inl a, rest) := by
  change runLoop turn want body state feed = .ok (a, rest) at h
  fun_induction runLoop turn want body state feed with
  | case1 => cases h
  | case2 state feed result rest₁ h₁ =>
    cases h
    exact ⟨state, feed, h₁⟩
  | case3 => cases h
  | case4 => cases h
  | case5 _ _ _ _ _ _ _ _ _ _ _ ih => exact ih h

/-- A document is read up to the token for the end of the text. -/
theorem nextIs_of_document_run {feed rest : Feed} {d : Document}
    (h : document.run feed = .ok (d, rest)) : rest.nextIs .endOfText = true := by
  obtain ⟨last, before, hturn⟩ := exists_turn_of_loop_run h
  rw [bind_run] at hturn
  split at hturn
  · next texts mid _ =>
    rw [bind_run, show (nextIs .endOfText).run mid = .ok (mid.nextIs .endOfText, mid) from rfl]
      at hturn
    cases hend : mid.nextIs .endOfText with
    | true =>
      simp only [hend, if_true, pure_run] at hturn
      cases hturn
      exact hend
    | false => simp [hend] at hturn
  · cases hturn

end Parser

namespace Document

variable {file : String} {tokens : List Token}

theorem settlesAt_ofTokens (file : String) (tokens more : List Token) :
    Parser.SettlesAt tokens more Parser.document (.ofTokens file tokens) :=
  Parser.careful_document.settles _ ⟨[], rfl, List.forall_mem_nil _⟩

theorem exists_run_of_ofTokens {d : Document} (h : ofTokens file tokens = .ok d) :
    ∃ rest, Parser.document.run (.ofTokens file tokens) = .ok (d, rest) := by
  unfold ofTokens at h
  split at h
  · next d' rest hrun =>
    cases h
    exact ⟨rest, hrun⟩
  · cases h

theorem run_of_ofTokens_eq_error {e : Diagnostic} (h : ofTokens file tokens = .error e) :
    Parser.document.run (.ofTokens file tokens) = .error e := by
  unfold ofTokens at h
  split at h
  · cases h
  · next e' hrun =>
    cases h
    exact hrun

/-- Tokens that form a document are plain up to one for the end of the text. -/
theorem exists_endOfText_of_ofTokens {d : Document} (h : ofTokens file tokens = .ok d) :
    ∃ token, (tokens.dropWhile Token.isPlain).head? = some token ∧ token.kind = .endOfText := by
  obtain ⟨rest, hrun⟩ := exists_run_of_ofTokens h
  have hverdict := settlesAt_ofTokens file tokens []
  obtain ⟨token, hnext, hkind⟩ :=
    Feed.exists_next?_of_nextIs (Parser.nextIs_of_document_run hrun)
  obtain ⟨behind, hbehind⟩ := List.head?_eq_some_iff.1 hnext
  refine ⟨token, ?_, hkind⟩
  rw [(hverdict.ok hrun).1.dropWhile_eq, hbehind,
    List.dropWhile_cons_of_neg (by simp [Token.isPlain, hkind]), List.head?_cons]

/-- A failure to form a document blames one of the tokens, or that they end. -/
theorem blames_of_ofTokens {e : Diagnostic} (h : ofTokens file tokens = .error e) :
    Blames tokens e :=
  ((settlesAt_ofTokens file tokens []).error (run_of_ofTokens_eq_error h)).1

/-- **What follows is irrelevant for a verdict.** Tokens that form a document have the end of the
text among them and form the same document with any tokens behind them. Tokens that fail to form
one, for another cause than that they end, fail alike with any tokens behind them. -/
theorem ofTokens_append (file : String) (tokens more : List Token) :
    (∀ d, ofTokens file tokens = .ok d → ofTokens file (tokens ++ more) = .ok d ∧
        ∃ token ∈ tokens, token.kind = .endOfText) ∧
      ∀ e, ofTokens file tokens = .error e →
        (∀ expected, e.cause ≠ .syntactic (.unexpectedEnd expected)) →
          ofTokens file (tokens ++ more) = .error e := by
  have hverdict := settlesAt_ofTokens file tokens more
  constructor
  · intro d h
    obtain ⟨rest, hrun⟩ := exists_run_of_ofTokens h
    obtain ⟨token, hnext, hkind⟩ :=
      Feed.exists_next?_of_nextIs (Parser.nextIs_of_document_run hrun)
    have hmore : Parser.document.run (.ofTokens file (tokens ++ more)) = _ :=
      (hverdict.ok hrun).2 (Feed.tokens_ne_nil_of_next? hnext)
    constructor
    · rw [ofTokens, hmore]
    · obtain ⟨token, hhead, hkind⟩ := exists_endOfText_of_ofTokens h
      exact ⟨token, (List.dropWhile_suffix _).subset (List.mem_of_mem_head? hhead), hkind⟩
  · intro e h hend
    have hnotEnd : ¬e.AtEnd := not_exists.2 hend
    have hmore : Parser.document.run (.ofTokens file (tokens ++ more)) = _ :=
      (hverdict.error (run_of_ofTokens_eq_error h)).2 hnotEnd
    rw [ofTokens, hmore]

/-- The end of a document, and an unknown key of a schema block, with the rest of an entry behind
each. -/
theorem ofTokens_append_key :
    let token (kind : TokenKind) : Token := ⟨kind, default⟩
    let empty := [token .endOfText]
    let block := [token (.keyword .schema), token (.punctuator .braceOpen), token (.name "mutate")]
    let more := [token (.punctuator .colon), token (.name "Mutation")]
    let unknown := Parser.unknownSchemaKey "mutate" default
    (ofTokens "" empty = .ok .empty ∧ ofTokens "" block = .error unknown) ∧
      (ofTokens "" (empty ++ more) = .ok .empty ∧ ∃ token ∈ empty, token.kind = .endOfText) ∧
      ofTokens "" (block ++ more) = .error unknown := by
  intro token empty block more unknown
  have hempty : ofTokens "" empty = .ok .empty := by decide +kernel
  have hblock : ofTokens "" block = .error unknown := by decide +kernel
  refine ⟨⟨hempty, hblock⟩, ?_, ?_⟩
  · exact (ofTokens_append "" empty more).1 .empty hempty
  · exact (ofTokens_append "" block more).2 unknown hblock nofun

end Document

end SchemaMerge
