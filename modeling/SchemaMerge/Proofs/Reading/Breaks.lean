import SchemaMerge.Proofs.Reading.Offsets

/-!
# Documents with line breaks of any style

No parser looks at offsets, from the literals up to whole documents (`mirrors_document`), and line
breaks of another style change nothing else in the tokens. So a text gives the same document, or the
same failure, however its lines are broken (`ofText_normalizeBreaks`).
-/

namespace SchemaMerge

namespace Parser

variable {α τ : Type} {f : α → α}

/-! ## Descriptions and comments -/

theorem mirrors_skipCommas : Mirrors skipCommas skipCommas id :=
  (mirrors_takeRun fun kind => by
    simp only [@TokenKind.withoutOffsets_eq_iff kind (.punctuator .comma) rfl]).bind
    fun _ => mirrors_pure rfl

theorem mirrors_descriptions : Mirrors descriptions descriptions id :=
  (mirrors_swapCarried []).bind fun _ =>
    (mirrors_takeRun TokenKind.description?_withoutOffsets).bind fun _ => mirrors_pure rfl

theorem mirrors_innerComments : Mirrors innerComments innerComments id :=
  mirrors_takeRun TokenKind.comment?_withoutOffsets

/-- Whether a comment trails what stands before it is a question of lines. -/
theorem mirrors_trailingComment : Mirrors trailingComment trailingComment id := by
  refine mirrors_skipCommas.bind fun _ => mirrors_feed.bind fun feed => ?_
  rw [feed.trailing?_withoutOffsets]
  cases feed.trailing? with
  | none => exact mirrors_pure rfl
  | some comment => exact mirrors_advance.bind fun _ => mirrors_pure rfl

/-- Comments in a header are told apart by lines as well. -/
theorem mirrors_headerComments : Mirrors headerComments headerComments id := by
  refine mirrors_feed.bind fun feed => ?_
  rw [feed.trailing?_withoutOffsets]
  exact mirrors_innerComments.bind fun comments => (mirrors_nextIs rfl).bind fun brace =>
    mirrors_ite (mirrors_pure rfl) ((mirrors_swapCarried _).bind fun _ => mirrors_pure rfl)

/-! ## Values, types and directives -/

theorem mirrors_name (what : String) : Mirrors (name what) (name what) id :=
  (mirrors_expect (Want.mirrors_name what)).bind fun _ => mirrors_pure rfl

theorem mirrors_mark (mark : Punctuator) :
    Mirrors (expect (.mark mark)) (expect (.mark mark)) Span.withoutOffsets :=
  mirrors_expect (Want.mirrors_mark mark)

theorem Want.mirrors_listItem : Want.listItem.Mirrors (Sum.map Span.withoutOffsets id) := by
  intro token
  have hkind := @TokenKind.withoutOffsets_eq_iff token.kind (.punctuator .bracketOpen) rfl
  simp only [Want.listItem, Token.withoutOffsets, hkind, TokenKind.literal?_withoutOffsets]
  split
  · rfl
  · cases token.kind.literal? <;> rfl

/-- A list literal mirrors, by induction on how deep lists may be nested in it. -/
theorem mirrors_listTail (separator : String) (depth : Nat) (opening : Span) :
    Mirrors (listTail separator depth opening) (listTail separator depth opening.withoutOffsets)
      id := by
  induction depth generalizing opening with
  | zero => exact mirrors_fail _
  | succ depth ih =>
    refine (mirrors_loop id id id _ (fun values => ?_) Want.mirrors_listItem
      (fun values item => ?_) []).bind fun values => (mirrors_mark _).bind fun _ => mirrors_pure rfl
    · exact mirrors_skipCommas.bind fun _ => (mirrors_nextIs rfl).bind fun close =>
        mirrors_ite (mirrors_pure rfl) (mirrors_pure rfl)
    · cases item with
      | inl opening => exact (ih opening).bind fun nested => mirrors_pure rfl
      | inr value => exact mirrors_pure rfl

/-- Values hold no places. -/
theorem mirrors_value (separator : String) : Mirrors (value separator) (value separator) id := by
  refine (mirrors_nextIs rfl).bind fun bracket => mirrors_ite ?_ ?_
  · exact (mirrors_mark _).bind fun opening =>
      (mirrors_listTail separator maxListDepth opening).bind fun values => mirrors_pure rfl
  · exact (mirrors_expect Want.mirrors_literal).bind fun _ => mirrors_pure rfl

theorem mirrors_optionalDefault : Mirrors optionalDefault optionalDefault id :=
  (mirrors_takeIf rfl).bind fun _ => mirrors_ite
    ((mirrors_value _).bind fun _ => mirrors_pure rfl) (mirrors_pure rfl)

theorem mirrors_typeRef : Mirrors typeRef typeRef id := by
  refine (mirrors_takeIf rfl).bind fun bracket => mirrors_ite ?_ ?_
  · exact (mirrors_name _).bind fun name => (mirrors_takeIf rfl).bind fun bang =>
      (mirrors_mark _).bind fun _ => (mirrors_takeIf rfl).bind fun listBang => mirrors_pure rfl
  · exact (mirrors_name _).bind fun name => (mirrors_takeIf rfl).bind fun bang => mirrors_pure rfl

theorem mirrors_turnInParens (stop : List String → α) (go : List String → τ) :
    Mirrors (turnInParens stop go) (turnInParens stop go) (Sum.map id id) :=
  mirrors_skipCommas.bind fun _ => mirrors_descriptions.bind fun _ =>
    mirrors_skipCommas.bind fun _ => (mirrors_nextIs rfl).bind fun _ =>
      mirrors_ite (mirrors_pure rfl) (mirrors_pure rfl)

theorem mirrors_directiveArguments : Mirrors directiveArguments directiveArguments id := by
  refine (mirrors_takeIf rfl).bind fun paren => mirrors_ite ?_ (mirrors_pure rfl)
  refine (mirrors_loop id id id _ (fun found => ?_) (Want.mirrors_name _)
    (fun found name => ?_) ([], [])).bind fun found => (mirrors_mark _).bind fun _ =>
      mirrors_pure rfl
  · exact mirrors_turnInParens (fun texts => (found.1, found.2 ++ texts)) fun texts =>
      (found.1, found.2 ++ texts)
  · exact (mirrors_mark _).bind fun _ => (mirrors_value _).bind fun value => mirrors_pure rfl

/-- Nor do directives. -/
theorem mirrors_directives : Mirrors directives directives id := by
  refine mirrors_loop id id id _ (fun found => ?_) (Want.mirrors_mark _) (fun found _ => ?_) []
  · exact (mirrors_nextIs rfl).bind fun sign => mirrors_ite (mirrors_pure rfl) (mirrors_pure rfl)
  · exact mirrors_descriptions.bind fun before => (mirrors_name _).bind fun name =>
      mirrors_directiveArguments.bind fun inner => mirrors_pure rfl

/-! ## Members -/

theorem mirrors_argumentTail (texts : List String) (name : String) :
    Mirrors (argumentTail texts name) (argumentTail texts name) id :=
  (mirrors_mark _).bind fun _ => mirrors_innerComments.bind fun _ =>
    mirrors_typeRef.bind fun _ => mirrors_optionalDefault.bind fun _ =>
      mirrors_directives.bind fun _ => mirrors_pure rfl

theorem mirrors_optionalArguments : Mirrors optionalArguments optionalArguments id := by
  refine (mirrors_takeIf rfl).bind fun paren => mirrors_ite ?_ (mirrors_pure rfl)
  refine (mirrors_loop id id id _ (fun found => ?_) (Want.mirrors_name _)
    (fun entry name => ?_) []).bind fun found => (mirrors_mark _).bind fun _ => mirrors_pure rfl
  · exact mirrors_turnInParens (fun _ => found) fun texts => (found, texts)
  · exact (mirrors_argumentTail _ _).bind fun a => mirrors_pure rfl

/-- A body that does not end is reported with the place of its brace. -/
theorem mirrors_closesBraces (expected : List String) (opening : Span) :
    Mirrors (closesBraces expected opening) (closesBraces expected opening.withoutOffsets) id := by
  refine mirrors_feed.bind fun feed => ?_
  rw [feed.next?_withoutOffsets, feed.unexpectedInBraces_withoutOffsets]
  cases feed.next? with
  | none => exact mirrors_pure rfl
  | some token =>
    have hclose := @TokenKind.withoutOffsets_eq_iff token.kind (.punctuator .braceClose) rfl
    simp only [Option.map_some, Token.withoutOffsets, hclose, TokenKind.name?_withoutOffsets]
    split
    · exact mirrors_pure rfl
    · exact mirrors_ite (mirrors_pure rfl) (mirrors_fail _)

/-- In a body, a turn ends it or goes on to a member, alike on both sides. -/
theorem mirrors_turnInBraces {stop stop' : List String → α} {go go' : List String → τ} {g : τ → τ}
    (expected : List String) (opening : Span) (hstop : ∀ texts, stop' texts = f (stop texts))
    (hgo : ∀ texts, go' texts = g (go texts)) :
    Mirrors (turnInBraces stop go expected opening)
      (turnInBraces stop' go' expected opening.withoutOffsets) (Sum.map f g) :=
  mirrors_skipCommas.bind fun _ => mirrors_descriptions.bind fun texts =>
    (mirrors_closesBraces expected opening).bind fun _ =>
      mirrors_ite (mirrors_pure (congrArg Sum.inl (hstop texts)))
        (mirrors_pure (congrArg Sum.inr (hgo texts)))

/-- Members mirror if each of them does. -/
theorem mirrors_optionalMembers {what : String} {member : List String → String × Span → Parser α}
    (h : ∀ texts name, Mirrors (member texts name)
      (member texts (Prod.map id Span.withoutOffsets name)) f) :
    Mirrors (optionalMembers what member) (optionalMembers what member) (List.map f) := by
  refine (mirrors_nextIs rfl).bind fun brace => mirrors_ite ?_ (mirrors_pure rfl)
  refine (mirrors_mark _).bind fun opening => ?_
  refine (mirrors_loop (List.map f) (List.map f) (Prod.map (List.map f) id) _ (fun found => ?_)
    (Want.mirrors_name _) (fun entry name => ?_) []).bind fun found =>
      (mirrors_mark _).bind fun _ => mirrors_pure rfl
  · exact mirrors_turnInBraces _ opening (fun _ => rfl) fun _ => rfl
  · exact (h entry.2 name).bind fun a => mirrors_pure (by simp)

/-- A field has the place of its name. -/
theorem mirrors_fieldTail (texts : List String) (name : String × Span) :
    Mirrors (fieldTail texts name) (fieldTail texts (Prod.map id Span.withoutOffsets name))
      Field.withoutOffsets :=
  mirrors_optionalArguments.bind fun _ => (mirrors_mark _).bind fun _ =>
    mirrors_innerComments.bind fun _ => mirrors_typeRef.bind fun _ =>
      mirrors_optionalDefault.bind fun _ => mirrors_directives.bind fun _ =>
        mirrors_trailingComment.bind fun _ => mirrors_pure rfl

theorem mirrors_optionalFields :
    Mirrors optionalFields optionalFields (List.map Field.withoutOffsets) :=
  mirrors_optionalMembers mirrors_fieldTail

theorem mirrors_enumValueTail (texts : List String) (name : String × Span) :
    Mirrors (enumValueTail texts name) (enumValueTail texts (Prod.map id Span.withoutOffsets name))
      id :=
  mirrors_directives.bind fun _ => mirrors_trailingComment.bind fun _ => mirrors_pure rfl

theorem mirrors_optionalEnumValues : Mirrors optionalEnumValues optionalEnumValues id := by
  have hvalues := @mirrors_optionalMembers _ id "enum value" _ mirrors_enumValueTail
  rwa [List.map_id_fun] at hvalues

theorem mirrors_separatedNames (separator : Punctuator) (what : String) :
    Mirrors (separatedNames separator what) (separatedNames separator what) id := by
  refine (mirrors_takeIf rfl).bind fun _ => ?_
  refine mirrors_loop id id id _ (fun state => ?_) (Want.mirrors_name _) (fun names name => ?_)
    ([], true)
  · obtain ⟨names, more⟩ := state
    cases more <;> exact mirrors_pure rfl
  · exact (mirrors_takeIf rfl).bind fun more => mirrors_pure rfl

theorem mirrors_optionalInterfaces : Mirrors optionalInterfaces optionalInterfaces id :=
  (mirrors_takeIf rfl).bind fun _ => mirrors_ite
    ((mirrors_separatedNames _ _).bind fun _ => mirrors_pure rfl) (mirrors_pure rfl)

theorem mirrors_optionalUnionMembers : Mirrors optionalUnionMembers optionalUnionMembers id :=
  (mirrors_takeIf rfl).bind fun _ =>
    mirrors_ite (mirrors_separatedNames _ _) (mirrors_pure rfl)

/-! ## Definitions -/

/-- A key that is no operation, or one that was there before, is reported at its place. -/
theorem mirrors_schemaEntryTail (block : SchemaBlock) (key : String × Span) :
    Mirrors (schemaEntryTail block key)
      (schemaEntryTail block.withoutOffsets (Prod.map id Span.withoutOffsets key))
      SchemaBlock.withoutOffsets := by
  obtain ⟨key, span⟩ := key
  simp only [schemaEntryTail, Prod.map, id]
  cases RootOperation.ofKey? key with
  | none => exact mirrors_fail _
  | some operation =>
    refine (mirrors_mark _).bind fun _ => mirrors_innerComments.bind fun inner =>
      (mirrors_name _).bind fun type => ?_
    cases operation <;> exact mirrors_ite (mirrors_fail _) (mirrors_pure rfl)

theorem mirrors_schemaBlockTail (texts : List String) (span : Span) :
    Mirrors (schemaBlockTail texts span) (schemaBlockTail texts span.withoutOffsets)
      SchemaBlock.withoutOffsets := by
  refine mirrors_innerComments.bind fun inner => (mirrors_mark _).bind fun opening => ?_
  refine (mirrors_loop SchemaBlock.withoutOffsets SchemaBlock.withoutOffsets
    SchemaBlock.withoutOffsets _ (fun block => ?_) (Want.mirrors_name _)
    mirrors_schemaEntryTail _).bind fun block => (mirrors_mark _).bind fun _ => mirrors_pure rfl
  exact mirrors_turnInBraces _ opening (fun _ => rfl) fun _ => rfl

theorem mirrors_directiveDefinitionTail (texts : List String) :
    Mirrors (directiveDefinitionTail texts) (directiveDefinitionTail texts)
      DirectiveDefinition.withoutOffsets :=
  (mirrors_mark _).bind fun _ => (mirrors_expect (Want.mirrors_name _)).bind fun _ =>
    mirrors_optionalArguments.bind fun _ => (mirrors_takeIf rfl).bind fun _ =>
      (mirrors_expect (Want.mirrors_keyword _)).bind fun _ =>
        (mirrors_separatedNames _ _).bind fun _ =>
          mirrors_trailingComment.bind fun _ => mirrors_pure rfl

theorem mirrors_scalarTail (texts : List String) :
    Mirrors (scalarTail texts) (scalarTail texts) ScalarDefinition.withoutOffsets :=
  (mirrors_expect (Want.mirrors_name _)).bind fun _ => mirrors_directives.bind fun _ =>
    mirrors_trailingComment.bind fun _ => mirrors_pure rfl

theorem mirrors_enumTail (texts : List String) :
    Mirrors (enumTail texts) (enumTail texts) EnumDefinition.withoutOffsets :=
  (mirrors_expect (Want.mirrors_name _)).bind fun _ => mirrors_directives.bind fun _ =>
    mirrors_headerComments.bind fun _ => mirrors_optionalEnumValues.bind fun _ =>
      mirrors_trailingComment.bind fun _ => mirrors_pure rfl

theorem mirrors_fieldsDefinitionTail (what : String) (texts : List String) :
    Mirrors (fieldsDefinitionTail what texts) (fieldsDefinitionTail what texts)
      FieldsDefinition.withoutOffsets :=
  (mirrors_expect (Want.mirrors_name _)).bind fun _ => mirrors_directives.bind fun _ =>
    mirrors_headerComments.bind fun _ => mirrors_optionalFields.bind fun _ =>
      mirrors_trailingComment.bind fun _ => mirrors_pure rfl

theorem mirrors_unionTail (texts : List String) :
    Mirrors (unionTail texts) (unionTail texts) UnionDefinition.withoutOffsets :=
  (mirrors_expect (Want.mirrors_name _)).bind fun _ => mirrors_directives.bind fun _ =>
    mirrors_optionalUnionMembers.bind fun _ => mirrors_trailingComment.bind fun _ =>
      mirrors_pure rfl

theorem mirrors_typeTail (isExtension : Bool) (texts : List String) :
    Mirrors (typeTail isExtension texts) (typeTail isExtension texts)
      TypeDefinition.withoutOffsets :=
  (mirrors_expect (Want.mirrors_name _)).bind fun _ =>
    mirrors_optionalInterfaces.bind fun _ => mirrors_directives.bind fun _ =>
      mirrors_headerComments.bind fun _ => mirrors_optionalFields.bind fun _ =>
        mirrors_trailingComment.bind fun _ => mirrors_pure rfl

/-! ## Documents -/

theorem Want.mirrors_definition :
    Want.definition.Mirrors (Prod.map id Span.withoutOffsets) := by
  intro token
  have hword (word : DefinitionWord) : decide (token.kind.withoutOffsets = .keyword word.keyword) =
      decide (token.kind = .keyword word.keyword) :=
    decide_eq_decide.2 (TokenKind.withoutOffsets_eq_iff rfl)
  simp only [Want.definition, Token.withoutOffsets, hword, Option.map_map]
  rfl

/-- Only a schema block has the place of its first word; the others have those of their names. -/
theorem mirrors_definitionTail (document : Document) (texts : List String)
    (word : DefinitionWord × Span) :
    Mirrors (definitionTail document texts word)
      (definitionTail document.withoutOffsets texts (Prod.map id Span.withoutOffsets word))
      Document.withoutOffsets := by
  obtain ⟨word, span⟩ := word
  cases word with
  | schema =>
    exact (mirrors_schemaBlockTail texts span).bind fun _ =>
      mirrors_pure (by simp [Document.withoutOffsets])
  | directive =>
    exact (mirrors_directiveDefinitionTail texts).bind fun _ =>
      mirrors_pure (by simp [Document.withoutOffsets])
  | scalar =>
    exact (mirrors_scalarTail texts).bind fun _ => mirrors_pure (by simp [Document.withoutOffsets])
  | enum =>
    exact (mirrors_enumTail texts).bind fun _ => mirrors_pure (by simp [Document.withoutOffsets])
  | interface =>
    exact (mirrors_fieldsDefinitionTail _ texts).bind fun _ =>
      mirrors_pure (by simp [Document.withoutOffsets])
  | union =>
    exact (mirrors_unionTail texts).bind fun _ => mirrors_pure (by simp [Document.withoutOffsets])
  | input =>
    exact (mirrors_fieldsDefinitionTail _ texts).bind fun _ =>
      mirrors_pure (by simp [Document.withoutOffsets])
  | type =>
    exact (mirrors_typeTail false texts).bind fun _ =>
      mirrors_pure (by simp [Document.withoutOffsets])
  | extend =>
    exact (mirrors_expect (Want.mirrors_keyword _)).bind fun _ =>
      (mirrors_typeTail true texts).bind fun _ => mirrors_pure (by simp [Document.withoutOffsets])

/-- So a whole document is read alike, but for the offsets of its places. -/
theorem mirrors_document : Mirrors document document Document.withoutOffsets := by
  refine mirrors_loop Document.withoutOffsets Document.withoutOffsets
    (Prod.map Document.withoutOffsets id) _ (fun document => ?_) Want.mirrors_definition
    (fun entry word => mirrors_definitionTail entry.1 entry.2 word) .empty
  exact mirrors_descriptions.bind fun texts => (mirrors_nextIs rfl).bind fun close =>
    mirrors_ite (mirrors_pure rfl) (mirrors_pure rfl)

end Parser

/-- Tokens without offsets form the document that the tokens form, without offsets. -/
theorem Document.ofTokens_withoutOffsets (file : String) (tokens : List Token) :
    ofTokens file (tokens.map Token.withoutOffsets) =
      forgetOffsets withoutOffsets (ofTokens file tokens) := by
  have hrun : Parser.document.run (.ofTokens file (tokens.map Token.withoutOffsets)) = _ :=
    Parser.mirrors_document (.ofTokens file tokens)
  rw [ofTokens, hrun, ofTokens]
  cases Parser.document.run (.ofTokens file tokens) <;> rfl

/-- **How the lines of a text are broken is irrelevant**: a text and the same text with one line
feed for each line break have the same tokens and give the same document, or the same failure, up
to the offsets of positions. -/
theorem ofText_normalizeBreaks (file text : String) :
    let plain := String.ofList (Text.normalizeBreaks text.toList)
    (Token.ofText file plain).map Token.withoutOffsets =
        (Token.ofText file text).map Token.withoutOffsets ∧
      forgetOffsets Document.withoutOffsets (Document.ofText file plain) =
        forgetOffsets Document.withoutOffsets (Document.ofText file text) := by
  intro plain
  have htokens : (Token.ofText file plain).map Token.withoutOffsets =
      (Token.ofText file text).map Token.withoutOffsets := by
    rw [Token.ofText, String.toList_ofList, Token.ofText]
    exact tokensFrom_normalizeBreaks (Tracker.alongside_start text.toList)
  refine ⟨htokens, ?_⟩
  rw [Document.ofText, ← Document.ofTokens_withoutOffsets, htokens,
    Document.ofTokens_withoutOffsets, Document.ofText]

end SchemaMerge
