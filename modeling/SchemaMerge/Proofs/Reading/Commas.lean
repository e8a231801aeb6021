import SchemaMerge.Proofs.Reading.Append
import SchemaMerge.Proofs.Reading.Blanks
import SchemaMerge.Proofs.Reading.Bodies

/-!
# Documents without commas

Commas mean nothing: if every comma of a text stands on the line on which the token before it ends,
the text with spaces for its commas gives the same document, at the same places
(`ofText_blankCommas`). A comma on a later line does mean something: a comment behind it trails what
stands before it.
-/

namespace SchemaMerge

open SchemaMerge.Parser

namespace Parser

variable {tokens : List Token} {feed thin rest : Feed}

/-! ## Definitions -/

theorem skimsTo_enumTail (texts : List String) :
    SkimsTo tokens (Meets tokens) Feed.OffComma (enumTail texts) fun _ => AtDefinition :=
  (skims_expect_offComma (Want.solid_name _)).bind fun _ =>
    (skims_directives fresh_boundaryKind).bind fun _ =>
      skimsTo_bodyTail (fun _ _ _ => rfl) skims_enumValueTail

theorem skimsTo_fieldsDefinitionTail (what : String) (texts : List String) :
    SkimsTo tokens (Meets tokens) Feed.OffComma (fieldsDefinitionTail what texts)
      fun _ => AtDefinition :=
  (skims_expect_offComma (Want.solid_name _)).bind fun _ =>
    (skims_directives fresh_boundaryKind).bind fun _ =>
      skimsTo_bodyTail (fun _ _ _ => rfl) skims_fieldTail

theorem skimsTo_typeTail (isExtension : Bool) (texts : List String) :
    SkimsTo tokens (Meets tokens) Feed.OffComma (typeTail isExtension texts)
      fun _ => AtDefinition :=
  (skims_expect_offComma (Want.solid_name _)).bind fun _ =>
    (skims_optionalInterfaces fresh_boundaryKind nofun).bind fun _ =>
      (skims_directives fresh_boundaryKind).bind fun _ =>
        skimsTo_bodyTail (fun _ _ _ => rfl) skims_fieldTail

theorem skimsTo_definitionTail (d : Document) (texts : List String)
    (word : DefinitionWord × Span) :
    SkimsTo tokens (Meets tokens) Feed.OffComma (definitionTail d texts word)
      fun _ => AtDefinition := by
  obtain ⟨word, span⟩ := word
  cases word with
  | schema => exact (SkimsTo.meets (skims_schemaBlockTail texts span)).map _
  | directive => exact (SkimsTo.meets (skims_directiveDefinitionTail texts)).map _
  | scalar => exact (SkimsTo.meets (skims_scalarTail texts)).map _
  | enum => exact (skimsTo_enumTail texts).map _
  | interface => exact (skimsTo_fieldsDefinitionTail _ texts).map _
  | union => exact (SkimsTo.meets (skims_unionTail texts)).map _
  | input => exact (skimsTo_fieldsDefinitionTail _ texts).map _
  | type => exact (skimsTo_typeTail false texts).map _
  | extend =>
    exact (skims_expect_offComma (Want.solid_keyword _)).bind fun _ =>
      (skimsTo_typeTail true texts).map _

/-! ## Documents -/

variable {d d' : Document}

theorem exists_descriptions_run_of_documentTurn {turned : Document ⊕ (Document × List String)}
    (h : (documentTurn d).run feed = .ok (turned, rest)) :
    ∃ texts, descriptions.run feed = .ok (texts, rest) ∧
      turned = if rest.nextIs .endOfText then .inl d else .inr (d, texts) := by
  have hrun := descriptions_run_eq feed
  cases hend : (splitRun TokenKind.description? { feed with carried := [] } feed.tokens).2.nextIs
      .endOfText with
  | true =>
    rw [documentTurn_run_eq_inl hrun hend] at h
    cases h
    exact ⟨_, hrun, by rw [hend]; rfl⟩
  | false =>
    rw [documentTurn_run_eq_inr hrun hend] at h
    cases h
    exact ⟨_, hrun, by rw [hend]; rfl⟩

theorem faces_of_nextIs_endOfText (h : feed.nextIs .endOfText = true) :
    feed.Faces DefinitionKind := (Feed.faces_of_nextIs h).mono fun _ hkind => hkind ▸ ⟨rfl, rfl⟩

theorem definitionKind_of_read {token : Token} {word : DefinitionWord × Span}
    (h : Want.definition.read token = some word) : DefinitionKind token.kind := by
  obtain ⟨definition, hfind, -⟩ := Option.map_eq_some_iff.1 h
  have hkind : token.kind = .keyword definition.keyword := by simpa using List.find?_some hfind
  rw [hkind]
  exact ⟨List.any_eq_true.2 ⟨definition, List.mem_of_find?_eq_some hfind, by simp⟩, rfl⟩

theorem skims_word {post : DefinitionWord × Span → Feed → Prop} :
    Skims tokens (Feed.Faces DefinitionKind) (expect Want.definition) post :=
  skims_expect (fun _ _ => definitionKind_of_read) not_definitionKind_comma

theorem faces_of_word_run {word : DefinitionWord × Span}
    (h : (expect Want.definition).run feed = .ok (word, rest)) : feed.Faces DefinitionKind :=
  (@skims_word [] fun _ _ => True).needs h trivial

/-- A round starts where a definition starts or the text ends. -/
theorem faces_of_documentTurn_run (h : (documentTurn d).run feed = .ok (.inl d', rest)) :
    rest.Faces DefinitionKind := by
  obtain ⟨texts, -, hturned⟩ := exists_descriptions_run_of_documentTurn h
  cases hend : rest.nextIs .endOfText with
  | true => exact faces_of_nextIs_endOfText hend
  | false =>
    rw [hend] at hturned
    cases hturned

theorem exists_documentTurn_run {turned : Document ⊕ (Document × List String)}
    (hmeets : Meets tokens feed thin) (h : (documentTurn d).run feed = .ok (turned, rest))
    (hfaces : rest.Faces DefinitionKind) :
    ∃ thinRest, (documentTurn d).run thin = .ok (turned, thinRest) ∧ Thin tokens rest thinRest := by
  obtain ⟨texts, hrun, rfl⟩ := exists_descriptions_run_of_documentTurn h
  obtain ⟨texts', rest', thinRest, hrun', hthinRun, hthin⟩ := hmeets
  obtain ⟨rfl, rfl⟩ := Prod.mk.inj (Except.ok.inj (hrun.symm.trans hrun'))
  have hclear : rest.Clear (· ≠ .endOfText) := hfaces.clear not_definitionKind_comma
  have hsame := hthin.nextIs_eq (by simp) hclear
  refine ⟨thinRest, ?_, hthin⟩
  cases hend : rest.nextIs .endOfText with
  | true => exact documentTurn_run_eq_inl hthinRun (hsame.trans hend)
  | false => exact documentTurn_run_eq_inr hthinRun (hsame.trans hend)

/-- A document is read from where a definition starts, or from its end. -/
theorem atDefinition_of_documentFrom_run (h : (documentFrom d).run feed = .ok (d', rest)) :
    AtDefinition feed := by
  rw [documentFrom, loop_eq, bind_run] at h
  split at h
  · next turned mid hturn =>
    obtain ⟨texts, hrun, -⟩ := exists_descriptions_run_of_documentTurn hturn
    refine ⟨texts, mid, hrun, ?_⟩
    cases turned with
    | inl result => exact faces_of_documentTurn_run hturn
    | inr entry =>
      simp only [bind_run] at h
      split at h
      · next word behind hword => exact faces_of_word_run hword
      · cases h
  · cases h

/-- **What is left of a document is read alike from where the same documentation leads to the same
place.** -/
theorem exists_documentFrom_run (hmeets : Meets tokens feed thin)
    (hrun : (documentFrom d).run feed = .ok (d', rest)) :
    ∃ thinRest, (documentFrom d).run thin = .ok (d', thinRest) := by
  change runLoop _ _ _ _ _ = _ at hrun
  fun_induction runLoop documentTurn Want.definition
    (fun entry word => definitionTail entry.1 entry.2 word) d feed generalizing thin with
  | case1 => cases hrun
  | case2 d feed result mid hturn =>
    cases hrun
    obtain ⟨thinMid, hthinTurn, -⟩ :=
      exists_documentTurn_run hmeets hturn (faces_of_documentTurn_run hturn)
    refine ⟨thinMid, ?_⟩
    rw [documentFrom, loop_eq, bind_run, hthinTurn]
    rfl
  | case3 => cases hrun
  | case4 => cases hrun
  | case5 d feed entry mid hturn word behind hword next left htail ih =>
    obtain ⟨thinMid, hthinTurn, hmid⟩ :=
      exists_documentTurn_run hmeets hturn (faces_of_word_run hword)
    obtain ⟨thinBehind, hthinWord, hbehind⟩ :=
      (@skims_word tokens fun _ _ => True).exists_run hmid hword trivial
    obtain ⟨thinLeft, hthinTail, hleft⟩ :=
      (skimsTo_definitionTail entry.1 entry.2 word).exists_run hbehind htail
        (atDefinition_of_documentFrom_run hrun)
    obtain ⟨thinRest, hthinRest⟩ := ih hleft hrun
    refine ⟨thinRest, ?_⟩
    rw [documentFrom, loop_eq, bind_run, hthinTurn]
    show (expect Want.definition >>= _).run thinMid = _
    rw [bind_run, hthinWord]
    show (definitionTail entry.1 entry.2 word >>= _).run thinBehind = _
    rw [bind_run, hthinTail]
    exact hthinRest

end Parser

/-! ## Texts -/

section

variable {file text : String} {tracker : Tracker} {cs : List Char} {d : Document}

/-- A comma ends on the line on which it starts. -/
theorem line_eq_of_comma {token : Token} (h : token ∈ tokensFrom file tracker cs)
    (hkind : token.kind = .punctuator .comma) :
    token.span.stop.line = token.span.start.line := by
  fun_induction tokensFrom file tracker cs with
  | case1 tracker cs found start stop span last hnil =>
    obtain rfl := List.mem_singleton.1 h
    have hend := (kindAt_eq_endOfText_iff cs span).2 hnil
    cases hend.symm.trans hkind
  | case2 tracker cs found start stop span first hne ih =>
    rcases List.mem_cons.1 h with rfl | hrest
    · have hlexeme : found.lexeme = [','] :=
        lexeme_of_comma (spells_of_kindAt hkind rfl hne)
      show (start.advance found.lexeme).position.line = start.position.line
      rw [hlexeme, Tracker.advance_cons, Tracker.advance_nil,
        Tracker.line_step_of_not_isBreak _ rfl]
    · exact ih hrest

/-- In a text that is read, commas follow other tokens, if they stand on their lines. -/
theorem commasFollow_ofText (h : Document.ofText file text = .ok d)
    (hlines : (Token.ofText file text).IsChain fun before comma =>
      comma.kind = .punctuator .comma → comma.span.start.line = before.span.stop.line) :
    CommasFollow (Token.ofText file text) where
  head token htoken hkind := by
    obtain ⟨rest, hrun⟩ := Document.exists_run_of_ofTokens h
    rw [document_eq] at hrun
    have hfaces := (atDefinition_of_documentFrom_run hrun).faces
    exact hfaces.not_onComma nofun ⟨token, htoken, hkind⟩
  follow := by
    have hcomments : (Token.ofText file text).IsChain _ := line_lt_behind_comment_tokensFrom
    rw [List.isChain_iff_getElem] at hlines hcomments ⊢
    intro i hi hkind
    have hline := hlines i hi hkind
    have hflat := line_eq_of_comma (List.getElem_mem hi) hkind
    refine ⟨Option.not_isSome_iff_eq_none.1 fun hcomment => ?_, hflat.trans hline⟩
    have hlt := hcomments i hi hcomment (by simp [hkind])
    exact absurd hline (Nat.ne_of_gt hlt)

/-- **Commas mean nothing.** A text in which every comma stands on the line on which the token
before it ends is read as the same document with spaces for its commas. -/
theorem ofText_blankCommas (h : Document.ofText file text = .ok d)
    (hlines : (Token.ofText file text).IsChain fun before comma =>
      comma.kind = .punctuator .comma → comma.span.start.line = before.span.stop.line) :
    Document.ofText file (blankCommas (Token.ofText file text) text) = .ok d := by
  have htokens : Token.ofText file (blankCommas (Token.ofText file text) text) =
      withoutCommas (Token.ofText file text) := by
    rw [blankCommas, Token.ofText, String.toList_ofList]
    exact tokensFrom_blankFrom (Document.isProper_of_ofText h)
  have hfollow := commasFollow_ofText h hlines
  obtain ⟨rest, hrun⟩ := Document.exists_run_of_ofTokens h
  rw [document_eq] at hrun
  have hthin : Thin (Token.ofText file text) (.ofTokens file (Token.ofText file text))
      (.ofTokens file (withoutCommas (Token.ofText file text))) :=
    ⟨hfollow, [], .ofTokens file _, .ofTokens file _⟩
  obtain ⟨thinRest, hthinRun⟩ :=
    exists_documentFrom_run (meets_of_thin hthin (atDefinition_of_documentFrom_run hrun)) hrun
  rw [← document_eq] at hthinRun
  rw [Document.ofText, htokens, Document.ofTokens, hthinRun]

/-- Commas behind a header without a body, in a list and between and behind arguments; that in the
comment stays. -/
theorem ofText_blankCommas_header :
    let text := "type A, # b, c\nscalar D @e(f: [1, 2],),"
    let d := { Document.empty with
      scalars := [⟨"D", [⟨"e", [⟨"f", ["1", "2"], true⟩], []⟩], [], [],
        ⟨"a.graphql", ⟨1, 7, 22⟩, ⟨1, 8, 23⟩⟩⟩]
      types := [⟨"A", [], [], [], [], ["# b, c"], false,
        ⟨"a.graphql", ⟨0, 5, 5⟩, ⟨0, 6, 6⟩⟩⟩] }
    Document.ofText "a.graphql" text = .ok d ∧
      (Token.ofText "a.graphql" text).IsChain (fun before comma =>
        comma.kind = .punctuator .comma → comma.span.start.line = before.span.stop.line) ∧
      blankCommas (Token.ofText "a.graphql" text) text =
        "type A  # b, c\nscalar D @e(f: [1  2] ) " ∧
      Document.ofText "a.graphql" (blankCommas (Token.ofText "a.graphql" text) text) = .ok d := by
  intro text d
  have h : Document.ofText "a.graphql" text = .ok d := by decide +kernel
  have hlines : (Token.ofText "a.graphql" text).IsChain fun before comma =>
      comma.kind = .punctuator .comma → comma.span.start.line = before.span.stop.line := by
    decide +kernel
  exact ⟨h, hlines, by decide +kernel, ofText_blankCommas h hlines⟩

/-- A comma on a later line lets the comment behind it trail the header. -/
example : (Document.ofText "a.graphql" "type A\n, # b").map (·.types.map (·.comments)) =
    .ok [["# b"]] ∧
      (Document.ofText "a.graphql" "type A\n  # b").map (·.types.map (·.comments)) = .ok [[]] := by
  decide +kernel

end

end SchemaMerge
