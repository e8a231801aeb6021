import SchemaMerge.Proofs.Merge.Spans
import SchemaMerge.Proofs.Reading.Continued
import SchemaMerge.Proofs.RoundTrip.FixedPoint

/-!
# Texts one behind the other

The same text further down in a file, or in another file, is read as the same document with other
spans (`Document.isProper_and_ofTokens_map`). Two texts that are joined by a line feed are read as
the two documents, the second moved down, if the first ends plainly (`ofText_append`). For merging
it makes no difference whether they stand in one file or in two, since merging sees no spans.
-/

namespace SchemaMerge

open SchemaMerge.Parser

/-! ## Documents in another place -/

/-- The seam behind all tokens of a text, where the same text may end in another place. -/
def Seam.atEnd (file : String) (move : Relocation) (tokens : List Token) (stop : Token)
    (kind_stop : stop.kind = .endOfText) : Seam where
  file := file
  move := move
  tokens := tokens
  stop := stop
  next := move.token stop
  behind := []
  kind_stop := kind_stop
  opens_next := by simp [kind_stop, TokenKind.opens]
  apart _ _ hcomment := by simp [kind_stop, TokenKind.comment?] at hcomment

theorem Seam.whole_atEnd (file : String) (move : Relocation) {tokens : List Token} {stop : Token}
    (kind_stop : stop.kind = .endOfText) (inner : ∀ token ∈ tokens, token.kind ≠ .endOfText) :
    (Seam.atEnd file move tokens stop kind_stop).Whole where
  inner := inner
  ends := .inl kind_stop
  opens := by
    refine ⟨move.token stop, ?_, by simp [kind_stop, TokenKind.opens]⟩
    simp [others, rest, atEnd, inRun, kind_stop, TokenKind.comment?]
  closes := ⟨move.token stop, List.mem_singleton_self _, kind_stop⟩

namespace Document

variable {file text : String} {d : Document}

theorem ofTokens_endOfText (file : String) {token : Token} (h : token.kind = .endOfText) :
    ofTokens file [token] = .ok .empty := by
  have hdefined : defined (Feed.ofTokens file [token]).tokens = [token] :=
    List.dropWhile_cons_of_neg (by simp [Seam.inRun, h, TokenKind.description?])
  rw [ofTokens_eq_map, map_documentFrom_run_of_end hdefined h]

/-- A text has no faults if it is read as a document, and moved it is read as the document moved. -/
theorem isProper_and_ofTokens_map (h : ofText file text = .ok d) (ρ : Relocation) :
    (∀ token ∈ Token.ofText file text, token.kind.isProper = true) ∧
      ofTokens (ρ.file file) ((Token.ofText file text).map ρ.token) = .ok (relocate ρ d) := by
  obtain ⟨tokens, stop, htokens, hstop, hinner⟩ :=
    exists_tokensFrom_eq_concat file .start text.toList
  change Token.ofText file text = tokens ++ [stop] at htokens
  rw [ofText, htokens] at h
  obtain ⟨hproper, heq⟩ := (Seam.whole_atEnd file ρ hstop hinner).ofTokens_eq h
  have hend : ofTokens (ρ.file file) [ρ.token stop] = .ok .empty := ofTokens_endOfText _ hstop
  change _ = Except.map _ (ofTokens (ρ.file file) [ρ.token stop]) at heq
  rw [hend] at heq
  rw [htokens, List.map_append]
  refine ⟨List.forall_mem_append.2 ⟨hproper, List.forall_mem_singleton.2 (by rw [hstop]; rfl)⟩, ?_⟩
  exact heq.trans (congrArg Except.ok (append_empty _))

theorem isProper_of_ofText (h : ofText file text = .ok d) :
    ∀ token ∈ Token.ofText file text, token.kind.isProper = true :=
  (isProper_and_ofTokens_map h .refl).1

/-- A text is read in any file. -/
theorem ofText_rename (h : ofText file text = .ok d) (newFile : String) :
    ofText newFile text = .ok (relocate (.rename newFile) d) := by
  have htokens : Token.ofText newFile text =
      (Token.ofText file text).map (Relocation.rename newFile).token :=
    tokensFrom_relocate (.rename newFile) (isProper_of_ofText h)
  rw [ofText, htokens]
  exact (isProper_and_ofTokens_map h (.rename newFile)).2

end Document

/-! ## Two texts in one -/

/-- The move behind a text and a line feed. -/
def Relocation.behind (text : String) : Relocation :=
  .down ((Text.normalizeBreaks (text.toList ++ ['\n'])).count '\n') (text.length + 1)

theorem advance_start_behind (text : String) :
    Tracker.start.advance (text.toList ++ ['\n']) = (Relocation.behind text).tracker .start := by
  rw [Tracker.advance_start_line_feed, String.length_toList, Relocation.behind, Relocation.tracker]
  simp [Relocation.down, Relocation.position, Tracker.start, Position.origin]

section

variable {file a b : String} {da db : Document}

/-- The second of two texts has the tokens it has alone, moved behind the first. -/
theorem tokens_append (ha : Document.ofText file a = .ok da)
    (hb : Document.ofText file b = .ok db) :
    Token.ofText file (a ++ "\n" ++ b) = (Token.ofText file a).dropLast ++
      (Token.ofText file b).map (Relocation.behind a).token := by
  have htext : (a ++ "\n" ++ b).toList = a.toList ++ '\n' :: b.toList := by simp
  rw [Token.ofText, htext, tokensFrom_append (Document.isProper_of_ofText ha), advance_start_behind]
  exact congrArg (_ ++ ·) (tokensFrom_relocate (.behind a) (Document.isProper_of_ofText hb))

/-- The last tokens of a text end on lines before those of the text behind it. -/
theorem stop_line_lt_behind (ha : Document.ofText file a = .ok da) :
    ∀ token ∈ (Token.ofText file a).dropLast,
      token.span.stop.line < (Relocation.behind a).lines := by
  have hlines := stop_line_lt_of_mem_tokensFrom (Document.isProper_of_ofText ha)
  have hstart : ((Relocation.behind a).tracker .start).position.line =
      (Relocation.behind a).lines := Nat.zero_add _
  rwa [advance_start_behind, hstart] at hlines

/-- The seam between the two texts. -/
theorem exists_seam (ha : Document.ofText file a = .ok da) (hb : Document.ofText file b = .ok db)
    (hplain : EndsPlainly (Token.ofText file a).dropLast) :
    ∃ s : Seam, s.Whole ∧ s.file = file ∧ s.move = .refl ∧
      s.tokens ++ [s.stop] = Token.ofText file a ∧
      s.rest = (Token.ofText file b).map (Relocation.behind a).token := by
  obtain ⟨tokens, stop, htokens, hstop, hinner⟩ :=
    exists_tokensFrom_eq_concat file .start a.toList
  obtain ⟨others, last, hothers, hlast, -⟩ := exists_tokensFrom_eq_concat file .start b.toList
  change Token.ofText file a = tokens ++ [stop] at htokens
  change Token.ofText file b = others ++ [last] at hothers
  have hdrop : (Token.ofText file a).dropLast = tokens := by rw [htokens, List.dropLast_concat]
  rw [hdrop] at hplain
  obtain ⟨next, behind, hrest, hopens⟩ := Document.exists_cons_of_ofTokens hb
  obtain ⟨first, hfirst, hfirstOpens⟩ :=
    Document.exists_opens_of_ofTokens hb (p := Seam.inRun TokenKind.comment?) fun _ =>
      Seam.isSome_description?
  let s : Seam :=
    { file, move := .refl, tokens, stop, kind_stop := hstop
      next := (Relocation.behind a).token next
      behind := behind.map (Relocation.behind a).token
      opens_next := hopens
      apart := fun token ht _ => by
        have hline := stop_line_lt_behind ha token (hdrop ▸ ht)
        show token.span.stop.line + 0 ≠ next.span.start.line + (Relocation.behind a).lines
        omega }
  have hs : s.rest = (Token.ofText file b).map (Relocation.behind a).token := by
    rw [hrest]
    rfl
  refine ⟨s, ⟨hinner, .inr ⟨hplain, ?_⟩, ?_, ?_⟩, rfl, rfl, htokens.symm, hs⟩
  · have hapart : CommentsApart (tokens ++ [stop]) := htokens ▸ commentsApart_tokensFrom
    exact hapart.left_of_append
  · refine ⟨(Relocation.behind a).token first, ?_, hfirstOpens⟩
    rw [Seam.others, hs, List.dropWhile_map, List.head?_map]
    exact Option.mem_map_of_mem _ hfirst
  · refine ⟨(Relocation.behind a).token last, ?_, hlast⟩
    rw [hs, hothers]
    simp

/-- **Two texts that are joined by a line feed are read as the two documents**, the second moved
behind the first. -/
theorem ofText_append (ha : Document.ofText file a = .ok da) (hb : Document.ofText file b = .ok db)
    (hplain : EndsPlainly (Token.ofText file a).dropLast) :
    Document.ofText file (a ++ "\n" ++ b) =
      .ok (da.append (relocate (Relocation.behind a) db)) := by
  obtain ⟨s, hs, rfl, hmove, htokens, hrest⟩ := exists_seam ha hb hplain
  have hmoved : Document.ofTokens s.file s.rest = .ok (relocate (.behind a) db) := by
    rw [hrest]
    exact (Document.isProper_and_ofTokens_map hb (.behind a)).2
  have hfirst : Document.ofTokens s.file (s.tokens ++ [s.stop]) = .ok da := by
    rw [htokens]
    exact ha
  have heq := (hs.ofTokens_eq hfirst).2
  simp only [hmove, Relocation.map_token_refl, Relocatable.relocate_refl] at heq
  rw [Document.ofText, tokens_append ha hb, ← htokens, List.dropLast_concat, ← hrest]
  refine heq.trans ?_
  rw [show Relocation.refl.file s.file = s.file from rfl, hmoved]
  rfl

/-! ## One file or two -/

theorem withoutSpans_append (d e : Document) :
    withoutSpans (d.append e) = (withoutSpans d).append (withoutSpans e) := by
  simp [withoutSpans, Document.append]

/-- Whether two texts stand in one file or in two makes no difference to what is merged, but for
spans. -/
theorem sameButSpans_concat {ρ σ τ υ : Relocation} (d e : Document) :
    SameButSpans (Document.concat [relocate ρ d, relocate σ e])
      (Document.concat [relocate τ (d.append (relocate υ e))]) := by
  simp only [SameButSpans, Document.concat, List.foldl_cons, List.foldl_nil, withoutSpans_append,
    Relocatable.withoutSpans_relocate]
  simp [Document.append]

end

theorem SameButSpans.print_eq {d e : Document} (h : SameButSpans d e) (unit : String) :
    d.print unit = e.print unit := by
  rw [← d.print_withoutSpans, h, e.print_withoutSpans]

theorem readSources_pair {file otherFile a b : String} {da db : Document}
    (ha : Document.ofText file a = .ok da) (hb : Document.ofText otherFile b = .ok db) :
    readSources [⟨file, a⟩, ⟨otherFile, b⟩] = .ok [da, db] := by
  simp only [readSources, List.mapM_cons, List.mapM_nil, ha, hb]
  rfl

theorem mergeText_eq_of_readSources {sources : List Source} {documents : List Document}
    (h : readSources sources = .ok documents) (unit : String) :
    mergeText sources unit = (Document.merge documents).map fun m => m.print unit := by
  simp only [mergeText, mergeSources, h]
  cases hmerge : Document.merge documents with
  | ok m => exact congrArg (fun result => result >>= fun m => pure (m.print unit)) hmerge
  | error e => exact congrArg (fun result => result >>= fun m => pure (m.print unit)) hmerge

/-- **File boundaries do not matter.** A text that ends plainly and another behind it are read as
the two documents, the second moved behind the first text. Two files are merged to the same text as
one with both texts in it, or fail for the same cause. -/
theorem ofText_and_mergeText_append {file a b : String} {da db : Document}
    (ha : Document.ofText file a = .ok da) (hb : Document.ofText file b = .ok db)
    (hplain : EndsPlainly (Token.ofText file a).dropLast) :
    Document.ofText file (a ++ "\n" ++ b) =
        .ok (da.append (relocate (Relocation.behind a) db)) ∧
      ∀ first second joined unit : String,
        (mergeText [⟨first, a⟩, ⟨second, b⟩] unit).mapError Diagnostic.cause =
          (mergeText [⟨joined, a ++ "\n" ++ b⟩] unit).mapError Diagnostic.cause := by
  have hjoined := ofText_append ha hb hplain
  refine ⟨hjoined, fun first second joined unit => ?_⟩
  rw [mergeText_eq_of_readSources
      (readSources_pair (Document.ofText_rename ha first) (Document.ofText_rename hb second)),
    mergeText_eq_of_readSources (readSources_singleton (Document.ofText_rename hjoined joined))]
  exact (concur_merge (sameButSpans_concat da db)).mapError_map_eq fun _ _ h => h.print_eq unit

theorem endsPlainly_of_comment?_eq_none {tokens : List Token}
    (hlast : ∀ token ∈ tokens.getLast?, token.kind.description? = none)
    (hcomments : ∀ token ∈ tokens, token.kind.comment? = none) : EndsPlainly tokens where
  last := hlast
  comment before comment commas htokens hcomment _ := by
    have hnone := hcomments comment (by simp [htokens])
    simp [hnone] at hcomment

/-- A header without a body and half a line break in front of the seam, and a comment behind it. -/
theorem ofText_and_mergeText_append_header :
    let a := "type A @d\r"
    let b := "# c\ntype B"
    let da := { Document.empty with
      types := [⟨"A", [], [], [⟨"d", [], []⟩], [], [], false,
        ⟨"a.graphql", ⟨0, 5, 5⟩, ⟨0, 6, 6⟩⟩⟩] }
    let db := { Document.empty with
      types := [⟨"B", [], [], [], ["# c"], [], false, ⟨"a.graphql", ⟨1, 5, 9⟩, ⟨1, 6, 10⟩⟩⟩] }
    Document.ofText "a.graphql" a = .ok da ∧ Document.ofText "a.graphql" b = .ok db ∧
      EndsPlainly (Token.ofText "a.graphql" a).dropLast ∧
      Document.ofText "a.graphql" (a ++ "\n" ++ b) =
        .ok (da.append (relocate (Relocation.behind a) db)) ∧
      ∀ first second joined unit : String,
        (mergeText [⟨first, a⟩, ⟨second, b⟩] unit).mapError Diagnostic.cause =
          (mergeText [⟨joined, a ++ "\n" ++ b⟩] unit).mapError Diagnostic.cause := by
  intro a b da db
  have ha : Document.ofText "a.graphql" a = .ok da := by decide +kernel
  have hb : Document.ofText "a.graphql" b = .ok db := by decide +kernel
  have hplain : EndsPlainly (Token.ofText "a.graphql" a).dropLast :=
    endsPlainly_of_comment?_eq_none (by decide +kernel) (by decide +kernel)
  exact ⟨ha, hb, hplain, ofText_and_mergeText_append ha hb hplain⟩

/-- A comment on a line of its own and a comma behind it: the comment describes what follows in the
file, and is lost where nothing follows. -/
theorem ofText_append_fails_behind_comma :
    let a := "type A\n# c\n,"
    let b := "type B"
    let da := { Document.empty with
      types := [⟨"A", [], [], [], [], [], false, ⟨"a.graphql", ⟨0, 5, 5⟩, ⟨0, 6, 6⟩⟩⟩] }
    let db := { Document.empty with
      types := [⟨"B", [], [], [], [], [], false, ⟨"a.graphql", ⟨0, 5, 5⟩, ⟨0, 6, 6⟩⟩⟩] }
    Document.ofText "a.graphql" a = .ok da ∧ Document.ofText "a.graphql" b = .ok db ∧
      (∀ token ∈ (Token.ofText "a.graphql" a).dropLast.getLast?,
        token.kind.description? = none) ∧
      Document.ofText "a.graphql" (a ++ "\n" ++ b) ≠
        .ok (da.append (relocate (Relocation.behind a) db)) ∧
      mergeText [⟨"a.graphql", a⟩, ⟨"b.graphql", b⟩] "  " = .ok "type A\n\ntype B\n" ∧
      mergeText [⟨"a.graphql", a ++ "\n" ++ b⟩] "  " = .ok "type A\n\n# c\ntype B\n" := by
  decide +kernel

end SchemaMerge
